import Mathlib.Data.List.Nodup
import Mathlib.Data.List.Perm.Subperm

/-!
# Forests given by parent links

Every member of a forest has a link to its parent or to the root. A link that
ends at the root has a depth, and then there is no cycle above it.
-/

namespace ServerCore.RootedForest

variable {α : Type*} {a : α}
variable {depth' : Nat} {a x : α}

inductive Link (α : Type*) where
  | unset
  | root
  | node (mem : α)
  deriving DecidableEq

variable {link : Link α}

inductive Depth (parent : α → Link α) : Link α → Nat → Prop
  | root : Depth parent .root 0
  | node {a : α} {depth : Nat} : Depth parent (parent a) depth → Depth parent (.node a) (depth + 1)

/-- `x` is below `a`, through at least one link. -/
inductive Below (parent : α → Link α) (a : α) : α → Prop
  | child {x : α} : parent x = .node a → Below parent a x
  | step {x y : α} : parent x = .node y → Below parent a y → Below parent a x

variable {parent parent' : α → Link α}

variable {depth : Nat}

theorem depth_unique (first : Depth parent link depth)
    (second : Depth parent link depth') : depth = depth' := by
  induction first generalizing depth' with
  | root =>
    cases second
    rfl
  | node _ ih =>
    cases second with
    | node rest => rw [ih rest]

theorem depth_node (isDepth : Depth parent (.node a) depth) :
    ∃ above, depth = above + 1 ∧ Depth parent (parent a) above := by
  cases isDepth with
  | node rest => exact ⟨_, rfl, rest⟩

theorem below_trans {b : α} (first : Below parent a b) (second : Below parent b x) : Below parent a x := by
  induction second with
  | child isParent => exact .step isParent first
  | step isParent _ ih => exact .step isParent ih

theorem below_depth (below : Below parent a x)
    (isDepth : Depth parent (.node a) depth) (isDepth' : Depth parent (.node x) depth') :
    depth < depth' := by
  induction below generalizing depth' with
  | child isParent =>
    rcases depth_node isDepth' with ⟨above, rfl, rest⟩
    rw [isParent] at rest
    rw [depth_unique isDepth rest]
    exact Nat.lt_succ_self _
  | step isParent _ ih =>
    rcases depth_node isDepth' with ⟨above, rfl, rest⟩
    rw [isParent] at rest
    exact Nat.lt_succ_of_lt (ih rest)

theorem not_below_self (isDepth : Depth parent (.node a) depth) : ¬ Below parent a a := by
  intro below
  exact Nat.lt_irrefl _ (below_depth below isDepth isDepth)

theorem depth_of_below (below : Below parent a x) (isDepth : Depth parent (.node x) depth) :
    ∃ above, Depth parent (.node a) above := by
  induction below generalizing depth with
  | child isParent =>
    rcases depth_node isDepth with ⟨above, rfl, rest⟩
    rw [isParent] at rest
    exact ⟨above, rest⟩
  | step isParent _ ih =>
    rcases depth_node isDepth with ⟨above, rfl, rest⟩
    rw [isParent] at rest
    exact ih rest

theorem below_inside {inside : α → Prop} (closed : ∀ x y, inside x → parent x = .node y → inside y)
    (below : Below parent a x) (isInside : inside x) : inside a := by
  induction below with
  | child isParent => exact closed _ _ isInside isParent
  | step isParent _ ih => exact ih (closed _ _ isInside isParent)

theorem depth_congr (isDepth : Depth parent (.node x) depth)
    (same : ∀ y, y = x ∨ Below parent y x → parent' y = parent y) : Depth parent' (.node x) depth := by
  generalize isLink : Link.node x = link at isDepth
  induction isDepth generalizing x with
  | root => cases isLink
  | @node a above rest ih =>
    cases isLink
    have here := same a (.inl rfl)
    apply Depth.node
    rw [here]
    cases isParent : parent a with
    | unset =>
      rw [isParent] at rest
      cases rest
    | root =>
      rw [isParent] at rest
      cases rest
      exact .root
    | node y =>
      rw [← isParent]
      apply ih _ isParent.symm
      rintro z (rfl | below)
      · exact same z (.inr (.child isParent))
      · exact same z (.inr (.step isParent below))

theorem depth_of_above (below : Below parent a x) (isDepth : Depth parent (.node a) depth) :
    ∃ depth', Depth parent (.node x) depth' := by
  induction below with
  | child isParent =>
    rw [← isParent] at isDepth
    exact ⟨depth + 1, .node isDepth⟩
  | step isParent _ ih =>
    rcases ih with ⟨depth', rest⟩
    rw [← isParent] at rest
    exact ⟨depth' + 1, .node rest⟩

theorem depth_outside (changed : ∀ y, parent' y = parent y ∨ y = a ∨ parent' y = .node a)
    (isDepth : Depth parent link depth) :
    Depth parent' link depth ∨ ∃ x, link = .node x ∧ (x = a ∨ Below parent' a x) := by
  induction isDepth with
  | root => exact .inl .root
  | @node x above _ ih =>
    rcases changed x with same | rfl | leads
    · rcases ih with rest | ⟨y, isParent, rfl | below⟩
      · rw [← same] at rest
        exact .inl (.node rest)
      · exact .inr ⟨x, rfl, .inr (.child (same.trans isParent))⟩
      · exact .inr ⟨x, rfl, .inr (.step (same.trans isParent) below)⟩
    · exact .inr ⟨x, rfl, .inl rfl⟩
    · exact .inr ⟨x, rfl, .inr (.child leads)⟩

theorem depth_splice (spliced : ∀ x, parent' x = parent x ∨ parent x = .node a ∧
    parent' x = parent a) (isDepth : Depth parent link depth) : ∃ depth', Depth parent' link depth' := by
  have same : parent' a = parent a := by
    rcases spliced a with same | ⟨-, same⟩
    · exact same
    · exact same
  induction isDepth with
  | root => exact ⟨0, .root⟩
  | @node x above _ ih =>
    rcases ih with ⟨depth', rest⟩
    rcases spliced x with isSame | ⟨isChild, isSpliced⟩
    · rw [← isSame] at rest
      exact ⟨depth' + 1, .node rest⟩
    · rw [isChild] at rest
      rcases depth_node rest with ⟨above', -, beyond⟩
      rw [same, ← isSpliced] at beyond
      exact ⟨above' + 1, .node beyond⟩

open Classical in
noncomputable def depthOf (parent : α → Link α) (x : α) : Nat :=
  if ends : ∃ depth, Depth parent (.node x) depth then ends.choose else 0

theorem depth_of_eq (isDepth : Depth parent (.node x) depth) : depthOf parent x = depth := by
  have ends : ∃ depth, Depth parent (.node x) depth := ⟨depth, isDepth⟩
  unfold depthOf
  rw [dif_pos ends]
  exact depth_unique ends.choose_spec isDepth

section Bounded

variable {members : List α}

theorem exists_chain (closed : ∀ a ∈ members, ∀ b, parent a = .node b → b ∈ members)
    (isDepth : Depth parent link depth) (inside : ∀ a, link = .node a → a ∈ members) :
    ∃ chain : List α, chain.length = depth ∧ chain.Nodup ∧
      ∀ x ∈ chain, x ∈ members ∧ ∃ above, above ≤ depth ∧ Depth parent (.node x) above := by
  induction isDepth with
  | root => exact ⟨[], rfl, List.nodup_nil, nofun⟩
  | @node a above rest ih =>
    have mem := inside a rfl
    rcases ih (fun b isParent => closed a mem b isParent) with ⟨chain, isLength, apart, facts⟩
    refine ⟨a :: chain, by rw [List.length_cons, isLength], ?_, ?_⟩
    · apply List.nodup_cons.mpr
      refine ⟨?_, apart⟩
      intro again
      rcases (facts a again).2 with ⟨other, bound, isOther⟩
      have same := depth_unique isOther (.node rest)
      omega
    · intro x inChain
      rcases List.mem_cons.mp inChain with rfl | later
      · exact ⟨mem, above + 1, Nat.le_refl _, .node rest⟩
      · rcases facts x later with ⟨xMem, other, bound, isOther⟩
        exact ⟨xMem, other, by omega, isOther⟩

theorem depth_le_length (closed : ∀ a ∈ members, ∀ b, parent a = .node b → b ∈ members)
    (mem : a ∈ members) (isDepth : Depth parent (.node a) depth) : depth ≤ members.length := by
  have inside : ∀ b, Link.node a = .node b → b ∈ members := by
    intro b same
    cases same
    exact mem
  rcases exists_chain closed isDepth inside with ⟨chain, isLength, apart, facts⟩
  rw [← isLength]
  exact (apart.subperm fun x inChain => (facts x inChain).1).length_le

end Bounded

end ServerCore.RootedForest
