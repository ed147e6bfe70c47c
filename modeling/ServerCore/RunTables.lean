import Mathlib.Algebra.GroupWithZero.Nat
import Mathlib.Algebra.BigOperators.Group.List.Basic

/-!
# Tables of runs

Three ways to write a long list shortly: runs with their lengths, runs with the
places at which they begin, and items laid down in groups, of which only the
place of each group is known.
-/

namespace ServerCore.RunTables

open List

variable {whole skipped : Nat}
variable {stop : Nat} {counts starts sizes : List Nat}

section Runs

variable {Value : Type*} {step : Nat × Value}

def expand : List (Nat × Value) → List Value
  | [] => []
  | run :: runs => List.replicate run.1 run.2 ++ expand runs

theorem expand_append (first second : List (Nat × Value)) :
    expand (first ++ second) = expand first ++ expand second := by
  induction first with
  | nil => rfl
  | cons run runs ih =>
    rw [cons_append, expand, expand, ih, append_assoc]

theorem expand_cons_length (run : Nat × Value) (runs : List (Nat × Value)) :
    (expand (run :: runs)).length = run.1 + (expand runs).length := by
  rw [expand, length_append, length_replicate]

section

variable (passed behind : List (Nat × Value)) (value : Value) {count rest : Nat} (within : rest ≤ count)
include within

theorem expand_drop : (expand (passed ++ (count, value) :: behind)).drop ((expand passed).length + rest) =
      expand ((count - rest, value) :: behind) := by
  rw [expand_append, ← drop_drop, drop_left, expand, expand,
    drop_append_of_le_length (by rw [length_replicate]; exact within), drop_replicate]

theorem expand_take : (expand (passed ++ (count, value) :: behind)).take ((expand passed).length + rest) =
      expand (passed ++ [(rest, value)]) := by
  rw [expand_append, expand_append, take_length_add_append, expand, expand, expand,
    take_append_of_le_length (by rw [length_replicate]; exact within), take_replicate,
    Nat.min_eq_left within, append_nil]

end

end Runs

variable {n : Nat}

section Cuts

variable {Value : Type*}

def total (runs : List (Nat × Value)) : Nat := (runs.map Prod.fst).sum

theorem total_append (first second : List (Nat × Value)) :
    total (first ++ second) = total first + total second := by
  rw [total, map_append, sum_append]
  rfl

theorem total_cons (run : Nat × Value) (runs : List (Nat × Value)) :
    total (run :: runs) = run.1 + total runs := by
  rw [total, map_cons, sum_cons]
  rfl

theorem total_replicate (n : Nat) (run : Nat × Value) : total (List.replicate n run) = n * run.1 := by
  rw [total, map_replicate, sum_replicate_nat]

/-- `part` is what a cut behind the first `n` items leaves: `whole` runs are gone, and the
next has lost `skipped` of its items. -/
structure CutFront (runs part : List (Nat × Value)) (n whole skipped : Nat) : Prop where
  parted : ∃ before count value behind, runs = before ++ (count, value) :: behind ∧
    before.length = whole ∧ total before + skipped = n ∧ skipped < count ∧
    part = (count - skipped, value) :: behind

/-- The first `n` items: the cut is between two runs or in one. -/
inductive CutBack (runs : List (Nat × Value)) : List (Nat × Value) → Nat → Prop
  | between (whole behind : List (Nat × Value)) (parted : runs = whole ++ behind) :
      CutBack runs whole (total whole)
  | within (whole behind : List (Nat × Value)) (count cut : Nat) (value : Value)
      (parted : runs = whole ++ (count, value) :: behind) (inside : cut ≤ count) :
      CutBack runs (whole ++ [(cut, value)]) (total whole + cut)

theorem cut_front_total {runs part : List (Nat × Value)}
    (cut : CutFront runs part n whole skipped) : n + total part = total runs := by
  obtain ⟨before, count, value, behind, rfl, -, isSum, inside, rfl⟩ := cut.parted
  rw [total_append, total_cons, total_cons]
  omega

theorem expand_length (runs : List (Nat × Value)) : (expand runs).length = total runs := by
  induction runs with
  | nil => rfl
  | cons run runs ih => rw [expand_cons_length, total_cons, ih]

section

variable {runs part : List (Nat × Value)}

theorem expand_cut_front
    (cut : CutFront runs part n whole skipped) : expand part = (expand runs).drop n := by
  obtain ⟨before, count, value, behind, rfl, -, isSum, inside, rfl⟩ := cut.parted
  rw [← isSum, ← expand_length]
  exact (expand_drop before behind value (Nat.le_of_lt inside)).symm

theorem expand_cut_back (cut : CutBack runs part n) : expand part = (expand runs).take n := by
  cases cut with
  | between whole behind parted => rw [parted, expand_append, ← expand_length, take_left]
  | within whole behind count cut value parted inside =>
    rw [parted, ← expand_length]
    exact (expand_take whole behind value inside).symm

theorem cut_front_length
    (cut : CutFront runs part n whole skipped) : whole + part.length = runs.length := by
  obtain ⟨before, count, value, behind, rfl, rfl, -, -, rfl⟩ := cut.parted
  rw [length_append, length_cons, length_cons]

theorem cut_front_skipped (cut : CutFront runs part n whole skipped) : skipped ≤ n := by
  obtain ⟨before, count, value, behind, -, -, isSum, -, -⟩ := cut.parted
  omega

theorem cut_back_cons (run : Nat × Value)
    (cut : CutBack runs part n) : CutBack (run :: runs) (run :: part) (run.1 + n) := by
  cases cut with
  | between whole behind parted =>
    rw [← total_cons, parted]
    exact CutBack.between (run :: part) behind rfl
  | within whole behind count cut value parted inside =>
    rw [← add_assoc, ← total_cons, parted]
    exact CutBack.within (run :: whole) behind count cut value rfl inside

theorem cut_back_append (before after : List (Nat × Value)) (cut : CutBack runs part n) :
    CutBack (before ++ (runs ++ after)) (before ++ part) (total before + n) := by
  cases cut with
  | between whole behind parted =>
    rw [← total_append, parted]
    exact CutBack.between (before ++ part) (behind ++ after) (by simp only [append_assoc])
  | within whole behind count cut value parted inside =>
    have wholeParted : before ++ (runs ++ after) =
        (before ++ whole) ++ (count, value) :: (behind ++ after) := by
      rw [parted]
      simp
    rw [← add_assoc, ← total_append, ← append_assoc before whole]
    exact CutBack.within (before ++ whole) (behind ++ after) count cut value wholeParted inside

theorem cut_back_length (cut : CutBack runs part n) : part.length ≤ runs.length := by
  cases cut with
  | between whole behind parted =>
    rw [parted, length_append]
    exact Nat.le_add_right _ _
  | within whole behind count cut value parted inside =>
    rw [parted, length_append, length_append, length_singleton, length_cons]
    omega

end

end Cuts

section Steps

variable {Value : Type*}

/-- Values with the places at which they begin to hold, up to `stop`. -/
def layout (stop : Nat) : List (Nat × Value) → List Value
  | [] => []
  | [step] => List.replicate (stop - step.1) step.2
  | step :: next :: rest => List.replicate (next.1 - step.1) step.2 ++ layout stop (next :: rest)

def nextPlace (stop : Nat) : List (Nat × Value) → Nat
  | [] => stop
  | step :: _ => step.1

theorem layout_cons (stop : Nat) (step : Nat × Value) (rest : List (Nat × Value)) :
    layout stop (step :: rest) =
      List.replicate (nextPlace stop rest - step.1) step.2 ++ layout stop rest := by
  cases rest with
  | nil => rw [layout, layout, nextPlace, append_nil]
  | cons next rest => rw [layout, nextPlace]

theorem next_place_append (stop : Nat) (first rest : List (Nat × Value)) :
    nextPlace stop (first ++ rest) = nextPlace (nextPlace stop rest) first := by
  cases first <;> rfl

theorem layout_append (stop : Nat) (first rest : List (Nat × Value)) :
    layout stop (first ++ rest) = layout (nextPlace stop rest) first ++ layout stop rest := by
  induction first with
  | nil => rfl
  | cons step first ih =>
    rw [cons_append, layout_cons, layout_cons, ih, next_place_append, append_assoc]

/-- The steps come in order and end before `stop`. -/
def Ascending (stop : Nat) : List (Nat × Value) → Prop
  | [] => True
  | step :: rest => step.1 < nextPlace stop rest ∧ Ascending stop rest

theorem ascending_append {first rest : List (Nat × Value)} :
    Ascending stop (first ++ rest) ↔ Ascending (nextPlace stop rest) first ∧ Ascending stop rest := by
  induction first with
  | nil => exact ⟨fun ascending => ⟨trivial, ascending⟩, fun both => both.2⟩
  | cons step first ih =>
    rw [cons_append, Ascending, Ascending, ih, next_place_append, and_assoc]

section

variable {stop : Nat} {steps : List (Nat × Value)} (ascending : Ascending stop steps)
include ascending

theorem next_place_le : nextPlace stop steps ≤ stop := by
  induction steps with
  | nil => exact Nat.le_refl stop
  | cons step rest ih =>
    exact Nat.le_of_lt (Nat.lt_of_lt_of_le ascending.1 (ih ascending.2))

theorem next_place_le_mem (mem : step ∈ steps) : nextPlace stop steps ≤ step.1 := by
  induction steps with
  | nil => cases mem
  | cons first rest ih =>
    rcases mem_cons.1 mem with isFirst | isRest
    · rw [isFirst]
      exact Nat.le_refl _
    · exact Nat.le_of_lt (Nat.lt_of_lt_of_le ascending.1 (ih ascending.2 isRest))

theorem mem_lt_stop (mem : step ∈ steps) : step.1 < stop := by
  induction steps with
  | nil => cases mem
  | cons first rest ih =>
    rcases mem_cons.1 mem with isFirst | isRest
    · rw [isFirst]
      exact Nat.lt_of_lt_of_le ascending.1 (next_place_le ascending.2)
    · exact ih ascending.2 isRest

theorem layout_length : (layout stop steps).length = stop - nextPlace stop steps := by
  induction steps with
  | nil => exact (Nat.sub_self stop).symm
  | cons step rest ih =>
    have after := next_place_le ascending.2
    have before := ascending.1
    rw [layout_cons, length_append, length_replicate, ih ascending.2, nextPlace]
    omega

end

theorem layout_shift {distance : Nat} {steps : List (Nat × Value)}
    (ascending : Ascending stop steps) (beyond : ∀ step ∈ steps, distance ≤ step.1) :
    layout (stop - distance) (steps.map fun step => (step.1 - distance, step.2)) = layout stop steps := by
  induction steps with
  | nil => rfl
  | cons step rest ih =>
    have here := beyond step mem_cons_self
    have same := ih ascending.2 fun next mem => beyond next (mem_cons_of_mem step mem)
    have sameNext : nextPlace (stop - distance)
        (rest.map fun step => (step.1 - distance, step.2)) = nextPlace stop rest - distance := by
      cases rest <;> rfl
    rw [map_cons, layout_cons, layout_cons, same, sameNext]
    congr 2
    omega

end Steps

section Groups

def places (start : Nat) : List Nat → List Nat
  | [] => []
  | size :: sizes => start :: places (start + size) sizes

theorem places_length (start : Nat) (sizes : List Nat) : (places start sizes).length = sizes.length := by
  induction sizes generalizing start with
  | nil => rfl
  | cons size sizes ih => rw [places, length_cons, length_cons, ih]

theorem places_drop (start n : Nat) (sizes : List Nat) :
    (places start sizes).drop n = places (start + (sizes.take n).sum) (sizes.drop n) := by
  induction n generalizing start sizes with
  | zero => rfl
  | succ n ih =>
    cases sizes with
    | nil => rfl
    | cons size sizes =>
      rw [places, drop_succ_cons, take_succ_cons, drop_succ_cons, sum_cons, ih, add_assoc]

theorem places_take (start n : Nat) (sizes : List Nat) :
    (places start sizes).take n = places start (sizes.take n) := by
  induction n generalizing start sizes with
  | zero => rfl
  | succ n ih =>
    cases sizes with
    | nil => rfl
    | cons size sizes => rw [places, take_succ_cons, take_succ_cons, places, ih]

/-- The places of items in groups: how many are in each group, where each group is,
and the sizes of all items. -/
def groupPlaces : List Nat → List Nat → List Nat → List Nat
  | count :: counts, start :: starts, sizes =>
    places start (sizes.take count) ++ groupPlaces counts starts (sizes.drop count)
  | _, _, _ => []

theorem group_places_append {counts' starts' : List Nat}
    (paired : counts.length = starts.length) : groupPlaces (counts ++ counts') (starts ++ starts') sizes =
      groupPlaces counts starts sizes ++ groupPlaces counts' starts' (sizes.drop counts.sum) := by
  induction counts generalizing starts sizes with
  | nil =>
    cases starts with
    | nil => rfl
    | cons start starts => cases paired
  | cons count counts ih =>
    cases starts with
    | nil => cases paired
    | cons start starts =>
      rw [cons_append, cons_append, groupPlaces, groupPlaces,
        ih (Nat.succ.inj paired), append_assoc, sum_cons, drop_drop]

theorem group_places_length (paired : counts.length = starts.length)
    (enough : counts.sum ≤ sizes.length) : (groupPlaces counts starts sizes).length = counts.sum := by
  induction counts generalizing starts sizes with
  | nil =>
    cases starts <;> rfl
  | cons count counts ih =>
    cases starts with
    | nil => cases paired
    | cons start starts =>
      rw [sum_cons] at enough
      rw [groupPlaces, length_append, places_length, length_take,
        ih (Nat.succ.inj paired) (by rw [length_drop]; omega), sum_cons]
      omega

theorem group_places_take_sizes (paired : counts.length = starts.length) (enough : counts.sum ≤ n) :
    groupPlaces counts starts (sizes.take n) = groupPlaces counts starts sizes := by
  induction counts generalizing starts sizes n with
  | nil => cases starts <;> rfl
  | cons count counts ih =>
    cases starts with
    | nil => cases paired
    | cons start starts =>
      rw [sum_cons] at enough
      rw [groupPlaces, groupPlaces, take_take, Nat.min_eq_left (by omega), drop_take,
        ih (Nat.succ.inj paired) (by omega)]

section

variable {before behind startsBefore startsBehind sizes : List Nat} {count start rest : Nat}
  (paired : before.length = startsBefore.length) (within : rest ≤ count)
  (enough : before.sum + count ≤ sizes.length)
include paired within enough

theorem group_places_drop :
    (groupPlaces (before ++ count :: behind) (startsBefore ++ start :: startsBehind) sizes).drop
        (before.sum + rest) = groupPlaces ((count - rest) :: behind)
        ((start + ((sizes.drop before.sum).take rest).sum) :: startsBehind)
        (sizes.drop (before.sum + rest)) := by
  have length : (groupPlaces before startsBefore sizes).length = before.sum :=
    group_places_length paired (by omega)
  have inGroup : rest ≤ (places start ((sizes.drop before.sum).take count)).length := by
    rw [places_length, length_take, length_drop]
    omega
  have past : ∀ other, (groupPlaces before startsBefore sizes ++ other).drop before.sum = other := by
    intro other
    rw [← length, drop_left]
  have left : (sizes.drop before.sum).drop rest = sizes.drop (before.sum + rest) := drop_drop
  have behindCut : (sizes.drop (before.sum + rest)).drop (count - rest) =
      (sizes.drop before.sum).drop count := by
    rw [drop_drop, drop_drop]
    congr 1
    omega
  rw [group_places_append paired, ← drop_drop, past, groupPlaces, groupPlaces,
    drop_append_of_le_length inGroup, places_drop, take_take, Nat.min_eq_left within,
    drop_take, left, behindCut]

theorem group_places_take :
    (groupPlaces (before ++ count :: behind) (startsBefore ++ start :: startsBehind) sizes).take
        (before.sum + rest) =
      groupPlaces (before ++ [rest]) (startsBefore ++ [start]) (sizes.take (before.sum + rest)) := by
  have length : (groupPlaces before startsBefore sizes).length = before.sum :=
    group_places_length paired (by omega)
  have inGroup : rest ≤ (places start ((sizes.drop before.sum).take count)).length := by
    rw [places_length, length_take, length_drop]
    omega
  have past : ∀ other, (groupPlaces before startsBefore sizes ++ other).take (before.sum + rest) =
      groupPlaces before startsBefore sizes ++ other.take rest := by
    intro other
    rw [← length, take_length_add_append]
  have ends : ((sizes.take (before.sum + rest)).drop before.sum).take rest =
      (sizes.drop before.sum).take rest := by
    rw [drop_take, take_take]
    congr 1
    omega
  have last : groupPlaces [rest] [start] ((sizes.take (before.sum + rest)).drop before.sum) =
      places start ((sizes.drop before.sum).take rest) := by
    rw [← ends]
    exact append_nil _
  rw [group_places_append paired, past, group_places_append paired, last, groupPlaces,
    take_append_of_le_length inGroup, places_take, take_take, Nat.min_eq_left within,
    group_places_take_sizes paired (Nat.le_add_right before.sum rest)]

end

variable {Value : Type*} {runs part : List (Nat × Value)} {n : Nat} {starts sizes : List Nat}

theorem group_places_cut_front (cut : CutFront runs part n whole skipped)
    (paired : runs.length = starts.length) (enough : total runs ≤ sizes.length) :
    ∃ start behind, starts.drop whole = start :: behind ∧
      groupPlaces (part.map Prod.fst) ((start + ((sizes.drop (n - skipped)).take skipped).sum) :: behind)
        (sizes.drop n) = (groupPlaces (runs.map Prod.fst) starts sizes).drop n := by
  obtain ⟨before, count, value, behind, isRuns, isWhole, isSum, inside, rfl⟩ := cut.parted
  rw [isRuns, length_append, length_cons] at paired
  rw [isRuns, total_append, total_cons] at enough
  have notEmpty : starts.drop whole ≠ [] := by
    intro isNil
    have := drop_eq_nil_iff.1 isNil
    omega
  obtain ⟨start, startsBehind, isStarts⟩ := exists_cons_of_ne_nil notEmpty
  have isParted : starts = starts.take whole ++ start :: startsBehind := by
    rw [← isStarts, take_append_drop]
  have beforeLength : (before.map Prod.fst).length = (starts.take whole).length := by
    rw [length_map, length_take]
    omega
  have isBefore : n - skipped = (before.map Prod.fst).sum := by
    unfold total at isSum
    omega
  have isCut : n = (before.map Prod.fst).sum + skipped := by
    omega
  refine ⟨start, startsBehind, isStarts, ?_⟩
  have dropped := @group_places_drop (before.map Prod.fst) (behind.map Prod.fst) (starts.take whole)
    startsBehind sizes count start skipped beforeLength (Nat.le_of_lt inside)
    (by unfold total at enough; omega)
  rw [isRuns, isBefore, isCut, isParted, map_append, map_cons, map_cons]
  exact dropped.symm

theorem cut_front_place {whole skipped start : Nat} {behind : List Nat}
    (cut : CutFront runs part n whole skipped) (someLeft : n < sizes.length) :
    start ∈ groupPlaces (part.map Prod.fst) (start :: behind) (sizes.drop n) := by
  obtain ⟨before, count, value, rest, -, -, -, inside, rfl⟩ := cut.parted
  have someCount : count - skipped = count - skipped - 1 + 1 := by omega
  rw [map_cons, groupPlaces, drop_eq_getElem_cons someLeft, someCount, take_succ_cons, places]
  exact mem_append_left _ mem_cons_self

theorem group_places_cut_back (cut : CutBack runs part n) (paired : runs.length = starts.length)
    (enough : total runs ≤ sizes.length) :
    groupPlaces (part.map Prod.fst) (starts.take part.length) (sizes.take n) =
      (groupPlaces (runs.map Prod.fst) starts sizes).take n := by
  cases cut with
  | between whole behind parted =>
    rw [parted, length_append] at paired
    rw [parted, total_append] at enough
    have partedStarts : starts = starts.take part.length ++ starts.drop part.length :=
      (take_append_drop _ _).symm
    have samePlaces : (part.map Prod.fst).length = (starts.take part.length).length := by
      rw [length_map, length_take]
      omega
    have length : (groupPlaces (part.map Prod.fst) (starts.take part.length) sizes).length =
        total part := group_places_length samePlaces (by unfold total at enough; omega)
    have allTaken : groupPlaces (part.map Prod.fst) (starts.take part.length) (sizes.take (total part)) =
        groupPlaces (part.map Prod.fst) (starts.take part.length) sizes :=
      group_places_take_sizes samePlaces (Nat.le_refl _)
    rw [allTaken, parted, map_append]
    conv_rhs => rw [partedStarts]
    rw [group_places_append samePlaces, ← length, take_left]
  | within whole behind count cut value parted inside =>
    rw [parted, length_append, length_cons] at paired
    rw [parted, total_append, total_cons] at enough
    have notEmpty : starts.drop whole.length ≠ [] := by
      intro isNil
      have := drop_eq_nil_iff.1 isNil
      omega
    obtain ⟨start, startsBehind, isStarts⟩ := exists_cons_of_ne_nil notEmpty
    have isParted : starts = starts.take whole.length ++ start :: startsBehind := by
      rw [← isStarts, take_append_drop]
    have wholeLength : (whole.map Prod.fst).length = (starts.take whole.length).length := by
      rw [length_map, length_take]
      omega
    have takenStarts : starts.take (whole ++ [(cut, value)]).length =
        starts.take whole.length ++ [start] := by
      rw [length_append, length_singleton, take_add, isStarts]
      rfl
    have taken := @group_places_take (whole.map Prod.fst) (behind.map Prod.fst)
      (starts.take whole.length) startsBehind sizes count start cut wholeLength inside
      (by unfold total at enough; omega)
    rw [takenStarts, parted, map_append, map_append, map_cons]
    conv_rhs => rw [isParted]
    exact taken.symm

end Groups

end ServerCore.RunTables
