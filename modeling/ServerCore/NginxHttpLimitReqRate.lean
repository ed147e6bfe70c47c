import ServerCore.NginxHttpLimitReq
import Mathlib.Tactic.Linarith
import Mathlib.Data.List.Infix

/-!
# The rate of a request limit

An accepted request adds one request to the excess of its node, and the time since the
last accepted one takes away what the rate allows. So the requests that are accepted
within a time add up to no more than the burst and the rate for that time, as long as an
excess of one request above the burst is still a positive word.
-/

namespace ServerCore.NginxHttpLimitReqRate

open NginxHttpLimitReq List

structure Arrival where
  time : Nat
  key : Key
  account : Bool
  allocs : Bool × Bool

/-- A lookup with the zone before it, the code that it returns and the zone after it. -/
structure Step where
  arrival : Arrival
  before : Context
  rc : Rc
  after : Context

def serve (w : Nat) (limit : Limit) : Context → List Arrival → List Step
  | _, [] => []
  | ctx, arrival :: rest =>
    let (rc, _, after) :=
      ngxHttpLimitReqLookup w (arrival.time % 2 ^ w) limit ctx arrival.key arrival.account
      arrival.allocs
    ⟨arrival, ctx, rc, after⟩ :: serve w limit after rest

def nodeOf (ctx : Context) (key : Key) : Option Node := ctx.queue.find? fun lr => lr.key = key

def Stays (key : Key) (steps : List Step) : Prop :=
  ∀ step ∈ steps, (nodeOf step.before key).isSome → (nodeOf step.after key).isSome

/-- A lookup of the key at a time of the interval that is accepted. -/
def accepted (key : Key) (start finish : Nat) (step : Step) : Bool :=
  step.arrival.key = key ∧ step.rc = .ok ∧ start ≤ step.arrival.time ∧ step.arrival.time ≤ finish

def Limits (w rate burst : Nat) : Prop :=
  ∀ (limit : Limit) (ctx : Context) (key : Key) (arrivals : List Arrival),
    limit.burst = burst → ctx.rate = rate →
    arrivals.Pairwise (fun first second => first.time ≤ second.time) →
    (∀ arrival ∈ arrivals, arrival.key = key → arrival.account = true) →
    Stays key (serve w limit ctx arrivals) →
    (∀ start duration, (serve w limit ctx arrivals).countP (accepted key start (start + duration)) ≤
      1 + (burst + rate * duration / 1000) / 1000) ∧
    ∀ step ∈ serve w limit ctx arrivals, step.arrival.key = key → step.rc = .busy →
      ∃ lr, nodeOf step.before key = some lr ∧ nodeOf step.after key = some lr

section Queue

variable {w now : Nat} {limit : Limit} {ctx : Context} {key other : Key}
    {account : Bool} {allocs : Bool × Bool}

/-- How often the first node of a key is taken; a node that does not exist is not. -/
def countIn (queue : List Node) (key : Key) : Nat :=
  ((queue.find? fun lr => lr.key = key).map Node.count).getD 0

/-- Nodes that nobody has taken are gone from the end of a queue. -/
structure Shortened (queue front : List Node) : Prop where
  start : front <+: queue
  counts : ∀ key, countIn front key = countIn queue key

theorem shortened_dropLast {queue : List Node} {lr : Node} (last : queue.getLast? = some lr)
    (idle : lr.count = 0) : Shortened queue queue.dropLast := by
  obtain ⟨front, rfl⟩ := getLast?_eq_some_iff.mp last
  rw [dropLast_concat]
  refine ⟨prefix_append .., ?_⟩
  intro key
  unfold countIn
  rw [find?_append]
  cases front.find? fun lr => lr.key = key with
  | some found => rfl
  | none =>
    rw [Option.none_or, find?_singleton]
    split_ifs <;> simp [idle]

theorem expire_loop_shortens (rate turns : Nat) (queue : List Node) :
    Shortened queue (expireLoop w rate now turns queue) := by
  have unchanged : Shortened queue queue := ⟨prefix_rfl, fun _ => rfl⟩
  induction turns generalizing queue with
  | zero => exact unchanged
  | succ turns ih =>
    rw [expireLoop]
    cases last : queue.getLast? with
    | none => exact unchanged
    | some lr =>
      dsimp only
      split_ifs with taken
      · exact unchanged
      · exact unchanged
      · have once := shortened_dropLast last (not_not.mp taken)
        have later := ih queue.dropLast ⟨prefix_rfl, fun _ => rfl⟩
        exact ⟨later.start.trans once.start, fun key => (later.counts key).trans (once.counts key)⟩

theorem find_of_prefix {front queue : List Node} (pre : front <+: queue) (test : Node → Bool)
    (found : (front.find? test).isSome) : front.find? test = queue.find? test := by
  obtain ⟨back, rfl⟩ := pre
  rw [find?_append]
  obtain ⟨lr, isLr⟩ := Option.isSome_iff_exists.mp found
  rw [isLr]
  rfl

theorem find_eraseP_other (differ : other ≠ key) (queue : List Node) :
    (queue.eraseP fun lr => lr.key = key).find? (fun lr => lr.key = other) = queue.find? fun lr =>
    lr.key = other := by
  induction queue with
  | nil => rfl
  | cons lr rest ih =>
    by_cases here : lr.key = key
    · have notOther : ¬lr.key = other := fun same => differ (same ▸ here)
      rw [eraseP_cons_of_pos (by simpa using here), find?_cons_of_neg (by simpa using notOther)]
    · rw [eraseP_cons_of_neg (by simpa using here)]
      by_cases isOther : lr.key = other
      · rw [find?_cons_of_pos (by simpa using isOther), find?_cons_of_pos (by simpa using isOther)]
      · rw [find?_cons_of_neg (by simpa using isOther),
          find?_cons_of_neg (by simpa using isOther), ih]

variable {lr : Node} {rest : List Node}

theorem find_key (found : nodeOf ctx key = some lr) : lr.key = key := by
  simpa using find?_some found

theorem lookup_found (found : nodeOf ctx key = some lr) :
    ngxHttpLimitReqLookup w now limit ctx key account allocs =
      if nextExcess w ctx.rate now lr > limit.burst then
        (.busy, nextExcess w ctx.rate now lr,
          { ctx with queue := lr :: ctx.queue.eraseP fun lr => lr.key = key })
      else if account then
        (.ok, nextExcess w ctx.rate now lr,
          { ctx with queue := { lr with excess := nextExcess w ctx.rate now lr, last := now } ::
            ctx.queue.eraseP fun lr => lr.key = key })
      else
        (.again, nextExcess w ctx.rate now lr,
          { ctx with queue := { lr with count := lr.count + 1 } :: ctx.queue.eraseP fun lr =>
            lr.key = key, node := some key }) := by
  unfold nodeOf at found
  rw [ngxHttpLimitReqLookup, found]

theorem lookup_absent (absent : nodeOf ctx key = none) :
    ngxHttpLimitReqLookup w now limit ctx key account allocs =
    createNode w now ctx key account allocs := by
  unfold nodeOf at absent
  rw [ngxHttpLimitReqLookup, absent]

theorem create_node_cases (w now : Nat) (ctx : Context) (key : Key) (account : Bool)
    (allocs : Bool × Bool) :
    ∃ front, Shortened ctx.queue front ∧
      (createNode w now ctx key account allocs = (.error, 0, { ctx with queue := front }) ∨
        (account = true ∧ createNode w now ctx key account allocs =
          (.ok, 0, { ctx with queue := ⟨key.1, key.2, now, 0, 0⟩ :: front })) ∨
        (account = false ∧ createNode w now ctx key account allocs =
          (.again, 0, { ctx with queue := ⟨key.1, key.2, 0, 0, 1⟩ :: front, node := some key }))) := by
  have first := @expire_loop_shortens w now ctx.rate 2 ctx.queue
  have next := @expire_loop_shortens w now ctx.rate 3 (expireLoop w ctx.rate now 2 ctx.queue)
  have second : Shortened ctx.queue _ :=
    ⟨next.start.trans first.start, fun key => (next.counts key).trans (first.counts key)⟩
  obtain ⟨one, two⟩ := allocs
  cases one with
  | true =>
    refine ⟨_, first, ?_⟩
    cases account with
    | true => exact .inr (.inl ⟨rfl, rfl⟩)
    | false => exact .inr (.inr ⟨rfl, rfl⟩)
  | false =>
    refine ⟨_, second, ?_⟩
    cases two with
    | false => exact .inl rfl
    | true =>
      cases account with
      | true => exact .inr (.inl ⟨rfl, rfl⟩)
      | false => exact .inr (.inr ⟨rfl, rfl⟩)

theorem node_of_front (here : lr.key = key) (rate : Nat) (node : Option Key) :
    nodeOf ⟨rate, lr :: rest, node⟩ key = some lr := find?_cons_of_pos (by simpa using here)

theorem node_of_behind (differ : lr.key ≠ key) (rate : Nat) (node : Option Key) :
    nodeOf ⟨rate, lr :: rest, node⟩ key = rest.find? fun lr => lr.key = key :=
  find?_cons_of_neg (by simpa using differ)

theorem lookup_rate : (ngxHttpLimitReqLookup w now limit ctx key account allocs).2.2.rate =
    ctx.rate := by
  cases found : nodeOf ctx key with
  | none =>
    obtain ⟨front, -, ended | ⟨-, ended⟩ | ⟨-, ended⟩⟩ :=
      create_node_cases w now ctx key account allocs
    all_goals rw [lookup_absent found, ended]
  | some lr =>
    rw [lookup_found found]
    split_ifs <;> rfl

theorem lookup_other (differ : other ≠ key)
    (stays : (nodeOf (ngxHttpLimitReqLookup w now limit ctx key account allocs).2.2 other).isSome) :
    nodeOf (ngxHttpLimitReqLookup w now limit ctx key account allocs).2.2 other =
    nodeOf ctx other := by
  cases found : nodeOf ctx key with
  | none =>
    rw [lookup_absent found] at stays ⊢
    obtain ⟨front, ⟨pre, -⟩, ended | ⟨-, ended⟩ | ⟨-, ended⟩⟩ :=
      create_node_cases w now ctx key account allocs
    · rw [ended] at stays ⊢
      exact find_of_prefix pre _ stays
    · rw [ended] at stays ⊢
      rw [node_of_behind (Ne.symm differ)] at stays ⊢
      exact find_of_prefix pre _ stays
    · rw [ended] at stays ⊢
      rw [node_of_behind (Ne.symm differ)] at stays ⊢
      exact find_of_prefix pre _ stays
  | some lr =>
    have own := find_key found
    have notOther : lr.key ≠ other := fun same => differ (same.symm.trans own)
    rw [lookup_found found]
    have behind : ∀ (lr' : Node) (node : Option Key), lr'.key ≠ other →
        nodeOf ⟨ctx.rate, lr' :: ctx.queue.eraseP fun lr => lr.key = key, node⟩ other =
        nodeOf ctx other := by
      intro lr' node differs
      exact (node_of_behind differs _ _).trans (find_eraseP_other differ _)
    split_ifs
    · exact behind _ _ notOther
    · exact behind _ _ notOther
    · exact behind _ _ notOther

theorem lookup_present (found : nodeOf ctx key = some lr) :
    ((ngxHttpLimitReqLookup w now limit ctx key true allocs).1 = .busy ∧
      nodeOf (ngxHttpLimitReqLookup w now limit ctx key true allocs).2.2 key = some lr) ∨
    ((ngxHttpLimitReqLookup w now limit ctx key true allocs).1 = .ok ∧
      nextExcess w ctx.rate now lr ≤ limit.burst ∧
      nodeOf (ngxHttpLimitReqLookup w now limit ctx key true allocs).2.2 key =
        some { lr with excess := nextExcess w ctx.rate now lr, last := now }) := by
  have own := find_key found
  rw [lookup_found found]
  by_cases beyond : nextExcess w ctx.rate now lr > limit.burst
  · rw [if_pos beyond]
    exact .inl ⟨rfl, node_of_front own _ _⟩
  · rw [if_neg beyond, if_pos rfl]
    refine .inr ⟨rfl, Nat.le_of_not_gt beyond, ?_⟩
    apply node_of_front
    exact own

theorem lookup_first (absent : nodeOf ctx key = none) :
    ((ngxHttpLimitReqLookup w now limit ctx key true allocs).1 = .error ∧
      nodeOf (ngxHttpLimitReqLookup w now limit ctx key true allocs).2.2 key = none) ∨
    ((ngxHttpLimitReqLookup w now limit ctx key true allocs).1 = .ok ∧
      nodeOf (ngxHttpLimitReqLookup w now limit ctx key true allocs).2.2 key =
      some ⟨key.1, key.2, now, 0, 0⟩) := by
  rw [lookup_absent absent]
  obtain ⟨front, ⟨pre, -⟩, ended | ⟨-, ended⟩ | ⟨isFalse, -⟩⟩ :=
    create_node_cases w now ctx key true allocs
  · rw [ended]
    refine .inl ⟨rfl, ?_⟩
    by_contra some
    have kept := find_of_prefix pre (fun lr => lr.key = key) (Option.isSome_iff_ne_none.mpr some)
    exact some (kept.trans absent)
  · rw [ended]
    exact .inr ⟨rfl, node_of_front rfl _ _⟩
  · cases isFalse

end Queue

section Excess

variable {w rate now before : Nat} {lr : Node}

theorem nat_abs_bmod_le (elapsed : Nat) (modulus : Nat) (positive : 0 < modulus) :
    ((elapsed : Int).bmod modulus).natAbs ≤ elapsed := by
  have less := Nat.mod_le elapsed modulus
  rw [Int.bmod_eq_emod, ← Int.natCast_emod]
  split_ifs <;> omega

theorem leak_le (last : lr.last = before % 2 ^ w) (later : before ≤ now) :
    leak w rate (now % 2 ^ w) lr ≤ rate * (now - before) / 1000 := by
  have elapsed : ngxInt w (((now % 2 ^ w : Nat) : Int) - lr.last) =
      ((now - before : Nat) : Int).bmod (2 ^ w) := by
    rw [ngxInt, last, Int.natCast_emod, Int.natCast_emod, Int.emod_sub_bmod,
      Int.sub_emod_bmod, Int.ofNat_sub later]
  have less := nat_abs_bmod_le (now - before) (2 ^ w) (Nat.two_pow_pos w)
  unfold leak
  rw [elapsed]
  apply Nat.div_le_div_right
  exact (Nat.mod_le _ _).trans (Nat.mul_le_mul_left rate less)

theorem next_excess_ge (fits : lr.excess + 1000 < 2 ^ (w - 1)) (wide : 0 < w) :
    lr.excess + 1000 ≤ nextExcess w rate now lr + leak w rate now lr := by
  have half : 2 ^ w = 2 * 2 ^ (w - 1) := by
    obtain ⟨rest, rfl⟩ := Nat.exists_eq_add_of_le wide
    rw [Nat.add_sub_cancel_left, Nat.pow_add]
  have bound : leak w rate now lr < 2 ^ (w - 1) := by
    unfold leak
    dsimp only
    omega
  have exact_ : ngxInt w ((lr.excess : Int) - leak w rate now lr + 1000) =
      (lr.excess : Int) - leak w rate now lr + 1000 := by
    apply Int.bmod_eq_of_le
    · rw [half]
      omega
    · rw [half]
      omega
  unfold nextExcess
  dsimp only
  split_ifs with negative
  · omega
  · omega

end Excess

section Runs

variable {w : Nat} {limit : Limit} {ctx : Context} {key : Key} {arrivals : List Arrival} {step : Step}

theorem serve_cons (arrival : Arrival) (rest : List Arrival) : serve w limit ctx (arrival :: rest) =
      ⟨arrival, ctx,
        (ngxHttpLimitReqLookup w
          (arrival.time % 2 ^ w) limit ctx arrival.key arrival.account arrival.allocs).1,
        (ngxHttpLimitReqLookup w
          (arrival.time % 2 ^ w) limit ctx arrival.key arrival.account arrival.allocs).2.2⟩ ::
      serve w limit
        (ngxHttpLimitReqLookup w (arrival.time % 2 ^ w) limit ctx arrival.key arrival.account
          arrival.allocs).2.2 rest :=
  rfl

theorem arrival_of_step (mem : step ∈ serve w limit ctx arrivals) : step.arrival ∈ arrivals := by
  induction arrivals generalizing ctx with
  | nil => cases mem
  | cons arrival rest ih =>
    rcases mem_cons.mp mem with rfl | later
    · exact mem_cons_self ..
    · exact mem_cons_of_mem _ (ih later)

theorem none_accepted {start finish : Nat} (late : ∀ arrival ∈ arrivals, finish < arrival.time) :
    (serve w limit ctx arrivals).countP (accepted key start finish) = 0 := by
  apply countP_eq_zero.mpr
  intro step mem isAccepted
  have after := late _ (arrival_of_step mem)
  simp only [accepted, decide_eq_true_eq] at isAccepted
  omega

structure Charged (w : Nat) (ctx : Context) (key : Key) (excess time : Nat) : Prop where
  node : ∃ lr, nodeOf ctx key = some lr ∧ lr.excess = excess ∧ lr.last = time % 2 ^ w

theorem stays_cons {steps : List Step} (stays : Stays key (step :: steps)) :
    ((nodeOf step.before key).isSome → (nodeOf step.after key).isSome) ∧ Stays key steps :=
  ⟨stays step (mem_cons_self ..), fun other mem => stays other (mem_cons_of_mem _ mem)⟩

variable {arrival : Arrival}

theorem charged_step {excess time : Nat} (wide : 0 < w) (fits : limit.burst + 1000 < 2 ^ (w - 1))
    (charged : Charged w ctx key excess time) (below : excess ≤ limit.burst)
    (later : time ≤ arrival.time) (counted : arrival.key = key → arrival.account = true)
    (stays : (nodeOf ctx key).isSome → (nodeOf
      (ngxHttpLimitReqLookup w (arrival.time % 2 ^ w) limit ctx arrival.key arrival.account
        arrival.allocs).2.2 key).isSome) :
    let result := ngxHttpLimitReqLookup w
      (arrival.time % 2 ^ w) limit ctx arrival.key arrival.account arrival.allocs
    (¬(arrival.key = key ∧ result.1 = .ok) ∧ Charged w result.2.2 key excess time) ∨
    (∃ more ≤ limit.burst, excess + 1000 ≤ more + ctx.rate * (arrival.time - time) / 1000 ∧
      Charged w result.2.2 key more arrival.time) := by
  obtain ⟨lr, found, rfl, last⟩ := charged
  obtain ⟨time', key', account, allocs⟩ := arrival
  dsimp only at later counted stays ⊢
  by_cases own : key' = key
  · subst own
    rw [counted rfl]
    rcases @lookup_present w (time' % 2 ^ w) limit ctx key' allocs lr found with
      ⟨busy, kept⟩ | ⟨-, within, charged⟩
    · refine .inl ⟨?_, lr, kept, rfl, last⟩
      rintro ⟨-, isOk⟩
      rw [busy] at isOk
      cases isOk
    · have grown := @next_excess_ge w ctx.rate (time' % 2 ^ w) lr (by omega) wide
      have leaked := @leak_le w ctx.rate time' time lr last later
      exact .inr ⟨_, within, by omega, _, charged, rfl, rfl⟩
  · have same := lookup_other (Ne.symm own) (stays (by rw [found]; rfl))
    exact .inl ⟨fun both => own both.1, lr, same.trans found, rfl, last⟩

theorem accepted_after {excess time start finish : Nat} (wide : 0 < w)
    (fits : limit.burst + 1000 < 2 ^ (w - 1))
    (charged : Charged w ctx key excess time) (below : excess ≤ limit.burst) (running : time ≤ finish)
    (sorted : arrivals.Pairwise fun first second => first.time ≤ second.time)
    (later : ∀ arrival ∈ arrivals, time ≤ arrival.time)
    (counted : ∀ arrival ∈ arrivals, arrival.key = key → arrival.account = true)
    (stays : Stays key (serve w limit ctx arrivals)) :
    1000 * (serve w limit ctx arrivals).countP (accepted key start finish) + excess ≤
      limit.burst + ctx.rate * (finish - time) / 1000 := by
  induction arrivals generalizing ctx excess time with
  | nil => exact (show 1000 * 0 + excess ≤ _ by omega)
  | cons arrival rest ih =>
    obtain ⟨first, restSorted⟩ := pairwise_cons.mp sorted
    have here := later arrival (mem_cons_self ..)
    have restCounted : ∀ other ∈ rest, other.key = key → other.account = true :=
      fun other mem => counted other (mem_cons_of_mem _ mem)
    by_cases beyond : finish < arrival.time
    · rw [none_accepted]
      · omega
      · rintro other mem
        rcases mem_cons.mp mem with rfl | behind
        · exact beyond
        · exact beyond.trans_le (first other behind)
    rw [serve_cons] at stays ⊢
    obtain ⟨hereStays, restStays⟩ := stays_cons stays
    have rate : (ngxHttpLimitReqLookup w (arrival.time % 2 ^ w) limit ctx arrival.key arrival.account
        arrival.allocs).2.2.rate = ctx.rate := lookup_rate
    rcases charged_step wide fits charged below here
      (counted arrival (mem_cons_self ..)) hereStays with
      ⟨refused, same⟩ | ⟨more, within, grown, charged'⟩
    · have rest' := ih same below running restSorted
        (fun other mem => later other (mem_cons_of_mem _ mem))
        restCounted restStays
      rw [rate] at rest'
      rw [countP_cons_of_neg]
      · exact rest'
      · simp only [accepted, decide_eq_true_eq]
        exact fun isAccepted => refused ⟨isAccepted.1, isAccepted.2.1⟩
    · have rest' := ih charged' within (by omega) restSorted first restCounted restStays
      rw [rate] at rest'
      have total : ctx.rate * (finish - arrival.time) / 1000 + ctx.rate *
          (arrival.time - time) / 1000 ≤
          ctx.rate * (finish - time) / 1000 := by
        have whole : ctx.rate * (finish - time) =
            ctx.rate * (finish - arrival.time) + ctx.rate * (arrival.time - time) := by
          rw [← mul_add]
          congr 1
          omega
        omega
      rw [countP_cons]
      split_ifs <;> omega

theorem charged_of_accepted (counted : arrival.account = true)
    (isOk : (ngxHttpLimitReqLookup w (arrival.time % 2 ^ w) limit ctx arrival.key arrival.account
      arrival.allocs).1 = .ok) :
    ∃ excess ≤ limit.burst, Charged w
      (ngxHttpLimitReqLookup w
        (arrival.time % 2 ^ w) limit ctx arrival.key arrival.account arrival.allocs).2.2
      arrival.key excess arrival.time := by
  rw [counted] at isOk ⊢
  cases found : nodeOf ctx arrival.key with
  | none =>
    rcases @lookup_first w (arrival.time % 2 ^ w) limit ctx arrival.key arrival.allocs found with
      ⟨isError, -⟩ | ⟨-, created⟩
    · rw [isError] at isOk
      cases isOk
    · exact ⟨0, Nat.zero_le _, _, created, rfl, rfl⟩
  | some lr =>
    rcases @lookup_present w (arrival.time % 2 ^ w) limit ctx arrival.key arrival.allocs lr found with
      ⟨busy, -⟩ | ⟨-, within, charged⟩
    · rw [busy] at isOk
      cases isOk
    · exact ⟨_, within, _, charged, rfl, rfl⟩

theorem accepted_bound (wide : 0 < w) (fits : limit.burst + 1000 < 2 ^ (w - 1)) (start duration : Nat)
    (sorted : arrivals.Pairwise fun first second => first.time ≤ second.time)
    (counted : ∀ arrival ∈ arrivals, arrival.key = key → arrival.account = true)
    (stays : Stays key (serve w limit ctx arrivals)) :
    (serve w limit ctx arrivals).countP (accepted key start (start + duration)) ≤
      1 + (limit.burst + ctx.rate * duration / 1000) / 1000 := by
  induction arrivals generalizing ctx with
  | nil => exact Nat.zero_le _
  | cons arrival rest ih =>
    obtain ⟨first, restSorted⟩ := pairwise_cons.mp sorted
    have restCounted : ∀ other ∈ rest, other.key = key → other.account = true :=
      fun other mem => counted other (mem_cons_of_mem _ mem)
    rw [serve_cons] at stays ⊢
    obtain ⟨-, restStays⟩ := stays_cons stays
    have rate : (ngxHttpLimitReqLookup w (arrival.time % 2 ^ w) limit ctx arrival.key arrival.account
        arrival.allocs).2.2.rate = ctx.rate := lookup_rate
    rw [countP_cons]
    split_ifs with isAccepted
    · simp only [accepted, decide_eq_true_eq] at isAccepted
      obtain ⟨rfl, isOk, early, late⟩ := isAccepted
      obtain ⟨excess, within, charged⟩ :=
        charged_of_accepted (counted arrival (mem_cons_self ..) rfl) isOk
      have more := @accepted_after w limit _ arrival.key rest excess arrival.time start
        (start + duration) wide fits
        charged within late restSorted first restCounted restStays
      have slower : ctx.rate * (start + duration - arrival.time) / 1000 ≤
          ctx.rate * duration / 1000 :=
        Nat.div_le_div_right (Nat.mul_le_mul_left _ (by omega))
      rw [rate] at more
      omega
    · have rest' := ih restSorted restCounted restStays
      rw [rate] at rest'
      exact rest'

theorem busy_unchanged (counted : ∀ arrival ∈ arrivals, arrival.key = key → arrival.account = true)
    (mem : step ∈ serve w limit ctx arrivals) (own : step.arrival.key = key)
    (busy : step.rc = .busy) :
    ∃ lr, nodeOf step.before key = some lr ∧ nodeOf step.after key = some lr := by
  induction arrivals generalizing ctx with
  | nil => cases mem
  | cons arrival rest ih =>
    rw [serve_cons] at mem
    rcases mem_cons.mp mem with rfl | later
    · subst own
      rw [counted arrival (mem_cons_self ..) rfl] at busy ⊢
      cases found : nodeOf ctx arrival.key with
      | none =>
        rcases @lookup_first w (arrival.time % 2 ^ w) limit ctx arrival.key arrival.allocs found with
          ⟨isError, -⟩ | ⟨isOk, -⟩
        · rw [isError] at busy
          cases busy
        · rw [isOk] at busy
          cases busy
      | some lr =>
        rcases @lookup_present w
          (arrival.time % 2 ^ w) limit ctx arrival.key arrival.allocs lr found with
          ⟨-, kept⟩ | ⟨isOk, -⟩
        · exact ⟨lr, rfl, kept⟩
        · rw [isOk] at busy
          cases busy
    · exact ih (fun other inside => counted other (mem_cons_of_mem _ inside)) later

theorem limits_of_fits {rate burst : Nat} (wide : 0 < w) (fits : burst + 1000 < 2 ^ (w - 1)) :
    Limits w rate burst := by
  rintro limit ctx key arrivals rfl rfl sorted counted stays
  refine ⟨fun start duration => accepted_bound wide fits start duration sorted counted stays, ?_⟩
  intro step mem own busy
  exact busy_unchanged counted mem own busy

end Runs

section Overflow

variable {w rate b : Nat}

def flood : Arrival := ⟨0, (0, [97]), true, true, true⟩

def floodLimit (b : Nat) : Limit := ⟨0, 1000 * b, true⟩

def flooded (rate excess : Nat) : Context := ⟨rate, [⟨0, [97], 0, excess, 0⟩], none⟩

theorem flooded_lookup {excess : Nat}
    (within : nextExcess w rate 0 ⟨0, [97], 0, excess, 0⟩ ≤ 1000 * b) :
    ngxHttpLimitReqLookup w (flood.time % 2 ^ w) (floodLimit b)
      (flooded rate excess) flood.key flood.account flood.allocs =
      (.ok, nextExcess w rate 0 ⟨0, [97], 0, excess, 0⟩,
        flooded rate (nextExcess w rate 0 ⟨0, [97], 0, excess, 0⟩)) := by
  exact (if_neg (not_lt.mpr within)).trans rfl

theorem flooded_excess {j : Nat} (word : w = 32 ∨ w = 64) (enough : j ≤ b)
    (fits : 1000 * b < 2 ^ (w - 1))
    (beyond : 2 ^ (w - 1) ≤ 1000 * (b + 1)) :
    nextExcess w rate 0 ⟨0, [97], 0, 1000 * j, 0⟩ = if j < b then 1000 * (j + 1) else 0 := by
  have still : leak w rate 0 ⟨0, [97], 0, 1000 * j, 0⟩ = 0 := by
    have elapsed : ngxInt w (((0 : Nat) : Int) - (0 : Nat)) = 0 := Int.zero_bmod
    unfold leak
    dsimp only
    rw [elapsed, Int.natAbs_zero, mul_zero, Nat.zero_mod]
  unfold nextExcess
  rw [still]
  rcases word with rfl | rfl
  · by_cases inside : j < b
    · have small : ngxInt 32 (((1000 * j : Nat) : Int) - ((0 : Nat) : Int) + 1000) =
          ((1000 * (j + 1) : Nat) : Int) := by
        rw [ngxInt, Int.bmod_eq_of_le] <;> omega
      rw [if_pos inside, small, if_neg (by omega)]
      exact Int.toNat_natCast _
    · have large : ngxInt 32 (((1000 * j : Nat) : Int) - ((0 : Nat) : Int) + 1000) < 0 := by
        rw [ngxInt, Int.bmod_eq_emod]
        split_ifs <;> omega
      rw [if_neg inside, if_pos large]
  · by_cases inside : j < b
    · have small : ngxInt 64 (((1000 * j : Nat) : Int) - ((0 : Nat) : Int) + 1000) =
          ((1000 * (j + 1) : Nat) : Int) := by
        rw [ngxInt, Int.bmod_eq_of_le] <;> omega
      rw [if_pos inside, small, if_neg (by omega)]
      exact Int.toNat_natCast _
    · have large : ngxInt 64 (((1000 * j : Nat) : Int) - ((0 : Nat) : Int) + 1000) < 0 := by
        rw [ngxInt, Int.bmod_eq_emod]
        split_ifs <;> omega
      rw [if_neg inside, if_pos large]

theorem flood_accepted (count : Nat) {j : Nat} (word : w = 32 ∨ w = 64)
    (fits : 1000 * b < 2 ^ (w - 1))
    (beyond : 2 ^ (w - 1) ≤ 1000 * (b + 1)) (enough : j + count ≤ b + 1) :
    (∀ step ∈ serve w (floodLimit b) (flooded rate (1000 * j)) (List.replicate count flood),
      accepted flood.key 0 0 step = true ∧ (nodeOf step.after flood.key).isSome) ∧
    (serve w (floodLimit b) (flooded rate (1000 * j)) (List.replicate count flood)).length =
    count := by
  induction count generalizing j with
  | zero => exact ⟨nofun, rfl⟩
  | succ count ih =>
    have next := @flooded_excess w rate b j word (by omega) fits beyond
    have within : nextExcess w rate 0 ⟨0, [97], 0, 1000 * j, 0⟩ ≤ 1000 * b := by
      rw [next]
      split_ifs <;> omega
    have found := flooded_lookup within
    rw [replicate_succ, serve_cons, found]
    have rest : (∀ step ∈ serve w (floodLimit b)
        (flooded rate (nextExcess w rate 0 ⟨0, [97], 0, 1000 * j, 0⟩))
          (List.replicate count flood), accepted flood.key 0 0 step = true ∧
          (nodeOf step.after flood.key).isSome) ∧
        (serve w (floodLimit b) (flooded rate (nextExcess w rate 0 ⟨0, [97], 0, 1000 * j, 0⟩))
          (List.replicate count flood)).length = count := by
      rw [next]
      by_cases inside : j < b
      · rw [if_pos inside]
        exact ih (by omega)
      · rw [if_neg inside, show count = 0 by omega]
        exact ⟨nofun, rfl⟩
    refine ⟨?_, by rw [length_cons, rest.2]⟩
    intro step mem
    rcases mem_cons.mp mem with rfl | later
    · exact ⟨rfl, rfl⟩
    · exact rest.1 step later

theorem limits_fails (word : w = 32 ∨ w = 64) (fits : 1000 * b < 2 ^ (w - 1))
    (beyond : 2 ^ (w - 1) ≤ 1000 * (b + 1)) :
    ¬Limits w rate (1000 * b) := by
  intro limits
  have flooding := @flood_accepted w rate b (b + 1) 0 word fits beyond (by omega)
  have first : serve w (floodLimit b) ⟨rate, [], none⟩ (List.replicate (b + 2) flood) =
      ⟨flood, ⟨rate, [], none⟩, .ok, flooded rate 0⟩ ::
        serve w (floodLimit b) (flooded rate 0) (List.replicate (b + 1) flood) := by
    rfl
  have all : ∀ step ∈ serve w (floodLimit b) ⟨rate, [], none⟩ (List.replicate (b + 2) flood),
      accepted flood.key 0 0 step = true ∧ (nodeOf step.after flood.key).isSome := by
    intro step mem
    rcases mem_cons.mp mem with rfl | later
    · exact ⟨rfl, rfl⟩
    · exact flooding.1 step later
  have sorted : (List.replicate (b + 2) flood).Pairwise fun first second =>
      first.time ≤ second.time :=
    pairwise_replicate.mpr (.inr le_rfl)
  have counted : ∀ arrival ∈ List.replicate (b + 2) flood, arrival.key = flood.key →
      arrival.account = true := by
    intro arrival mem _
    rw [eq_of_mem_replicate mem]
    rfl
  have bound := (limits (floodLimit b) ⟨rate, [], none⟩ flood.key _ rfl rfl sorted counted
    (fun step mem _ => (all step mem).2)).1 0 0
  have every : (serve w (floodLimit b) ⟨rate, [], none⟩ (List.replicate (b + 2) flood)).countP
      (accepted flood.key 0 (0 + 0)) =
      b + 2 := by
    rw [countP_eq_length.mpr fun step mem => (all step mem).1, first, length_cons, flooding.2]
  omega

end Overflow

/-- The limit that is configured with `burst=b` keeps its promise exactly where one
request above the burst is a positive word. -/
theorem limits_iff (w rate b : Nat) (word : w = 32 ∨ w = 64) (defined : 1000 * b < 2 ^ (w - 1)) :
    Limits w rate (1000 * b) ↔ 1000 * (b + 1) < 2 ^ (w - 1) := by
  constructor
  · intro limits
    by_contra beyond
    exact limits_fails word defined (by omega) limits
  · intro fits
    exact limits_of_fits (by omega) (by omega)

theorem limits_ten_per_second : Limits 64 10000 20000 :=
  (limits_iff 64 10000 20 (.inr rfl) (by decide)).mpr (by decide)

/-- `rate=1r/s burst=2147483` on a machine of 32 bits. -/
theorem great_burst_unlimited : ¬Limits 32 1000 (1000 * 2147483) :=
    limits_fails (.inl rfl) (by decide) (by decide)

end ServerCore.NginxHttpLimitReqRate
