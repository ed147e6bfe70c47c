import ServerCore.NginxResolverAnswers

/-!
# The two passes over the answers

The first pass stops at a record that is not in the response, and otherwise
counts the records with addresses and keeps the least time to live. The second
pass visits the same positions without a check, and stops when it has stored as
many addresses.
-/

namespace ServerCore.NginxResolverAnswersPasses

open CheckedReads NginxResolverAnswers List
open CompressedNames (Byte Bytes isPointer)

variable {first : Byte} {i stop : Nat} {records : List Record}

/-- The name at the first position ends in front of the second one. -/
inductive NameEnd (input : Bytes) : Nat → Nat → Prop
  | pointer {i : Nat} {first : Byte} (here : input[i]? = some first) (jumps : isPointer first = true) :
      NameEnd input i (i + 2)
  | zero {i : Nat} (here : input[i]? = some 0) : NameEnd input i (i + 1)
  | label {i stop : Nat} {first : Byte} (here : input[i]? = some first) (isLabel : isPointer first = false)
      (more : first ≠ 0) (rest : NameEnd input (i + (1 + first.toNat)) stop) : NameEnd input i stop

structure Record where
  type : Nat
  class_ : Nat
  ttl : Int
  len : Nat
  data : Bytes

def word (input : Bytes) (i : Nat) : Nat := ((input.getD i 0).toNat <<< 8) + (input.getD (i + 1) 0).toNat

/-- The record behind the name that ends at `i`. -/
def recordAt (input : Bytes) (i : Nat) : Record where
  type := word input i
  class_ := word input (i + 2)
  ttl := (((word input (i + 4) <<< 16) + word input (i + 6) : Nat) : Int).bmod (2 ^ 32)
  len := word input (i + 8)
  data := (input.drop (i + 10)).take (word input (i + 8))

/-- The records from the first position to the second one, in order. -/
inductive Records (input : Bytes) : Nat → List Record → Nat → Prop
  | nil (i : Nat) : Records input i [] i
  | cons {i j stop : Nat} {records : List Record} (name : NameEnd input i j) (inside : j + 10 < input.length)
      (rest : Records input (j + 10 + (recordAt input j).len) records stop) :
      Records input i (recordAt input j :: records) stop

def own (family : Family) (records : List Record) : List Record :=
  records.filter fun record => record.type = family.type

def leastTtl (ttl : Nat) (records : List Record) : Nat :=
  records.foldl (fun ttl record => min ttl record.ttl.toNat) ttl

structure Suits (family : Family) (record : Record) : Prop where
  internet : record.class_ = 1
  noOther : record.type ≠ family.other.type
  whole : record.type = family.type → record.len = family.size ∧ record.data.length = family.size

def addresses (rn : Node) (family : Family) : List Bytes := (rn.stored family).take (rn.count family)

section Reads

variable {Reason : Type} {input : Bytes} {i : Nat}

theorem read_here (inside : i < input.length) : (readAt input i : Run Reason Byte) =
    .ok (input.getD i 0) := by
  rw [readAt, getD_eq_getElem?_getD, getElem?_eq_getElem inside]
  rfl

theorem read_word (inside : i + 1 < input.length) : (readWord input i : Run Reason Nat) =
    .ok (word input i) := by
  rw [readWord, read_here (Nat.lt_of_succ_lt inside), bind_ok, read_here inside, bind_ok]
  rfl

theorem read_ttl (inside : i + 7 < input.length) : readTtl input (i + 4) = .ok (recordAt input i).ttl := by
  have next : i + 4 + 2 = i + 6 := rfl
  rw [readTtl, read_word (by omega), bind_ok, next, read_word inside, bind_ok, recordAt]
  dsimp only
  rfl

theorem word_checked (inside : i + 1 < input.length) :
    Checked (fun _ => True) (readWord input i : Run Reason Nat) := by
  rw [read_word inside]
  exact checked_ok trivial

theorem length_pos (here : input[i]? = some first) : i < input.length :=
  (List.getElem?_eq_some_iff.mp here).1

theorem label_grows (more : first ≠ 0) : 0 < first.toNat :=
  Nat.pos_of_ne_zero fun isZero => more (UInt8.toNat_inj.mp isZero)

end Reads

section Names

variable {input : Bytes}

theorem skip_name (ttl : Nat) (fuel i : Nat) (some : 0 < fuel) (enough : input.length < fuel + i) :
    Checked (fun found => NameEnd input i found.1) (skipName input ttl fuel i) := by
  induction fuel generalizing i with
  | zero => exact absurd some (Nat.lt_irrefl 0)
  | succ fuel ih =>
    unfold skipName
    split_ifs with inside
    · refine checked_bind (checked_read inside) fun first here => ?_
      split_ifs with jumps isZero
      · exact checked_ok (.pointer here jumps)
      · exact checked_ok (.zero (isZero ▸ here))
      · have grows := label_grows isZero
        exact checked_weaken (ih _ (by omega) (by omega)) fun _ rest =>
          .label here (Bool.eq_false_iff.mpr jumps) isZero rest
    · exact checked_refuse _

theorem walk_name (name : NameEnd input i stop) :
    ∀ fuel, input.length < fuel + i → walkName input fuel i = .ok stop := by
  induction name with
  | @pointer i first here jumps =>
    intro fuel enough
    have inside := length_pos here
    obtain ⟨fuel, rfl⟩ := Nat.exists_eq_succ_of_ne_zero (show fuel ≠ 0 by omega)
    rw [walkName, readAt, here]
    exact if_pos jumps
  | @zero i here =>
    intro fuel enough
    have inside := length_pos here
    obtain ⟨fuel, rfl⟩ := Nat.exists_eq_succ_of_ne_zero (show fuel ≠ 0 by omega)
    rw [walkName, readAt, here]
    rfl
  | @label i stop first here isLabel more rest ih =>
    intro fuel enough
    have inside := length_pos here
    obtain ⟨fuel, rfl⟩ := Nat.exists_eq_succ_of_ne_zero (show fuel ≠ 0 by omega)
    rw [walkName, readAt, here]
    dsimp only [bind_ok]
    rw [isLabel, if_neg (by decide), if_neg more]
    exact ih fuel (by omega)

end Names

variable {j : Nat}

section FirstPass

variable {input : Bytes} {family : Family}

/-- What the switch leaves of a record whose name ends at `j`. -/
structure Counted (input : Bytes) (family : Family) (pass : Pass) (j : Nat) (after : Pass) : Prop where
  suits : Suits family (recordAt input j)
  position : after.i = j + 10 + (recordAt input j).len
  naddrs : after.naddrs = pass.naddrs + (own family [recordAt input j]).length
  ttl : after.ttl = pass.ttl

variable {record : Record}

theorem own_yes (isOwn : record.type = family.type) (records : List Record) :
    own family (record :: records) = record :: own family records :=
  filter_cons_of_pos (decide_eq_true isOwn)

theorem own_no (notOwn : record.type ≠ family.type) (records : List Record) :
    own family (record :: records) = own family records :=
  filter_cons_of_neg (by simp [notOwn])

theorem types_differ (family : Family) : family.type ≠ family.other.type := by
  cases family <;> decide

theorem address_counted (own : Family) (isType : (recordAt input j).type = own.type)
    (internet : (recordAt input j).class_ = 1) (unexpected invalid : String) (pass : Pass) :
    Checked (Counted input family pass j) (if family ≠ own then refuse ⟨.text unexpected, pass.ttl⟩
      else if (recordAt input j).len ≠ own.size then refuse ⟨.text invalid, pass.ttl⟩
      else if j + 10 + own.size > input.length then short pass.ttl
      else .ok { pass with i := j + 10 + (recordAt input j).len, naddrs := pass.naddrs + 1 } :
        Step Pass) := by
  split_ifs with differ badLen isShort
  · exact checked_refuse _
  · exact checked_refuse _
  · exact checked_refuse _
  · have same : family = own := not_not.mp differ
    have len : word input (j + 8) = own.size := not_not.mp badLen
    subst same
    refine checked_ok ⟨⟨internet, isType ▸ types_differ family, fun _ => ⟨len, ?_⟩⟩, rfl, ?_, rfl⟩
    · rw [recordAt, length_take, length_drop, len]
      omega
    · rw [own_yes isType]
      rfl

theorem check_record (internet : (recordAt input j).class_ = 1) (pass : Pass) :
    Checked (Counted input family pass j)
      (checkRecord input family (recordAt input j).type (recordAt input j).len (j + 10) pass) := by
  have skipped (noA : (recordAt input j).type ≠ 1)
      (noAaaa : (recordAt input j).type ≠ 28) (cname : Option Nat) :
      Counted input family pass j ⟨j + 10 + (recordAt input j).len, pass.naddrs, cname, pass.ttl⟩ := by
    have notOwn : (recordAt input j).type ≠ family.type := by
      cases family with
      | a => exact noA
      | aaaa => exact noAaaa
    have notOther : (recordAt input j).type ≠ family.other.type := by
      cases family with
      | a => exact noAaaa
      | aaaa => exact noA
    refine ⟨⟨internet, notOther, fun isOwn => absurd isOwn notOwn⟩, rfl, ?_, rfl⟩
    rw [own_no notOwn]
    rfl
  unfold checkRecord
  by_cases isA : (recordAt input j).type = 1
  · rw [if_pos isA]
    exact address_counted .a isA internet _ _ pass
  by_cases isAaaa : (recordAt input j).type = 28
  · rw [if_neg isA, if_pos isAaaa]
    exact address_counted .aaaa isAaaa internet _ _ pass
  rw [if_neg isA, if_neg isAaaa]
  split_ifs with isCname
  · exact checked_ok (skipped isA isAaaa _)
  · exact checked_ok (skipped isA isAaaa _)

theorem negative_ttl (ttl : Int) : (if ttl < 0 then 0 else ttl).toNat = ttl.toNat := by
  split_ifs with negative
  · exact (Int.toNat_eq_zero.mpr (Int.le_of_lt negative)).symm
  · rfl

theorem check_answer (pass : Pass) :
    Checked (fun after => ∃ j ttl, NameEnd input pass.i j ∧ j + 10 < input.length ∧
        ttl = min pass.ttl (recordAt input j).ttl.toNat ∧
        Counted input family { pass with ttl := ttl } j after)
      (checkAnswer input family pass) := by
  refine checked_bind (skip_name _ _ pass.i (Nat.succ_pos _) (by omega)) fun ⟨j, zero⟩ name => ?_
  dsimp only at name ⊢
  split_ifs with isInvalid isShort
  · exact checked_refuse _
  · exact checked_refuse _
  · have inside : j + 10 < input.length := Nat.lt_of_not_le isShort
    rw [read_word (by omega), bind_ok, read_word (by omega), bind_ok, read_ttl (by omega), bind_ok,
      read_word (by omega), bind_ok]
    by_cases internet : word input (j + 2) = 1
    · rw [if_neg (not_not.mpr internet), negative_ttl]
      exact checked_weaken (check_record internet _) fun _ counted => ⟨j, _, name, inside, rfl, counted⟩
    · rw [if_pos internet]
      exact checked_refuse _

theorem check_answers (nan : Nat) (pass : Pass) :
    Checked (fun after => ∃ records stop, Records input pass.i records stop ∧ records.length = nan ∧
        (∀ record ∈ records, Suits family record) ∧
        after.naddrs = pass.naddrs + (own family records).length ∧ after.ttl = leastTtl pass.ttl records)
      (checkAnswers input family nan pass) := by
  induction nan generalizing pass with
  | zero => exact checked_ok ⟨[], pass.i, .nil _, rfl, by simp, rfl, rfl⟩
  | succ nan ih =>
    refine checked_bind (check_answer pass) fun after ⟨j, ttl, name, inside, isTtl, counted⟩ => ?_
    refine checked_weaken (ih after) fun last ⟨records, stop, laid, length, suit, naddrs, least⟩ => ?_
    refine ⟨recordAt input j :: records, stop, .cons name inside (counted.position ▸ laid), ?_, ?_, ?_, ?_⟩
    · rw [length_cons, length]
    · exact forall_mem_cons.mpr ⟨counted.suits, suit⟩
    · rw [naddrs, counted.naddrs, Nat.add_assoc, ← length_append, own, own, ← filter_append]
      rfl
    · rw [least, counted.ttl, isTtl]
      rfl

end FirstPass

section SecondPass

variable {input : Bytes} {family : Family}

theorem read_data (suits : Suits family (recordAt input j)) (isOwn : (recordAt input j).type = family.type)
    (inside : j + 10 < input.length) :
    (readMany input (j + 10) family.size : Step Bytes) = .ok (recordAt input j).data := by
  obtain ⟨len, whole⟩ := suits.whole isOwn
  have len' : word input (j + 8) = family.size := len
  have fits : j + 10 + family.size ≤ input.length := by
    rw [recordAt, length_take, length_drop, len'] at whole
    omega
  rw [readMany, if_pos fits, recordAt, len']

theorem copy_answers {naddrs : Nat} (laid : Records input i records stop)
    (suit : ∀ record ∈ records, Suits family record) (stored : List Bytes)
    (isCount : stored.length + (own family records).length = naddrs) :
    copyAnswers input naddrs records.length i stored =
    .ok (stored ++ (own family records).map (·.data)) := by
  induction laid generalizing stored with
  | nil i => rw [length_nil, copyAnswers, own, filter_nil, map_nil, append_nil]
  | @cons i j stop records name inside rest ih =>
    obtain ⟨suits, others⟩ := forall_mem_cons.mp suit
    let record := recordAt input j
    rw [length_cons, copyAnswers, walk_name name _ (by omega), bind_ok, read_word (by omega), bind_ok,
      read_word (by omega), bind_ok]
    change (if record.type = 1 then _ else if record.type = 28 then _ else
      copyAnswers input naddrs records.length (j + 10 + record.len) stored) = _
    by_cases isOwn : record.type = family.type
    · rw [own_yes isOwn] at isCount ⊢
      -- The pass ends here if no record with an address is behind this one.
      have goes : (if (stored ++ [record.data]).length = naddrs then
            return stored ++ [record.data] else
            copyAnswers input naddrs records.length (j + 10 + record.len) (stored ++ [record.data]) :
              Step (List Bytes)) =
          .ok (stored ++ (record :: own family records).map (·.data)) := by
        rw [length_cons] at isCount
        rw [map_cons, append_cons stored record.data (List.map _ _)]
        split_ifs with full
        · rw [length_append, length_singleton] at full
          have noMore : own family records = [] := length_eq_zero_iff.mp (by omega)
          rw [noMore]
          exact congrArg Except.ok (append_nil _).symm
        · rw [ih others _ (by rw [length_append, length_singleton]; omega)]
      cases family with
      | a =>
        have isA : record.type = 1 := isOwn
        rw [if_pos isA]
        change readMany input (j + 10) Family.a.size >>= _ = _
        rw [read_data suits isOwn inside, bind_ok]
        exact goes
      | aaaa =>
        have isAaaa : record.type = 28 := isOwn
        have notA : record.type ≠ 1 := by rw [isAaaa]; decide
        rw [if_neg notA, if_pos isAaaa]
        change readMany input (j + 10) Family.aaaa.size >>= _ = _
        rw [read_data suits isOwn inside, bind_ok]
        exact goes
    · rw [own_no isOwn] at isCount ⊢
      have noAddress : record.type ≠ 1 ∧ record.type ≠ 28 := by
        cases family with
        | a => exact ⟨isOwn, suits.noOther⟩
        | aaaa => exact ⟨suits.noOther, isOwn⟩
      rw [if_neg noAddress.1, if_neg noAddress.2]
      exact ih others stored isCount

end SecondPass

section Calls

variable {input : Bytes}

theorem question_loop (fuel i : Nat) (some : 0 < fuel) (enough : input.length < fuel + i) :
    Checked (fun _ => True) (questionLoop input fuel i) := by
  induction fuel generalizing i with
  | zero => exact absurd some (Nat.lt_irrefl 0)
  | succ fuel ih =>
    unfold questionLoop
    split_ifs with inside
    · refine checked_bind (checked_read inside) fun length _ => ?_
      split_ifs with isZero
      · exact checked_ok trivial
      · exact ih _ (by omega) (by omega)
    · exact checked_refuse _

/-- The handler is the one of the type. -/
def CallOk (call : Call) : Prop := call.handler = .ngxResolverProcessA →
    (familyOf call.qtype).type = call.qtype

theorem handler_of (qtype : Nat) :
    Checked (fun handler => handler = .ngxResolverProcessA → (familyOf qtype).type =
      qtype) (handlerOf qtype) := by
  unfold handlerOf
  split_ifs with isA isSrv isPtr
  · refine checked_ok fun _ => ?_
    rcases isA with rfl | rfl <;> rfl
  · exact checked_ok fun isA => nomatch isA
  · exact checked_ok fun isA => nomatch isA
  · exact checked_refuse _

theorem read_question (ident code nan : Nat) (trunc : Bool) (i : Nat) :
    Checked CallOk (readQuestion input ident code nan trunc i) := by
  unfold readQuestion
  split_ifs with isEmpty
  · exact checked_refuse _
  dsimp only
  split_ifs with isShort
  · exact checked_refuse _
  refine checked_bind (word_checked (by omega)) fun qtype _ => ?_
  refine checked_bind (word_checked (by omega)) fun qclass _ => ?_
  split_ifs with isOther
  · exact checked_refuse _
  · exact checked_bind (handler_of qtype) fun handler agrees => checked_ok agrees

theorem process_response (tcp : Bool) (input : Bytes) :
    Checked CallOk (ngxResolverProcessResponse tcp input) := by
  unfold ngxResolverProcessResponse
  split_ifs with isShort
  · exact checked_refuse _
  refine checked_bind (word_checked (by omega)) fun ident _ => ?_
  refine checked_bind (word_checked (by omega)) fun flags _ => ?_
  refine checked_bind (word_checked (by omega)) fun nqs _ => ?_
  refine checked_bind (word_checked (by omega)) fun nan _ => ?_
  dsimp only
  split_ifs with isInvalid isError isMany
  · exact checked_refuse _
  · exact checked_refuse _
  · exact checked_refuse _
  · exact checked_bind (question_loop _ 12 (Nat.succ_pos _) (by omega)) fun i _ =>
      read_question ident _ nan _ i

end Calls

section Accepted

structure Holds (input : Bytes) (call : Call) (old rn : Node) (naddrs : Nat)
    (records : List Record) : Prop where
  laid : ∃ stop, Records input call.ans records stop
  all : records.length = call.nan
  suit : ∀ record ∈ records, Suits (familyOf call.qtype) record
  total : naddrs = (own (familyOf call.qtype) records).length
  count : rn.count (familyOf call.qtype) = naddrs
  stored : addresses rn (familyOf call.qtype) = (own (familyOf call.qtype) records).map (·.data)
  ttl : rn.ttl = leastTtl old.ttl records

variable {input : Bytes} {call : Call} {rn : Node}

@[simp] theorem count_set_count (rn : Node) (naddrs : Nat) (family : Family) :
    (rn.setCount naddrs family).count family = naddrs := by
  cases family <;> rfl

@[simp] theorem count_set_stored (rn : Node) (addrs : List Bytes) (family : Family) :
    (rn.setStored addrs family).count family = rn.count family := by
  cases family <;> rfl

@[simp] theorem stored_set_stored (rn : Node) (addrs : List Bytes) (family : Family) :
    (rn.setStored addrs family).stored family = addrs := by
  cases family <;> rfl

@[simp] theorem ttl_set_count (rn : Node) (naddrs : Nat) (family : Family) :
    (rn.setCount naddrs family).ttl = rn.ttl := by
  cases family <;> rfl

@[simp] theorem ttl_set_stored (rn : Node) (addrs : List Bytes) (family : Family) :
    (rn.setStored addrs family).ttl = rn.ttl := by
  cases family <;> rfl

variable {family : Family}

theorem before_passes_none (goesOn : beforePasses call family rn = none) : rn.count family = unknown := by
  unfold beforePasses at goesOn
  split at goesOn
  · cases goesOn
  · by_contra differ
    rw [if_pos differ] at goesOn
    cases goesOn

theorem before_passes_some {answer : Answer} (ends : beforePasses call family rn = some answer)
    (after : Node) (naddrs : Nat) (cname : Option Nat) : answer ≠ .accepted after naddrs cname := by
  rintro rfl
  unfold beforePasses at ends
  split at ends
  · cases ends
  · dsimp only at ends
    split_ifs at ends <;> cases ends

theorem name_end_le (name : NameEnd input i stop) : i ≤ stop := by
  induction name with
  | pointer => omega
  | zero => omega
  | label here isLabel more rest ih => omega

theorem records_length (laid : Records input i records stop) :
    i + 10 * records.length ≤ max i input.length := by
  induction laid with
  | nil i => exact Nat.le_max_left i _
  | @cons i j stop records name inside rest ih =>
    have order := name_end_le name
    rw [length_cons]
    omega

theorem store_answers (alloc : Bool) {pass : Pass}
    (small : input.length < 2 ^ 16) (fresh : rn.count family = unknown)
    (laid : Records input call.ans records stop) (all : records.length = call.nan)
    (suit : ∀ record ∈ records, Suits family record) (naddrs : pass.naddrs = (own family records).length) :
    ∃ answer, storeAnswers alloc input call family rn pass = .ok answer ∧
      ∀ after count cname, answer = .accepted after count cname → count = pass.naddrs ∧ after.ttl = rn.ttl ∧
        after.count family = pass.naddrs ∧ addresses after family = (own family records).map (·.data) := by
  unfold storeAnswers Node.known
  rw [if_pos fresh]
  split_ifs with isNone noMemory
  · refine ⟨_, rfl, fun after count cname same => ?_⟩
    obtain ⟨rfl, rfl, -⟩ := Answer.accepted.inj same
    have noOwn : own family records = [] := length_eq_zero_iff.mp (naddrs ▸ isNone)
    rw [addresses, count_set_count, noOwn]
    exact ⟨rfl, ttl_set_count _ _ _, isNone.symm, take_zero⟩
  · exact ⟨_, rfl, fun after count cname same => nomatch same⟩
  · have few : pass.naddrs < unknown := by
      have bound : (own family records).length ≤ records.length := length_filter_le _ _
      have within := records_length laid
      rw [unknown]
      omega
    rw [← all, copy_answers laid suit [] (by rw [naddrs, length_nil, Nat.zero_add])]
    refine ⟨_, rfl, fun after count cname same => ?_⟩
    obtain ⟨rfl, rfl, -⟩ := Answer.accepted.inj same
    rw [Nat.mod_eq_of_lt (Nat.lt_trans few (by decide)), count_set_stored _ _ family, count_set_count,
      if_neg (Nat.ne_of_lt few), ite_self, addresses, count_set_stored, count_set_count,
      stored_set_stored, ttl_set_stored,
      ttl_set_count, nil_append]
    refine ⟨rfl, rfl, rfl, take_of_length_le ?_⟩
    rw [length_map]
    exact Nat.le_of_eq naddrs.symm

/-- Both passes read bytes of the response only, and what is accepted is what the records say.
The length of a response has two bytes in TCP, and a datagram has at most 4096. -/
theorem answers_stored (tcp alloc : Bool) (found : Option Node) (input : Bytes) (call : Call)
    (short : input.length < 2 ^ 16) (passed : ngxResolverProcessResponse tcp input = .ok call)
    (isA : call.handler = .ngxResolverProcessA) :
    (familyOf call.qtype).type = call.qtype ∧
      ∃ answer, ngxResolverProcessA alloc found input call = .ok answer ∧
        ∀ rn naddrs cname, answer = .accepted rn naddrs cname →
          ∃ old records, found = some old ∧ Holds input call old rn naddrs records := by
  have agrees := process_response tcp input
  rw [passed] at agrees
  refine ⟨agrees isA, ?_⟩
  unfold ngxResolverProcessA
  cases found with
  | none => exact ⟨_, rfl, fun rn naddrs cname same => nomatch same⟩
  | some old =>
    dsimp only
    cases goesOn : beforePasses call (familyOf call.qtype) old with
    | some answer =>
      exact ⟨answer, rfl, fun rn naddrs cname same =>
        absurd same (before_passes_some goesOn rn naddrs cname)⟩
    | none =>
      have fresh := before_passes_none goesOn
      rcases checked_cases (@check_answers input (familyOf call.qtype) call.nan
        ⟨call.ans, 0, none, old.ttl⟩) with
        ⟨pass, isPass, records, stop, laid, all, suit, naddrs, least⟩ | ⟨reason, refused⟩
      · rw [isPass]
        have fresh' : ({ old with ttl := pass.ttl } : Node).count (familyOf call.qtype) = unknown := by
          rw [← fresh]
          cases familyOf call.qtype <;> rfl
        obtain ⟨answer, isAnswer, holds⟩ := store_answers alloc short fresh' laid all suit
          (naddrs.trans (Nat.zero_add _))
        refine ⟨answer, isAnswer, fun rn count cname same => ⟨old, records, rfl, ?_⟩⟩
        obtain ⟨isCount, ttl, counted, stored⟩ := holds rn count cname same
        have total : count = (own (familyOf call.qtype) records).length :=
          isCount.trans (naddrs.trans (Nat.zero_add _))
        exact ⟨⟨stop, laid⟩, all, suit, total, counted.trans isCount.symm, stored, ttl.trans least⟩
      · rw [refused]
        exact ⟨_, rfl, fun rn naddrs cname same => nomatch same⟩

/-- A response to a question for `a` with an alias, an address and its TTL of minus one. -/
def response : Bytes :=
  [0x12, 0x34, 0x81, 0x80, 0, 1, 0, 2, 0, 0, 0, 0, 1, 0x61, 0, 0, 1, 0, 1,
    0xc0, 12, 0, 5, 0, 1, 0, 0, 0, 60, 0, 3, 1, 0x62, 0,
    0xc0, 31, 0, 1, 0, 1, 0xff, 0xff, 0xff, 0xff, 0, 4, 127, 0, 0, 1]

def asked : Node where
  query := some [0x12, 0x34]
  query6 := none
  tcp := false
  tcp6 := false
  code := 0
  naddrs := unknown
  naddrs6 := 0
  ttl := 300
  addrs := []
  addrs6 := []

def passedOn : Call where
  handler := .ngxResolverProcessA
  ident := 0x1234
  code := 0
  qtype := 1
  nan := 2
  trunc := false
  ans := 19

theorem answers_stored_alias :
    ∃ records, Holds response passedOn asked { asked with
      naddrs := 1, ttl := 0, addrs := [[127, 0, 0, 1]] } 1 records := by
  obtain ⟨-, answer, isAnswer, holds⟩ :=
    answers_stored false true (some asked) response passedOn (by decide) rfl rfl
  have accepted : ngxResolverProcessA true (some asked) response passedOn =
      .ok (.accepted { asked with naddrs := 1, ttl := 0, addrs := [[127, 0, 0, 1]] } 1 (some 31)) := by
    decide +kernel
  obtain ⟨old, records, same, held⟩ := holds _ _ _ (Except.ok.inj (isAnswer.symm.trans accepted))
  exact ⟨records, Option.some.inj same ▸ held⟩

end Accepted

end ServerCore.NginxResolverAnswersPasses
