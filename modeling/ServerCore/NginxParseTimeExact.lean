import ServerCore.NginxNumbersFraction
import ServerCore.NginxParseTime

/-!
# Time strings are summed exactly

A time string is a list of numbers with units, in any order and with spaces
behind each unit, and at most one number without a unit at its end.
-/

namespace ServerCore.NginxParseTimeExact

open DigitString NginxNumbers NginxNumbersExact NginxNumbersFraction NginxParseTime List Option

variable {last : Bytes}

variable {number total : Int} {item : Item} {items : List Item}

inductive TimeUnit where
  | year | month | week | day | hour | minute | second | millisecond
  deriving DecidableEq

namespace TimeUnit

def text : TimeUnit → Bytes
  | year => ['y'.toUInt8]
  | month => ['M'.toUInt8]
  | week => ['w'.toUInt8]
  | day => ['d'.toUInt8]
  | hour => ['h'.toUInt8]
  | minute => ['m'.toUInt8]
  | second => ['s'.toUInt8]
  | millisecond => ['m'.toUInt8, 's'.toUInt8]

def rank : TimeUnit → Nat
  | year => 1
  | month => 2
  | week => 3
  | day => 4
  | hour => 5
  | minute => 6
  | second => 7
  | millisecond => 8

def length (isSec : Bool) : TimeUnit → Nat
  | year => 365 * 24 * 60 * 60 * (if isSec then 1 else 1000)
  | month => 30 * 24 * 60 * 60 * (if isSec then 1 else 1000)
  | week => 7 * 24 * 60 * 60 * (if isSec then 1 else 1000)
  | day => 24 * 60 * 60 * (if isSec then 1 else 1000)
  | hour => 60 * 60 * (if isSec then 1 else 1000)
  | minute => 60 * (if isSec then 1 else 1000)
  | second => if isSec then 1 else 1000
  | millisecond => 1

/-- The units of a mode: from years down to seconds, or from weeks down to milliseconds. -/
def Allowed (isSec : Bool) (unit : TimeUnit) : Prop :=
  if isSec then unit.rank ≤ second.rank else week.rank ≤ unit.rank

instance (isSec : Bool) (unit : TimeUnit) : Decidable (Allowed isSec unit) := by
  unfold Allowed
  infer_instance

end TimeUnit

structure Item where
  digits : Bytes
  isNumber : digits ≠ [] ∧ ∀ c ∈ digits, isDigit c
  unit : TimeUnit
  spaces : Nat

namespace Item

def text (item : Item) : Bytes :=
  item.digits ++ item.unit.text ++ List.replicate item.spaces ' '.toUInt8

def amount (item : Item) (isSec : Bool) : Nat := value 10 (digitsOf item.digits) * item.unit.length isSec

end Item

/-- `last` are the digits of the number without a unit; there may be none. -/
structure TimeString where
  items : List Item
  last : Bytes
  isNumber : ∀ c ∈ last, isDigit c
  nonempty : items ≠ [] ∨ last ≠ []

def textOf (items : List Item) (last : Bytes) : Bytes := items.flatMap Item.text ++ last

def sumOf (isSec : Bool) (items : List Item) (last : Bytes) : Nat :=
  (items.map (Item.amount · isSec)).sum + value 10 (digitsOf last) * TimeUnit.second.length isSec

namespace TimeString

def text (time : TimeString) : Bytes := textOf time.items time.last

def sum (time : TimeString) (isSec : Bool) : Nat := sumOf isSec time.items time.last

/-- Every unit belongs to the mode, and each is smaller than those before it. -/
def InOrder (time : TimeString) (isSec : Bool) : Prop :=
  time.items.Pairwise (fun item later => item.unit.rank < later.unit.rank) ∧
    ∀ item ∈ time.items, item.unit.Allowed isSec

instance (time : TimeString) (isSec : Bool) : Decidable (time.InOrder isSec) := by
  unfold InOrder
  infer_instance

end TimeString

/-- `value` and `total` stay within the type. -/
def InRange (number : Int) : Prop := 0 ≤ number ∧ number ≤ ngxMaxIntTValue

theorem signed_in_range (inRange : InRange number) : signed number = some number := by
  have bounds := inRange
  simp only [InRange, ngxMaxIntTValue] at bounds
  rw [signed, if_pos]
  omega

variable {c : Byte} {p : Bytes} {unit : UnitCase}

theorem digit_of_range (inside : isDigit c) : 0 ≤ digitOf c ∧ digitOf c ≤ 9 := by
  have facts := decimal_digit (decimal_of_digit inside)
  omega

theorem next_value_in_range (inRange : InRange number) (inside : isDigit c)
    (stays : cutOff ngxMaxIntTValue number c = false) :
    ∃ next, nextValue number c = some next ∧ InRange next := by
  have bounds := inRange
  have digit := digit_of_range inside
  simp only [InRange, ngxMaxIntTValue] at bounds
  rw [Bool.eq_false_iff] at stays
  simp only [cutOff, ne_eq, Bool.and_eq_true, Bool.or_eq_true, decide_eq_true_eq] at stays
  have quotient : ngxMaxIntTValue / 10 = 922337203685477580 := by decide
  have remainder : ngxMaxIntTValue % 10 = 7 := by decide
  have tens : InRange (number * 10) := by
    simp only [InRange, ngxMaxIntTValue]
    omega
  have next : InRange (number * 10 + digitOf c) := by
    simp only [InRange, ngxMaxIntTValue]
    omega
  refine ⟨_, ?_, next⟩
  rw [nextValue, signed_in_range tens, bind_eq_bind, bind_some, signed_in_range next]

section Steps

def within (sum : Int) : Option Int := if sum ≤ ngxMaxIntTValue then some sum else none

structure UnitOk (unit : UnitCase) : Prop where
  positive : 0 < unit.scale
  small : unit.scale ≤ 60 * 60 * 24 * 365
  quotient : unit.max = ngxMaxIntTValue / unit.scale

theorem unit_switch_ok {isSec : Bool} {step : Nat} {rest : Bytes}
    (found : unitSwitch isSec step c p = some (unit, rest)) : UnitOk unit := by
  unfold unitSwitch unitFrom at found
  split_ifs at found <;> cases found <;> exact ⟨by decide, by decide, by decide⟩

def scaleOf (isSec : Bool) (unit : UnitCase) : Int :=
  if unit.step ≠ stMsec && !isSec then unit.scale * 1000 else unit.scale

variable {isSec : Bool} {value total : Int} {unit : UnitCase}

theorem scale_of_bounds (unitOk : UnitOk unit) : 0 < scaleOf isSec unit ∧ InRange (scaleOf isSec unit) := by
  have pos := unitOk.positive
  have small := unitOk.small
  rw [scaleOf]
  simp only [InRange, ngxMaxIntTValue]
  split_ifs <;> omega

theorem product_in_range {scale : Int} (pos : 0 < scale) (valueRange : InRange value) :
    0 ≤ value * scale ∧ (value > ngxMaxIntTValue / scale ↔ ¬ value * scale ≤ ngxMaxIntTValue) := by
  refine ⟨Int.mul_nonneg valueRange.1 (Int.le_of_lt pos), ?_⟩
  rw [← Int.le_ediv_iff_mul_le pos]
  exact not_le.symm

theorem add_unit_eq (unitOk : UnitOk unit) (valueRange : InRange value) (totalRange : InRange total) :
    addUnit isSec value total unit = some (within (total + value * scaleOf isSec unit)) := by
  have scaleRange := @scale_of_bounds isSec _ unitOk
  have product := product_in_range scaleRange.1 valueRange
  have isScale : (if (unit.step ≠ stMsec && !isSec) = true then signed (unit.scale * 1000)
      else some unit.scale) = some (scaleOf isSec unit) := by
    rw [scaleOf] at scaleRange ⊢
    split_ifs at scaleRange ⊢ with inMsec
    · exact signed_in_range scaleRange.2
    · rfl
  have isMax : (if (unit.step ≠ stMsec && !isSec) = true then unit.max / 1000 else unit.max) =
      ngxMaxIntTValue / scaleOf isSec unit := by
    rw [scaleOf, unitOk.quotient]
    split_ifs
    · exact Int.ediv_ediv_of_nonneg (Int.le_of_lt unitOk.positive)
    · rfl
  rw [addUnit]
  simp only [isScale, isMax, bind_eq_bind, bind_some]
  generalize scaleOf isSec unit = scale at product
  by_cases fits : value * scale ≤ ngxMaxIntTValue
  · have room : InRange (ngxMaxIntTValue - value * scale) := by
      simp only [InRange]
      omega
    rw [if_neg (fun above => product.2.mp above fits), signed_in_range ⟨product.1, fits⟩, bind_some,
      signed_in_range room, bind_some, within]
    by_cases exceeds : total > ngxMaxIntTValue - value * scale
    · rw [if_pos exceeds, if_neg (by omega)]
    · have sum : InRange (total + value * scale) := ⟨Int.add_nonneg totalRange.1 product.1, by omega⟩
      rw [if_neg exceeds, signed_in_range sum, if_pos sum.2]
      rfl
  · have nonneg := totalRange.1
    rw [if_pos (product.2.mpr fits), within, if_neg (by omega)]

theorem finish_eq (valueRange : InRange value) (totalRange : InRange total) (valid : Bool) :
    finish isSec value total valid =
      some (if valid then (within (total + value * (if isSec then 1 else 1000))).getD ngxError
        else ngxError) := by
  cases valid with
  | false => rfl
  | true =>
    have nonneg := totalRange.1
    have sum : ∀ number, 0 ≤ number → number ≤ ngxMaxIntTValue →
        (do
          let room ← signed (ngxMaxIntTValue - number)
          if total > room then some ngxError else signed (total + number)) =
          some ((within (total + number)).getD ngxError) := by
      intro number low high
      have room : InRange (ngxMaxIntTValue - number) := by
        simp only [InRange]
        omega
      rw [signed_in_range room, bind_eq_bind, bind_some, within]
      by_cases exceeds : total > ngxMaxIntTValue - number
      · rw [if_pos exceeds, if_neg (by omega)]
        rfl
      · have inRange : InRange (total + number) := ⟨by omega, by omega⟩
        rw [if_neg exceeds, if_pos inRange.2]
        exact signed_in_range inRange
    cases isSec with
    | true =>
      simp only [finish, Bool.not_true, Bool.false_and, Bool.false_eq_true, if_false, if_true,
        bind_eq_bind, bind_some, mul_one]
      exact sum value valueRange.1 valueRange.2
    | false =>
      have product := product_in_range (show (0 : Int) < 1000 by decide) valueRange
      simp only [finish, Bool.not_true, Bool.not_false, Bool.true_and, Bool.false_eq_true, if_false,
        if_true, decide_eq_true_eq]
      by_cases fits : value * 1000 ≤ ngxMaxIntTValue
      · rw [if_neg (fun above => product.2.mp above fits), signed_in_range ⟨product.1, fits⟩,
          bind_eq_bind, bind_some]
        exact sum (value * 1000) product.1 fits
      · rw [if_pos (product.2.mpr fits), within, if_neg (by omega)]
        rfl

theorem parse_loop_total (valueRange : InRange value) (totalRange : InRange total) (step : Nat)
    (valid : Bool) (line : Bytes) : parseLoop isSec value total step valid line ≠ none := by
  have zeroRange : InRange 0 := ⟨by decide, by decide⟩
  induction size : line.length using Nat.strong_induction_on generalizing value total step valid line with
  | _ size ih =>
    cases line with
    | nil =>
      rw [parseLoop, finish_eq valueRange totalRange]
      exact some_ne_none _
    | cons c p =>
      rw [parseLoop]
      split_ifs with inside cut
      · exact some_ne_none _
      · obtain ⟨next, isNext, nextRange⟩ :=
          next_value_in_range valueRange inside (Bool.eq_false_iff.mpr cut)
        rw [isNext, bind_eq_bind, bind_some]
        exact ih p.length (by simp [← size]) nextRange totalRange step true p rfl
      · split
        · exact some_ne_none _
        · next unit rest found =>
            have sum := @add_unit_eq isSec _ _ _ (unit_switch_ok found) valueRange totalRange
            rw [sum, bind_eq_bind, bind_some, within]
            split_ifs with fits
            · have shorter := unit_switch_shrinks found
              have skipped := (@List.dropWhile_suffix _ rest (· = ' '.toUInt8)).length_le
              have scaleRange := @scale_of_bounds isSec _ (unit_switch_ok found)
              have product := product_in_range scaleRange.1 valueRange
              have nonneg := totalRange.1
              refine ih _ ?_ zeroRange ⟨by omega, fits⟩ unit.step valid _ rfl
              simp only [← size, length_cons]
              omega
            · exact some_ne_none _

end Steps

section Items

/-- What may stand behind a unit and its spaces: a digit or the end. -/
def Ready (rest : Bytes) : Prop := ∀ c ∈ rest.head?, isDigit c

variable {isSec : Bool} {step total : Nat} {valid : Bool} {rest : Bytes}

theorem digit_apart (inside : isDigit c) : c ≠ 's'.toUInt8 ∧ c ≠ ' '.toUInt8 := by
  constructor
  · rintro rfl
    exact absurd inside (by decide)
  · rintro rfl
    exact absurd inside (by decide)

theorem ready_head (ready : Ready rest) : rest.head? ≠ some 's'.toUInt8 := by
  intro isHead
  exact (digit_apart (ready _ isHead)).1 rfl

theorem skip_spaces (ready : Ready rest) (count : Nat) :
    (List.replicate count ' '.toUInt8 ++ rest).dropWhile (· = ' '.toUInt8) = rest := by
  induction count with
  | zero =>
    cases rest with
    | nil => rfl
    | cons c rest =>
      have apart := (digit_apart (ready c rfl)).2
      rw [replicate_zero, nil_append, dropWhile_cons_of_neg (by simpa using apart)]
  | succ count ih =>
    rw [replicate_succ, cons_append, dropWhile_cons_of_pos (by simp)]
    exact ih

theorem parse_digits (digits rest : Bytes) (areDigits : ∀ c ∈ digits, isDigit c) (start : Nat)
    (bound : start ≤ intMax) (valid : Bool) : parseLoop isSec start total step valid (digits ++ rest) =
      if carried 10 start (digitsOf digits) ≤ intMax then
        parseLoop isSec (carried 10 start (digitsOf digits) : Nat) total step (valid || !digits.isEmpty) rest
      else some ngxError := by
  induction digits generalizing start valid with
  | nil =>
    have none_ : digitsOf [] = [] := rfl
    simp [none_, bound]
  | cons c digits ih =>
    have inside := areDigits c mem_cons_self
    have decimal := decimal_of_digit inside
    have tail := fun other mem => areDigits other (mem_cons_of_mem c mem)
    have split : digitsOf (c :: digits) = (c.toNat - '0'.toNat) :: digitsOf digits :=
      filterMap_cons_some decimal
    generalize c.toNat - '0'.toNat = digit at decimal split
    rw [cons_append, parseLoop, if_pos inside, int_max_eq, cut_off_eq decimal, split, carried_cons]
    by_cases fits : start * 10 + digit ≤ intMax
    · have small : start * 10 + digit < 2 ^ 63 := by
        simp only [intMax] at fits
        omega
      have stays : ¬ intMax < start * 10 + digit := Nat.not_lt_of_le fits
      simp only [stays, decide_false, Bool.false_eq_true, if_false]
      rw [next_value_eq decimal small, bind_eq_bind, bind_some, ih tail _ fits true]
      simp
    · have least := le_carried (show 0 < 10 by decide) (start * 10 + digit) (digitsOf digits)
      have above : intMax < start * 10 + digit := Nat.lt_of_not_le fits
      rw [if_neg (show ¬ carried 10 (start * 10 + digit) (digitsOf digits) ≤ intMax by omega)]
      simp [above]

def baseScale (unit : TimeUnit) : Int := unit.length true

/-- A unit is read behind the step of another: it is smaller, and it belongs to the mode. -/
def Follows (isSec : Bool) (step : Nat) (unit : TimeUnit) : Prop :=
  step < unit.rank ∧ (unit = .millisecond → isSec = false)

instance (isSec : Bool) (step : Nat) (unit : TimeUnit) : Decidable (Follows isSec step unit) := by
  unfold Follows
  infer_instance

theorem follows_iff {unit : TimeUnit} (other : unit ≠ .millisecond) :
    Follows isSec step unit ↔ step < unit.rank :=
  and_iff_left (fun same => absurd same other)

def caseOf (unit : TimeUnit) : UnitCase := ⟨unit.rank, ngxMaxIntTValue / baseScale unit, baseScale unit⟩

theorem from_step {unit : TimeUnit} (other : unit ≠ .millisecond) (found : UnitCase × Bytes) :
    (if step ≥ unit.rank then none else some found) =
      if Follows isSec step unit then some found else none := by
  by_cases below : step < unit.rank
  · rw [if_neg (Nat.not_le_of_lt below), if_pos ((follows_iff other).mpr below)]
  · rw [if_pos (Nat.le_of_not_lt below), if_neg (fun follows => below follows.1)]

theorem unit_switch_eq (unit : TimeUnit) (ahead : rest.head? ≠ some 's'.toUInt8) :
    unitSwitch isSec step (unit.text.headD 0) (unit.text.tail ++ rest) =
      if Follows isSec step unit then some (caseOf unit, rest) else none := by
  cases unit with
  | year =>
    rw [unitSwitch, if_pos (by decide)]
    exact @from_step isSec step .year (by decide) (caseOf .year, rest)
  | month =>
    rw [unitSwitch, if_neg (by decide), if_pos (by decide)]
    exact @from_step isSec step .month (by decide) (caseOf .month, rest)
  | week =>
    rw [unitSwitch, if_neg (by decide), if_neg (by decide), if_pos (by decide)]
    exact @from_step isSec step .week (by decide) (caseOf .week, rest)
  | day =>
    rw [unitSwitch, if_neg (by decide), if_neg (by decide), if_neg (by decide), if_pos (by decide)]
    exact @from_step isSec step .day (by decide) (caseOf .day, rest)
  | hour =>
    exact @from_step isSec step .hour (by decide) (caseOf .hour, rest)
  | minute =>
    exact (if_neg ahead).trans (@from_step isSec step .minute (by decide) (caseOf .minute, rest))
  | second =>
    exact @from_step isSec step .second (by decide) (caseOf .second, rest)
  | millisecond =>
    rw [unitSwitch, if_neg (by decide), if_neg (by decide), if_neg (by decide), if_neg (by decide),
      if_neg (by decide), if_pos (by decide)]
    apply (if_pos rfl).trans
    by_cases follows : Follows isSec step .millisecond
    · have below : ¬ step ≥ stMsec := Nat.not_le_of_lt follows.1
      have inMsec := follows.2 rfl
      rw [if_pos follows, if_neg (by simp [inMsec, below])]
      rfl
    · have refused : (isSec || decide (step ≥ stMsec)) = true := by
        rw [Bool.or_eq_true, decide_eq_true_eq]
        by_contra neither
        rw [not_or, not_le, Bool.not_eq_true] at neither
        exact follows ⟨neither.2, fun _ => neither.1⟩
      rw [if_neg follows, if_pos refused]

theorem unit_text_split (unit : TimeUnit) : unit.text = unit.text.headD 0 :: unit.text.tail := by
  cases unit <;> rfl

theorem unit_not_digit {unit : TimeUnit} : isDigit (unit.text.headD 0) = false := by
  cases unit <;> decide

theorem scale_of_case {unit : TimeUnit} (follows : Follows isSec step unit) :
    scaleOf isSec (caseOf unit) = unit.length isSec := by
  cases isSec with
  | true => cases unit <;> rfl
  | false => cases unit <;> rfl

theorem case_ok (unit : TimeUnit) : UnitOk (caseOf unit) := by
  cases unit <;> exact ⟨by decide, by decide, rfl⟩

theorem parse_refused {value : Int} (plain : isDigit c = false)
    (refused : unitSwitch isSec step c p = none) :
    parseLoop isSec value total step valid (c :: p) = some ngxError := by
  rw [parseLoop, if_neg (by simp [plain])]
  split
  · rfl
  · next found =>
      rw [refused] at found
      exact absurd found (by simp)

theorem parse_taken {value : Int}
    (plain : isDigit c = false) (taken : unitSwitch isSec step c p = some (unit, rest)) {sum : Option Int}
    (isSum : addUnit isSec value total unit = some sum) : parseLoop isSec value total step valid (c :: p) =
      sum.elim (some ngxError) (fun total =>
        parseLoop isSec 0 total unit.step valid (rest.dropWhile (· = ' '.toUInt8))) := by
  rw [parseLoop, if_neg (by simp [plain])]
  split
  · next found =>
      rw [taken] at found
      exact absurd found (by simp)
  · next other others found =>
      rw [taken] at found
      obtain ⟨rfl, rfl⟩ := Prod.mk.inj (Option.some.inj found)
      rw [isSum, bind_eq_bind, bind_some]
      cases sum <;> rfl

theorem nat_fits {sum : Nat} : (sum : Int) ≤ ngxMaxIntTValue ↔ sum ≤ intMax := by
  rw [int_max_eq]
  exact Int.ofNat_le

theorem parse_item (totalFits : total ≤ intMax) (ready : Ready rest) :
    parseLoop isSec 0 total step valid (item.text ++ rest) =
      if Follows isSec step item.unit ∧ total + item.amount isSec ≤ intMax then
        parseLoop isSec 0 (total + item.amount isSec : Nat) item.unit.rank true rest
      else some ngxError := by
  have ahead : (List.replicate item.spaces ' '.toUInt8 ++ rest).head? ≠ some 's'.toUInt8 := by
    cases item.spaces with
    | zero => exact ready_head ready
    | succ count =>
      rw [replicate_succ, cons_append, head?_cons]
      decide
  have number := @parse_digits isSec step total item.digits
    (item.unit.text ++ (List.replicate item.spaces ' '.toUInt8 ++ rest)) item.isNumber.2 0
    (Nat.zero_le intMax) valid
  have isValid : (valid || !item.digits.isEmpty) = true := by
    simp [item.isNumber.1]
  have grows : value 10 (digitsOf item.digits) ≤ item.amount isSec :=
    Nat.le_mul_of_pos_right _ (by cases item.unit <;> cases isSec <;> decide)
  rw [carried_zero, isValid] at number
  rw [Item.text, append_assoc, append_assoc, ← Nat.cast_zero, number]
  by_cases fits : value 10 (digitsOf item.digits) ≤ intMax
  · have valueRange : InRange (value 10 (digitsOf item.digits) : Nat) := by
      simp only [intMax] at fits
      simp only [InRange, ngxMaxIntTValue]
      omega
    have totalRange : InRange (total : Nat) := by
      simp only [intMax] at totalFits
      simp only [InRange, ngxMaxIntTValue]
      omega
    have switch := @unit_switch_eq isSec step _ item.unit ahead
    rw [if_pos fits, unit_text_split, cons_append]
    by_cases follows : Follows isSec step item.unit
    · rw [if_pos follows] at switch
      have sum := @add_unit_eq isSec _ _ _ (case_ok item.unit) valueRange totalRange
      have isSum : (total : Int) + (value 10 (digitsOf item.digits) : Nat) * item.unit.length isSec =
          ((total + item.amount isSec : Nat) : Int) := by
        rw [Item.amount]
        push_cast
        rfl
      rw [scale_of_case follows, isSum] at sum
      rw [parse_taken unit_not_digit switch sum, skip_spaces ready, within]
      by_cases bound : total + item.amount isSec ≤ intMax
      · rw [if_pos ((nat_fits).mpr bound), if_pos ⟨follows, bound⟩]
        rfl
      · rw [if_neg (fun small => bound ((nat_fits).mp small)), if_neg (fun both => bound both.2)]
        rfl
    · rw [if_neg follows] at switch
      rw [parse_refused unit_not_digit switch, if_neg (fun both => follows both.1)]
  · rw [if_neg fits, if_neg]
    intro both
    omega

def OrderedBehind (isSec : Bool) (step : Nat) (items : List Item) : Prop :=
  items.Pairwise (fun item later => item.unit.rank < later.unit.rank) ∧
    ∀ item ∈ items, Follows isSec step item.unit

instance (isSec : Bool) (step : Nat) (items : List Item) : Decidable (OrderedBehind isSec step items) := by
  unfold OrderedBehind
  infer_instance

theorem ordered_cons : OrderedBehind isSec step (item :: items) ↔
      Follows isSec step item.unit ∧ OrderedBehind isSec item.unit.rank items := by
  rw [OrderedBehind, OrderedBehind, pairwise_cons, forall_mem_cons]
  constructor
  · intro ordered
    exact ⟨ordered.2.1, ordered.1.2,
      fun later mem => ⟨ordered.1.1 later mem, (ordered.2.2 later mem).2⟩⟩
  · intro ordered
    exact ⟨⟨fun later mem => (ordered.2.2 later mem).1, ordered.2.1⟩, ordered.1,
      fun later mem => ⟨ordered.1.1.trans (ordered.2.2 later mem).1, (ordered.2.2 later mem).2⟩⟩

theorem text_of_ready (isNumber : ∀ c ∈ last, isDigit c) :
    Ready (textOf items last) := by
  cases items with
  | nil =>
    intro c isHead
    exact isNumber c (mem_of_mem_head? isHead)
  | cons item items =>
    intro c isHead
    apply item.isNumber.2 c
    cases isDigits : item.digits with
    | nil => exact absurd isDigits item.isNumber.1
    | cons d digits =>
      simp only [textOf, flatMap_cons, Item.text, isDigits, cons_append, head?_cons,
        mem_def, Option.some.injEq] at isHead
      rw [isHead]
      exact mem_cons_self

theorem sum_of_cons (item : Item) (items : List Item) (last : Bytes) :
    sumOf isSec (item :: items) last = item.amount isSec + sumOf isSec items last := by
  rw [sumOf, sumOf, map_cons, sum_cons, add_assoc]

theorem parse_last (isNumber : ∀ c ∈ last, isDigit c) (totalFits : total ≤ intMax)
    (isValid : valid = true ∨ last ≠ []) : parseLoop isSec 0 total step valid last =
      some (if total + sumOf isSec [] last ≤ intMax then ((total + sumOf isSec [] last : Nat) : Int)
        else ngxError) := by
  have number := @parse_digits isSec step total last [] isNumber 0 (Nat.zero_le intMax) valid
  have valid_ : (valid || !last.isEmpty) = true := by
    cases isValid with
    | inl isTrue => simp [isTrue]
    | inr nonempty => simp [nonempty]
  have isSum : sumOf isSec [] last = value 10 (digitsOf last) * (if isSec then 1 else 1000) := by
    rw [sumOf, map_nil, sum_nil, zero_add]
    rfl
  have grows : value 10 (digitsOf last) ≤ sumOf isSec [] last := by
    rw [isSum]
    exact Nat.le_mul_of_pos_right _ (by cases isSec <;> decide)
  rw [carried_zero, valid_, append_nil] at number
  rw [← Nat.cast_zero, number]
  by_cases fits : value 10 (digitsOf last) ≤ intMax
  · have valueRange : InRange (value 10 (digitsOf last) : Nat) :=
      ⟨Int.natCast_nonneg _, Int.ofNat_le.mpr fits⟩
    have totalRange : InRange (total : Nat) := ⟨Int.natCast_nonneg _, Int.ofNat_le.mpr totalFits⟩
    have sum : (total : Int) + (value 10 (digitsOf last) : Nat) * (if isSec then 1 else 1000) =
        ((total + sumOf isSec [] last : Nat) : Int) := by
      rw [isSum]
      push_cast
      rfl
    rw [if_pos fits, parseLoop, finish_eq valueRange totalRange, sum, if_pos rfl, within]
    by_cases bound : total + sumOf isSec [] last ≤ intMax
    · rw [if_pos bound, if_pos ((nat_fits).mpr bound)]
      rfl
    · rw [if_neg bound, if_neg (fun small => bound ((nat_fits).mp small))]
      rfl
  · rw [if_neg fits, if_neg]
    omega

theorem parse_items (items : List Item) {last : Bytes} (isNumber : ∀ c ∈ last, isDigit c)
    (totalFits : total ≤ intMax) (isValid : valid = true ∨ items ≠ [] ∨ last ≠ []) :
    parseLoop isSec 0 total step valid (textOf items last) =
      some (if OrderedBehind isSec step items ∧ total + sumOf isSec items last ≤ intMax then
        ((total + sumOf isSec items last : Nat) : Int) else ngxError) := by
  induction items generalizing total step valid with
  | nil =>
    have ordered : OrderedBehind isSec step [] := ⟨List.Pairwise.nil, fun _ mem => absurd mem (by simp)⟩
    have valid_ : valid = true ∨ last ≠ [] := by simpa using isValid
    rw [show textOf [] last = last from rfl, parse_last isNumber totalFits valid_]
    simp only [ordered, true_and]
  | cons item items ih =>
    have split : textOf (item :: items) last = item.text ++ textOf items last := by
      rw [textOf, textOf, flatMap_cons, append_assoc]
    rw [split, parse_item totalFits (text_of_ready isNumber), sum_of_cons,
      if_congr (and_congr_left' ordered_cons) rfl rfl]
    by_cases taken : Follows isSec step item.unit ∧ total + item.amount isSec ≤ intMax
    · rw [if_pos taken, ih taken.2 (Or.inl rfl), add_assoc]
      simp only [taken.1, true_and]
    · rw [if_neg taken, if_neg]
      intro both
      exact taken ⟨both.1.1, by omega⟩

end Items

theorem start_follows (isSec : Bool) (unit : TimeUnit) :
    Follows isSec (if isSec then stStart else stMonth) unit ↔ unit.Allowed isSec := by
  cases isSec <;> cases unit <;> decide

/-- No line overflows; a time string gives its sum when its units go down and the sum fits,
and an error otherwise. -/
theorem parse_time_exact : (∀ (line : Bytes) (isSec : Bool), ngxParseTime line isSec ≠ none) ∧
      ∀ (time : TimeString) (isSec : Bool), ngxParseTime time.text isSec =
          some (if time.InOrder isSec ∧ time.sum isSec ≤ intMax then ((time.sum isSec : Nat) : Int)
            else ngxError) := by
  constructor
  · intro line isSec
    have zeroRange : InRange 0 := ⟨by decide, by decide⟩
    exact parse_loop_total zeroRange zeroRange _ false line
  · intro time isSec
    have read := @parse_items isSec (if isSec then stStart else stMonth) 0 false time.items time.last
      time.isNumber (Nat.zero_le intMax) (Or.inr time.nonempty)
    have ordered : OrderedBehind isSec (if isSec then stStart else stMonth) time.items ↔
        time.InOrder isSec := by
      simp only [OrderedBehind, TimeString.InOrder, start_follows]
    rw [zero_add, if_congr (and_congr_left' ordered) rfl rfl] at read
    exact read

/-- "1h 30m" -/
example : ngxParseTime [49, 104, 32, 51, 48, 109] true = some 5400 := by with_unfolding_all decide

end ServerCore.NginxParseTimeExact
