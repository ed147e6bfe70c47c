import ServerCore.NginxNumbers

/-!
# Time strings

`ngx_parse_time` in both of its modes. The line is what is left from `p` up to
`last`; `is_sec` chooses seconds. As in the other readers, a signed operation
whose result does not fit has no result.
-/

namespace ServerCore.NginxParseTime

open NginxNumbers

/-- The values of `step`. -/
def stStart : Nat := 0
def stYear : Nat := 1
def stMonth : Nat := 2
def stWeek : Nat := 3
def stDay : Nat := 4
def stHour : Nat := 5
def stMin : Nat := 6
def stSec : Nat := 7
def stMsec : Nat := 8
def stLast : Nat := 9

structure UnitCase where
  step : Nat
  max : Int
  scale : Int

def unitFrom (step own : Nat) (scale : Int) (p : Bytes) : Option (UnitCase × Bytes) :=
  if step ≥ own then none else some (⟨own, ngxMaxIntTValue / scale, scale⟩, p)

/-- `switch (*p++)`: what the character sets and where `p` is then, unless the function
returns an error. -/
def unitSwitch (isSec : Bool) (step : Nat) (c : Byte) (p : Bytes) : Option (UnitCase × Bytes) :=
  if c = 'y'.toUInt8 then
    if step > stStart then none
    else some (⟨stYear, ngxMaxIntTValue / (60 * 60 * 24 * 365), 60 * 60 * 24 * 365⟩, p)
  else if c = 'M'.toUInt8 then unitFrom step stMonth (60 * 60 * 24 * 30) p
  else if c = 'w'.toUInt8 then unitFrom step stWeek (60 * 60 * 24 * 7) p
  else if c = 'd'.toUInt8 then unitFrom step stDay (60 * 60 * 24) p
  else if c = 'h'.toUInt8 then unitFrom step stHour (60 * 60) p
  else if c = 'm'.toUInt8 then
    if p.head? = some 's'.toUInt8 then
      if isSec || step ≥ stMsec then none else some (⟨stMsec, ngxMaxIntTValue, 1⟩, p.tail)
    else unitFrom step stMin 60 p
  else if c = 's'.toUInt8 then
    if step ≥ stSec then none else some (⟨stSec, ngxMaxIntTValue, 1⟩, p)
  else if c = ' '.toUInt8 then
    if step ≥ stSec then none else some (⟨stLast, ngxMaxIntTValue, 1⟩, p)
  else none

/-- What follows the switch in the loop: the new total. -/
def addUnit (isSec : Bool) (value total : Int) (unit : UnitCase) : Option (Option Int) := do
  let inMsec := unit.step ≠ stMsec && !isSec
  let scale ← (if inMsec then signed (unit.scale * 1000) else some unit.scale)
  let max := if inMsec then unit.max / 1000 else unit.max
  if value > max then some none
  else
    let value ← signed (value * scale)
    let room ← signed (ngxMaxIntTValue - value)
    if total > room then some none
    else
      let total ← signed (total + value)
      some (some total)

def finish (isSec : Bool) (value total : Int) (valid : Bool) : Option Int := do
  if !valid then some ngxError
  else if !isSec && value > ngxMaxIntTValue / 1000 then some ngxError
  else
    let value ← (if isSec then some value else signed (value * 1000))
    let room ← signed (ngxMaxIntTValue - value)
    if total > room then some ngxError else signed (total + value)

theorem unit_switch_shrinks {isSec : Bool} {step : Nat} {c : Byte} {p rest : Bytes} {unit : UnitCase}
    (found : unitSwitch isSec step c p = some (unit, rest)) : rest.length ≤ p.length := by
  have tail : p.tail.length ≤ p.length := by simp
  unfold unitSwitch unitFrom at found
  split_ifs at found <;> cases found <;> first | exact Nat.le_refl _ | exact tail

/-- The loop. After a unit the spaces are skipped. -/
def parseLoop (isSec : Bool) (value total : Int) (step : Nat) (valid : Bool) : Bytes → Option Int
  | [] => finish isSec value total valid
  | c :: p =>
    if isDigit c then
      if cutOff ngxMaxIntTValue value c then some ngxError
      else do
        let value ← nextValue value c
        parseLoop isSec value total step true p
    else
      match found : unitSwitch isSec step c p with
      | none => some ngxError
      | some (unit, p) => do
        match ← addUnit isSec value total unit with
        | none => some ngxError
        | some total => parseLoop isSec 0 total unit.step valid (p.dropWhile (· = ' '.toUInt8))
termination_by line => line.length
decreasing_by
  · simp
  · have shorter := unit_switch_shrinks found
    have skipped := @List.dropWhile_suffix _ p (· = ' '.toUInt8)
    have least := skipped.length_le
    simp only [List.length_cons]
    omega

def ngxParseTime (line : Bytes) (isSec : Bool) : Option Int :=
  parseLoop isSec 0 0 (if isSec then stStart else stMonth) false line

end ServerCore.NginxParseTime
