import ServerCore.NginxSprintf

/-!
# Writing a date of HTTP

`ngx_gmtime` and `ngx_http_time`. The fields of the broken-down time are of the type
`int`. The unsigned variables of the calculation hold integers here: for no value of
`n` does the calculation leave their range.
-/

namespace ServerCore.NginxTimes

open NginxNumbers (Bytes)
open NginxSprintf

structure Tm where
  sec : Int
  min : Int
  hour : Int
  mday : Int
  mon : Int
  year : Int
  wday : Int

def cString (text : String) : Bytes := text.toList.map Char.toUInt8 ++ [0]

def week : List Bytes := ["Sun", "Mon", "Tue", "Wed", "Thu", "Fri", "Sat"].map cString

def months : List Bytes :=
  ["Jan", "Feb", "Mar", "Apr", "May", "Jun", "Jul", "Aug", "Sep", "Oct", "Nov", "Dec"].map cString

def tableAt (table : List Bytes) (index : Int) : Option Bytes :=
  if 0 ≤ index then table[index.toNat]? else none

/-- The year that begins with March and the day in it, by the days since the first of March, 1 BC. -/
def marchYear (days : Int) : Int × Int :=
  let year := (days + 2) * 400 / (365 * 400 + 100 - 4 + 1)
  let yday := days - (365 * year + year / 4 - year / 100 + year / 400)
  if yday < 0 then
    let leap : Int := if year % 4 = 0 ∧ (year % 100 ≠ 0 ∨ year % 400 = 0) then 1 else 0
    (year - 1, 365 + leap + yday)
  else (year, yday)

/-- The year, the month and its day, from the year that begins with March. -/
def monthOf (year yday : Int) : Int × Int × Int :=
  let mon := (yday + 31) * 10 / 306
  let mday := yday - (367 * mon / 12 - 30) + 1
  if yday ≥ 306 then (year + 1, mon - 10, mday) else (year, mon + 2, mday)

def ngxGmtime (t : Int) : Tm :=
  let n : Int := unsignedType 64 t
  let days := n / 86400
  let wday := (4 + days) % 7
  let n := n % 86400
  let hour := n / 3600
  let n := n % 3600
  let min := n / 60
  let sec := n % 60
  let days := days - (31 + 28) + 719527
  let (year, yday) := marchYear days
  let (year, mon, mday) := monthOf year yday
  ⟨signedType 32 sec, signedType 32 min, signedType 32 hour, signedType 32 mday, signedType 32 mon,
    signedType 32 year, signedType 32 wday⟩

def httpTimeFormat : Bytes := cString "%s, %02d %s %4d %02d:%02d:%02d GMT"

def ngxHttpTime (buf : Nat) (t : Int) : Option (Bytes × Nat) := do
  let tm := ngxGmtime t
  let day ← tableAt week tm.wday
  let month ← tableAt months (tm.mon - 1)
  ngxSprintf buf httpTimeFormat [.chars day, .integer tm.mday, .chars month,
    .integer tm.year, .integer tm.hour,
    .integer tm.min, .integer tm.sec]

end ServerCore.NginxTimes
