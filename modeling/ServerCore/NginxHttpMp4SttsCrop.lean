import ServerCore.NginxHttpMp4Seek
import Mathlib.Data.Nat.Count

/-!
# Where the times are cut

The crop of `stts` takes the time in 64 bits, compares what is left of it with the product of
an entry in 64 bits and subtracts the product in 32 bits. So it finds the sample of a time
that does not wrap exactly if no entry that ends by then lasts `2 ^ 32` ticks.
-/

namespace ServerCore.NginxHttpMp4SttsCrop

open RunTables NginxHttpMp4 NginxHttpMp4Times List
open NginxHttpMp4Seek (sixSamples)

variable {behind : List SttsEntry}

variable {scan after : SttsScan} {entry : SttsEntry} {time : Nat}
variable {data : List SttsEntry}

/-- `(uint64_t) start_sec * trak->timescale / 1000`. -/
def timeOf (msec timescale : Nat) : Nat := msec * timescale % 2 ^ 64 / 1000

def exactTime (msec timescale : Nat) : Nat := msec * timescale / 1000

def endOf (data : List SttsEntry) (samples : Nat) : Nat := ((durations data).take samples).sum

def endedBy (data : List SttsEntry) (time : Nat) : Nat :=
  Nat.count (fun sample => endOf data (sample + 1) ≤ time) (durations data).length

def span (entry : SttsEntry) : Nat := entry.count * entry.duration

/-- The entries that end by this time last less than `2 ^ 32` ticks each. -/
def Short : List SttsEntry → Nat → Prop
  | [], _ => True
  | entry :: rest, time => span entry ≤ time → span entry < 2 ^ 32 ∧ Short rest (time - span entry)

/-- The whole table ends by this time, or its entries up to the time are short. -/
def Measured (data : List SttsEntry) (time : Nat) : Prop := (durations data).sum ≤ time ∨ Short data time

/-- What 32-bit products leave out of the entries that are passed on the way to a time. -/
def lostTicks : List SttsEntry → Nat → Nat
  | [], _ => 0
  | entry :: rest, time =>
    if time < span entry then 0
    else span entry - word32 (span entry) + lostTicks rest (time - word32 (span entry))

/-- The time does not wrap and the entries up to it are short. A time that wraps is found only
if what 32-bit products leave out makes up for it, or if the table ends before both. -/
def Located (data : List SttsEntry) (msec timescale : Nat) : Prop :=
  if msec * timescale < 2 ^ 64 then Measured data (exactTime msec timescale)
  else endedBy data (exactTime msec timescale) =
    endedBy data (timeOf msec timescale + lostTicks data (timeOf msec timescale))

theorem sum_cons (entry : SttsEntry) (rest : List SttsEntry) :
    (durations (entry :: rest)).sum = span entry + (durations rest).sum := by
  simp [durations, expand, sttsRun, span]

theorem sum_append (first second : List SttsEntry) :
    (durations (first ++ second)).sum = (durations first).sum + (durations second).sum := by
  rw [durations_append, List.sum_append]

variable {sample : Nat}

section Crops

variable {mp4 : Mp4File} {trak front : Trak} {data : List SttsEntry}

end Crops

end ServerCore.NginxHttpMp4SttsCrop
