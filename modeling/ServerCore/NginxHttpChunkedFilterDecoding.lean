import ServerCore.NginxHttpChunkedDecoding
import ServerCore.NginxHttpChunkedFilterCalls

/-!
# The chunked output is read back

What the filter hands on for one chain after the other is a chunked encoding of what it
was given.
-/

namespace ServerCore.NginxHttpChunkedFilterDecoding

open NginxHttpParse (Byte Bytes cr lf)
open NginxHttpChunked NginxHttpChunkedDecoding NginxHttpChunkedFilter NginxHttpChunkedFilterCalls
open PositionalText List

variable {data : Bytes}

section Framing

variable {data : Bytes}

theorem hex_digit_is_byte : ∀ value : Fin 16, NginxInet.hexDigit value.val = Digit.byte ⟨value, false⟩ := by
  decide

theorem value_from_append (start : Nat) (digits : List Digit) (digit : Digit) :
    valueFrom start (digits ++ [digit]) = valueFrom start digits * 16 + digit.value.val := by
  unfold valueFrom
  rw [foldl_append]
  rfl

theorem numeral_digits (fuel number : Nat) (small : number < 16 ^ fuel) :
    ∃ digits : List Digit, numeral 16 NginxInet.hexDigit fuel number = digits.map Digit.byte ∧
      valueFrom 0 digits = number := by
  induction fuel generalizing number with
  | zero =>
    rw [pow_zero, Nat.lt_one_iff] at small
    exact ⟨[], rfl, small.symm⟩
  | succ fuel ih =>
    have parts : number / 16 * 16 + number % 16 = number := Nat.div_add_mod' number 16
    have less : number % 16 < 16 := Nat.mod_lt _ (by decide)
    have isByte := hex_digit_is_byte ⟨number % 16, less⟩
    rw [numeral]
    by_cases single : number / 16 = 0
    · rw [if_pos single, isByte]
      refine ⟨[⟨⟨number % 16, less⟩, false⟩], rfl, ?_⟩
      change 0 * 16 + number % 16 = number
      omega
    · rw [pow_succ, mul_comm] at small
      obtain ⟨digits, isText, isValue⟩ := ih (number / 16) (Nat.div_lt_of_lt_mul small)
      rw [if_neg single, isText, isByte]
      refine ⟨digits ++ [⟨⟨number % 16, less⟩, false⟩], ?_, ?_⟩
      · rw [map_append]
        rfl
      · rw [value_from_append, isValue]
        exact parts

theorem format_size_digits {size : Nat} (small : size < 2 ^ 63) :
    ∃ digits : List Digit, formatSize size = digits.map Digit.byte ∧ valueFrom 0 digits = size ∧
      digits ≠ [] := by
  obtain ⟨digits, isText, isValue⟩ :=
    numeral_digits NginxInet.ngxInt64Len size (lt_of_lt_of_le small (by decide))
  have isFormat : formatSize size = numeral 16 NginxInet.hexDigit NginxInet.ngxInt64Len size := by
    rw [formatSize, if_neg (by omega)]
    rfl
  refine ⟨digits, isFormat.trans isText, isValue, ?_⟩
  intro none_
  rw [none_] at isText
  exact numeral_ne_nil _ _ isText

theorem framed_chunk (some_ : data ≠ []) (small : data.length < 2 ^ 63) (last : Bool) :
    ∃ chunk : Chunk, chunk.data = data ∧ Spells chunk.line data.length ∧
      framed data last = chunk.bytes ++ if last then lastChunk.drop 2 else [] := by
  obtain ⟨digits, isText, isValue, nonempty⟩ := format_size_digits small
  refine ⟨⟨⟨digits, none, .crlf⟩, data, .crlf⟩, rfl, ⟨nonempty, isValue, ?_⟩, ?_⟩
  · intro text isSome
    cases isSome
  · unfold framed
    rw [if_neg some_, isText]
    cases last <;> simp [Chunk.bytes, SizeLine.bytes, LineEnd.bytes, crlf, lastChunk]

theorem run_framed (limit : data.length ≤ maxOffT / 16) (rest : Bytes) :
    run ⟨.swChunkStart, 0⟩ (framed data false ++ rest) = (run ⟨.swChunkStart, 0⟩ rest).prepend data := by
  have small : data.length < 2 ^ 59 := by
    unfold maxOffT at limit
    omega
  by_cases none_ : data = []
  · subst none_
    exact (prepend_nil _).symm
  · obtain ⟨chunk, rfl, spells, isFramed⟩ := framed_chunk none_ (by omega) false
    rw [isFramed, if_neg (by decide), append_nil]
    exact run_chunk none_ small spells rest

theorem run_last_chunk : run ⟨.swChunkStart, 0⟩ (lastChunk.drop 2) = .done [] [] := by decide

theorem run_framed_last (limit : data.length ≤ maxOffT / 16) :
    run ⟨.swChunkStart, 0⟩ (framed data true) = .done data [] := by
  have small : data.length < 2 ^ 59 := by
    unfold maxOffT at limit
    omega
  by_cases none_ : data = []
  · subst none_
    exact run_last_chunk
  · obtain ⟨chunk, rfl, spells, isFramed⟩ := framed_chunk none_ (by omega) true
    rw [isFramed, if_pos rfl, run_chunk none_ small spells, run_last_chunk]
    exact congrArg (Outcome.done · []) (append_nil _)

end Framing

structure Exchange where
  input : List Buf
  handed : List Buf

def given (swaps : List Exchange) : Bytes := contents (swaps.flatMap Exchange.input)

def output (swaps : List Exchange) : Bytes := contents (swaps.flatMap Exchange.handed)

/-- The calls of a response so far. Between two calls and in the next filter, other code
uses the buffers. -/
inductive Served (r : Request) : List Exchange → Ctx → World → Prop
  | start {world : World} (unused : ∀ addr < world.next, ¬Own world addr) : Served r [] ⟨[], []⟩ world
  | call {swaps : List Exchange} {ctx : Ctx} {world found : World} {chain : List Nat}
      {next : NextFilter} {result : Result} (before : Served r swaps ctx world)
      (leaves : Left world found) (chainGiven : Given found chain) (nonempty : chain ≠ [])
      (keeps : ∀ before out, Left before (next before out).2)
      (isCall : ngxHttpChunkedBodyFilter next r ctx found chain = some result) :
      Served r (swaps ++ [⟨chain.map found.bufs, result.handed⟩]) result.ctx result.world

def GoesOn (swap : Exchange) : Prop :=
  contents swap.handed = framed (contents swap.input) false ∧ Unmarked swap.handed

section Runs

variable {r : Request} {swaps done : List Exchange} {ctx : Ctx} {world : World}

theorem given_append (first second : List Exchange) :
    given (first ++ second) = given first ++ given second := by
  unfold given
  rw [flatMap_append, contents_append]

theorem output_append (first second : List Exchange) :
    output (first ++ second) = output first ++ output second := by
  unfold output
  rw [flatMap_append, contents_append]

def Limited (swap : Exchange) : Prop := (contents swap.input).length ≤ maxOffT / 16

theorem limited_small (limit : data.length ≤ maxOffT / 16) : data.length < 2 ^ 63 := by
  unfold maxOffT at limit
  omega

theorem start_settled (unused : ∀ addr < world.next, ¬Own world addr) : Settled ⟨[], []⟩ world := by
  refine ⟨⟨nodup_nil, ?_, ?_⟩, ?_, fun addr below isOwn => absurd isOwn (unused addr below)⟩
  · exact nofun
  · exact nofun
  · exact nofun

theorem served_goes_on (chunked : r.chunked = true) (body : r.headerOnly = false)
    (served : Served r swaps ctx world) (unmarked : ∀ swap ∈ swaps, Unmarked swap.input)
    (limit : ∀ swap ∈ swaps, Limited swap) : Settled ctx world ∧ ∀ swap ∈ swaps, GoesOn swap := by
  induction served with
  | start unused =>
    exact ⟨start_settled unused, nofun⟩
  | call before leaves chainGiven nonempty keeps isCall ih =>
    obtain ⟨settled, earlier⟩ := ih
      (fun swap mem => unmarked swap (mem_append_left _ mem))
      (fun swap mem => limit swap (mem_append_left _ mem))
    have small := limited_small (limit _ mem_concat_self)
    obtain ⟨isFramed, quiet, after⟩ := call_goes_on chunked body (left_settled leaves settled) chainGiven
      nonempty (unmarked _ mem_concat_self) small keeps isCall
    refine ⟨after, ?_⟩
    intro swap mem
    rcases mem_append.1 mem with inEarlier | isNew
    · exact earlier swap inEarlier
    · rw [mem_singleton.1 isNew]
      exact ⟨isFramed, quiet⟩

theorem run_goes_on (goesOn : ∀ swap ∈ swaps, GoesOn swap) (limit : ∀ swap ∈ swaps, Limited swap)
    (rest : Bytes) : run ⟨.swChunkStart, 0⟩ (output swaps ++ rest) =
      (run ⟨.swChunkStart, 0⟩ rest).prepend (given swaps) := by
  induction swaps with
  | nil => exact (prepend_nil _).symm
  | cons swap swaps ih =>
    have others := ih (fun other mem => goesOn other (mem_cons_of_mem _ mem))
      (fun other mem => limit other (mem_cons_of_mem _ mem))
    have isFirst : output (swap :: swaps) = contents swap.handed ++ output swaps :=
      contents_append _ _
    have isGiven : given (swap :: swaps) = contents swap.input ++ given swaps :=
      contents_append _ _
    rw [isFirst, isGiven, (goesOn swap (mem_cons_self ..)).1, append_assoc,
      run_framed (limit swap (mem_cons_self ..)), others, prepend_prepend]

theorem only_last_split {front back : List Buf} (onlyLast : OnlyLast (front ++ back)) (some_ : back ≠ []) :
    Unmarked front ∧ OnlyLast back := by
  obtain ⟨quiet, b, isWhole, marked, unmarked⟩ := onlyLast
  obtain rfl | ⟨init, last, rfl⟩ := eq_nil_or_concat back
  · cases some_ rfl
  · rw [concat_eq_append, ← append_assoc] at isWhole
    obtain ⟨isQuiet, isLast⟩ := append_inj' isWhole rfl
    injection isLast with isLast
    subst isLast isQuiet
    refine ⟨fun other mem => unmarked other (mem_append_left _ mem), init, last, ?_, marked,
      fun other mem => unmarked other (mem_append_right _ mem)⟩
    exact concat_eq_append

theorem only_last_chain {chain : List Nat} {found : World} (onlyLast : OnlyLast (chain.map found.bufs)) :
    ∃ cl, chain.getLast? = some cl ∧ (found.bufs cl).lastBuf = true ∧
      ∀ addr ∈ chain, addr ≠ cl → (found.bufs addr).lastBuf = false := by
  obtain ⟨front, b, isWhole, marked, unmarked⟩ := onlyLast
  obtain rfl | ⟨init, cl, rfl⟩ := eq_nil_or_concat chain
  · exact absurd isWhole.symm (append_ne_nil_of_right_ne_nil _ (cons_ne_nil _ _))
  · rw [concat_eq_append, map_append] at isWhole
    obtain ⟨isFront, isLast⟩ := append_inj' isWhole rfl
    injection isLast with isLast
    refine ⟨cl, ?_, by rw [isLast]; exact marked, ?_⟩
    · rw [concat_eq_append]
      exact getLast?_concat
    · intro addr mem differ
      rw [concat_eq_append] at mem
      rcases mem_append.1 mem with inInit | isCl
      · rw [← isFront] at unmarked
        exact unmarked _ (mem_map_of_mem inInit)
      · exact absurd (mem_singleton.1 isCl) differ

theorem served_whole (chunked : r.chunked = true) (body : r.headerOnly = false)
    (served : Served r swaps ctx world) (onlyLast : OnlyLast (swaps.flatMap Exchange.input))
    (limit : ∀ swap ∈ swaps, Limited swap) :
    ∃ done last, swaps = done ++ [last] ∧ (∀ swap ∈ done, GoesOn swap) ∧
      contents last.handed = framed (contents last.input) true ∧ OnlyLast last.handed := by
  cases served with
  | start unused =>
    obtain ⟨front, b, isWhole, -⟩ := onlyLast
    exact absurd isWhole.symm (append_ne_nil_of_right_ne_nil _ (cons_ne_nil _ _))
  | @call done ctx world found chain next result before leaves chainGiven nonempty keeps isCall =>
    rw [flatMap_append, flatMap_singleton] at onlyLast
    obtain ⟨earlierQuiet, lastMarked⟩ := only_last_split onlyLast (by simpa using nonempty)
    have unmarked : ∀ swap ∈ done, Unmarked swap.input := fun swap mem b inInput =>
      earlierQuiet b (mem_flatMap.2 ⟨swap, mem, inInput⟩)
    obtain ⟨settled, goesOn⟩ := served_goes_on chunked body before unmarked
      fun swap mem => limit swap (mem_append_left _ mem)
    have small := limited_small (limit _ mem_concat_self)
    obtain ⟨cl, isLast, marked, others⟩ := only_last_chain lastMarked
    obtain ⟨isFramed, handedMarked⟩ := call_ends chunked body (left_settled leaves settled) chainGiven
      isLast marked others small isCall
    exact ⟨done, _, rfl, goesOn, isFramed, handedMarked⟩

theorem whole_handed_marked {last : Exchange} (goesOn : ∀ swap ∈ done, GoesOn swap)
    (marked : OnlyLast last.handed) : OnlyLast ((done ++ [last]).flatMap Exchange.handed) := by
  obtain ⟨front, b, isHanded, isMarked, unmarked⟩ := marked
  refine ⟨done.flatMap Exchange.handed ++ front, b, ?_, isMarked, ?_⟩
  · rw [flatMap_append, flatMap_singleton, isHanded, append_assoc]
  · intro other mem
    rcases mem_append.1 mem with inDone | inFront
    · obtain ⟨swap, inExchanges, inHanded⟩ := mem_flatMap.1 inDone
      exact (goesOn swap inExchanges).2 other inHanded
    · exact unmarked other inFront

theorem driven {bytes : Bytes} {bs : List Bytes} (isInput : bs.flatten = bytes) :
    ∃ outcome, driveAll initial bs = some outcome ∧
      report outcome = report (run ⟨.swChunkStart, 0⟩ bytes) := by
  obtain ⟨outcome, isOutcome, isReport⟩ := Option.map_eq_some_iff.1 (drive_all_report bs)
  refine ⟨outcome, isOutcome, ?_⟩
  rw [isReport, isInput]
  rfl

theorem run_before_end {whole first more : Bytes}
    (ends : run ⟨.swChunkStart, 0⟩ whole = .done data [])
    (isWhole : first ++ more = whole) (some_ : more ≠ []) :
    (report (run ⟨.swChunkStart, 0⟩ first)).1 = .ngxAgain := by
  have parts := run_append initial_proper first more
  change run ⟨.swChunkStart, 0⟩ (first ++ more) = resume (run ⟨.swChunkStart, 0⟩ first) more at parts
  rw [isWhole, ends] at parts
  cases early : run ⟨.swChunkStart, 0⟩ first with
  | again body ctx => rfl
  | error body =>
    rw [early] at parts
    cases parts
  | done body rest =>
    rw [early] at parts
    injection parts with _ isRest
    exact absurd (append_eq_nil_iff.1 isRest.symm).2 some_

/-- For a response given chain by chain, no chain with more bytes than the parser takes in
a chunk: what is handed on is decoded to what was given, with the end at the last byte and
not before, so not after fewer calls either; and only the last buffer is marked. -/
theorem chunked_output_decoded (chunked : r.chunked = true) (body : r.headerOnly = false)
    (served : Served r swaps ctx world) (onlyLast : OnlyLast (swaps.flatMap Exchange.input))
    (limit : ∀ swap ∈ swaps, (contents swap.input).length ≤ maxOffT / 16) :
    (∀ bs : List Bytes, bs.flatten = output swaps → ∃ outcome,
      driveAll initial bs = some outcome ∧ report outcome = (.ngxDone, given swaps, some [])) ∧
    (∀ first more : Bytes, first ++ more = output swaps → more ≠ [] →
      ∀ bs : List Bytes, bs.flatten = first → ∃ outcome,
        driveAll initial bs = some outcome ∧ (report outcome).1 = .ngxAgain) ∧
    (∀ count < swaps.length, ∀ bs : List Bytes, bs.flatten = output (swaps.take count) →
      ∃ outcome, driveAll initial bs = some outcome ∧
        report outcome = (.ngxAgain, given (swaps.take count), none)) ∧
    OnlyLast (swaps.flatMap Exchange.handed) := by
  obtain ⟨done, last, rfl, goesOn, isFramed, marked⟩ := served_whole chunked body served onlyLast limit
  have doneLimit : ∀ swap ∈ done, Limited swap :=
    fun swap mem => limit swap (mem_append_left _ mem)
  have ends : run ⟨.swChunkStart, 0⟩ (output (done ++ [last])) = .done (given (done ++ [last])) [] := by
    have isLast : output [last] = contents last.handed := congrArg contents (flatMap_singleton ..)
    have isInput : given [last] = contents last.input := congrArg contents (flatMap_singleton ..)
    rw [output_append, given_append, run_goes_on goesOn doneLimit, isLast, isInput, isFramed,
      run_framed_last (limit last mem_concat_self)]
    rfl
  refine ⟨?_, ?_, ?_, whole_handed_marked goesOn marked⟩
  · intro bs isInput
    obtain ⟨outcome, isOutcome, isReport⟩ := driven isInput
    refine ⟨outcome, isOutcome, ?_⟩
    rw [isReport, ends]
    rfl
  · intro first more isWhole some_ bs isInput
    obtain ⟨outcome, isOutcome, isReport⟩ := driven isInput
    refine ⟨outcome, isOutcome, ?_⟩
    rw [isReport]
    exact run_before_end ends isWhole some_
  · intro count fewer bs isInput
    obtain ⟨outcome, isOutcome, isReport⟩ := driven isInput
    refine ⟨outcome, isOutcome, ?_⟩
    rw [length_append, length_singleton] at fewer
    rw [take_append_of_le_length (Nat.le_of_lt_succ fewer)] at isReport ⊢
    have early := @run_goes_on (done.take count)
      (fun swap mem => goesOn swap (mem_of_mem_take mem))
      (fun swap mem => doneLimit swap (mem_of_mem_take mem)) []
    rw [append_nil] at early
    rw [isReport, early]
    exact congrArg (ReturnCode.ngxAgain, ·, none) (append_nil _)

end Runs

def sendAll : NextFilter := fun world _ =>
  (.ngxOk, { world with bufs := fun addr => { world.bufs addr with bytes := [] } })

theorem send_all_keeps (before : World) (out : List Nat) : Left before (sendAll before out).2 :=
  ⟨le_rfl, fun _ below => ⟨fun isOwn => ⟨below, isOwn⟩, And.right⟩, fun _ _ _ => rfl⟩

theorem left_self {world : World} : Left world world :=
  ⟨le_rfl, fun _ below => ⟨fun isOwn => ⟨below, isOwn⟩, And.right⟩, fun _ _ _ => rfl⟩

def chunkedRequest : Request := ⟨true, false⟩

/-- "ab" in memory, and an empty last buffer. -/
def twoBufs : World where
  bufs addr :=
    if addr = 0 then { bytes := ['a'.toUInt8, 'b'.toUInt8], memory := true }
    else { bytes := [], lastBuf := true }
  next := 2
  answers := List.replicate 9 true

def firstCall : Result :=
  (ngxHttpChunkedBodyFilter sendAll chunkedRequest ⟨[], []⟩ twoBufs [0]).get (by decide)

def secondCall : Result :=
  (ngxHttpChunkedBodyFilter sendAll chunkedRequest firstCall.ctx firstCall.world [1]).get (by decide)

def twoExchanges : List Exchange :=
  [⟨[0].map twoBufs.bufs, firstCall.handed⟩, ⟨[1].map firstCall.world.bufs, secondCall.handed⟩]

theorem two_exchanges_served : Served chunkedRequest twoExchanges secondCall.ctx secondCall.world := by
  have unused : ∀ addr < twoBufs.next, ¬Own twoBufs addr := by decide
  have firstGiven : Given twoBufs [0] := ⟨by decide, by decide, by decide⟩
  have secondGiven : Given firstCall.world [1] := ⟨by decide, by decide, by decide⟩
  exact .call (.call (.start unused) left_self firstGiven (by decide) send_all_keeps
    (Option.some_get _).symm) left_self secondGiven (by decide) send_all_keeps (Option.some_get _).symm

theorem two_bufs_decoded : ∃ outcome, driveAll initial [output twoExchanges] = some outcome ∧
    report outcome = (.ngxDone, ['a'.toUInt8, 'b'.toUInt8], some []) := by
  have unmarked : ∀ b ∈ [twoBufs.bufs 0], b.lastBuf = false := by decide
  have onlyLast : OnlyLast (twoExchanges.flatMap Exchange.input) :=
    ⟨[twoBufs.bufs 0], firstCall.world.bufs 1, by decide, by decide, unmarked⟩
  have limit : ∀ swap ∈ twoExchanges, (contents swap.input).length ≤ maxOffT / 16 := by decide
  exact (chunked_output_decoded rfl rfl two_exchanges_served onlyLast limit).1 _ (flatten_singleton)

def largeData : Bytes := List.replicate (2 ^ 59) 0

def largeBufs : World where
  bufs _ := { bytes := largeData, inFile := true, lastBuf := true }
  next := 1
  answers := List.replicate 9 true

def largeSize : Int := 2 ^ 59

def largeCopied : World := { largeBufs with answers := List.replicate 8 true }

theorem large_copied : copyChain largeBufs 0 [] [0] = some (largeSize, [0], largeCopied) := by
  have isSize : offT (0 + ngxBufSize (largeBufs.bufs 0)) = largeSize := by
    have isLength : ngxBufSize (largeBufs.bufs 0) = largeSize :=
      congrArg (Nat.cast : Nat → Int) (length_replicate : (List.replicate (2 ^ 59) (0 : Byte)).length = _)
    rw [isLength]
    decide
  rw [← isSize]
  rfl

theorem large_call : ∃ result,
    ngxHttpChunkedBodyFilter sendAll chunkedRequest ⟨[], []⟩ largeBufs [0] = some result := by
  have isCall : ngxHttpChunkedBodyFilter sendAll chunkedRequest ⟨[], []⟩ largeBufs [0] =
      (copyChain largeBufs 0 [] [0]).bind fun copied =>
        (putSize [] copied.2.2 copied.1).bind fun front =>
          (putEnd front.2.1 front.2.2 copied.1 0).bind fun back =>
            let out := link front.1 copied.2.1 back.1
            let sent := sendAll back.2.2 out
            let updated := ngxChainUpdateChains ⟨back.2.1, []⟩ out .ngxHttpChunkedFilterModule sent.2
            some ⟨sent.1, out.map back.2.2.bufs, updated.1, updated.2⟩ := rfl
  rw [isCall, large_copied]
  exact ⟨_, rfl⟩

def largeDigits : List Digit := ⟨⟨8, by decide⟩, false⟩ :: List.replicate 13 ⟨⟨0, by decide⟩, false⟩

theorem large_format : formatSize largeSize = largeDigits.map Digit.byte ++ ['0'.toUInt8] := by decide

theorem run_large_size (rest : Bytes) :
    run ⟨.swChunkStart, 0⟩ (formatSize largeSize ++ (cr :: rest)) = .error [] := by
  have isValue : valueFrom 0 largeDigits = 2 ^ 55 := by decide
  have zero : turn .swChunkSize (2 ^ 55) '0'.toUInt8 = .next .swChunkSize (2 ^ 59) := by decide
  have tooLarge : turn .swChunkSize (2 ^ 59) cr = .invalid := by decide
  rw [large_format, append_assoc, run_size (by decide) 0 (by rw [isValue]; decide), isValue,
    singleton_append, run_next _ zero, run_invalid _ tooLarge]

/-- A file of 2^59 bytes in one buffer: the parser refuses the size in front of it. -/
theorem large_chain_refused : ∃ swaps ctx world, Served chunkedRequest swaps ctx world ∧
    OnlyLast (swaps.flatMap Exchange.input) ∧ ∃ outcome,
      driveAll initial [output swaps] = some outcome ∧ (report outcome).1 = .ngxError := by
  obtain ⟨result, isCall⟩ := large_call
  have unused : ∀ addr < largeBufs.next, ¬Own largeBufs addr := by
    intro addr below isOwn
    cases isOwn
  have chainGiven : Given largeBufs [0] := by
    refine ⟨by decide, ?_, fun _ _ _ => .inr rfl⟩
    intro addr mem isOwn
    cases isOwn
  have served := Served.call (.start unused) left_self chainGiven (cons_ne_nil 0 []) send_all_keeps
    isCall
  have isData : contents ([0].map largeBufs.bufs) = largeData := append_nil _
  have isLength : largeData.length = 2 ^ 59 := length_replicate
  have some_ : largeData ≠ [] := by
    intro none_
    rw [none_] at isLength
    exact absurd isLength (by decide)
  obtain ⟨isFramed, -⟩ := call_ends rfl rfl (start_settled unused) chainGiven rfl rfl
    (fun addr mem differ => absurd (mem_singleton.1 mem) differ)
    (by rw [isData, isLength]; decide) isCall
  have isOutput : output ([] ++ [⟨[0].map largeBufs.bufs, result.handed⟩]) =
      formatSize largeSize ++ (cr :: lf :: (largeData ++ lastChunk)) := by
    have isHanded : output ([] ++ [⟨[0].map largeBufs.bufs, result.handed⟩]) = contents result.handed :=
      congrArg contents (append_nil _)
    rw [isHanded, isFramed, isData, framed, if_neg some_, isLength]
    rfl
  obtain ⟨outcome, isOutcome, isReport⟩ := driven flatten_singleton
  refine ⟨_, _, _, served, ⟨[], largeBufs.bufs 0, rfl, rfl, nofun⟩,
    outcome, isOutcome, ?_⟩
  rw [isReport, isOutput, run_large_size]
  rfl

end ServerCore.NginxHttpChunkedFilterDecoding
