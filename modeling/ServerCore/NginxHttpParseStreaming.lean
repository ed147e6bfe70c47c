import ServerCore.NginxHttpParse

/-!
# Cutting the input of the parsers

Both parsers look back only to the start of the method or of the header name,
so a step depends on the buffer up to its own byte and the input may be cut
anywhere.
-/

namespace ServerCore.NginxHttpParseStreaming

open ResumableScan NginxHttpParse

variable {fields : Fields}

variable {left right : Nat → Byte}

theorem ngx_str_cmp_local {start position : Nat} {text : String}
    (same : ∀ index ≤ position, left index = right index)
    (inside : start + text.toList.length ≤ position + 1) :
    ngxStrCmp left start text = ngxStrCmp right start text := by
  rw [ngxStrCmp, ngxStrCmp, Bool.eq_iff_iff, List.all_eq_true, List.all_eq_true]
  apply forall₂_congr
  intro entry mem
  have bound := List.snd_lt_of_mem_zipIdx mem
  rw [same (start + entry.2) (by omega)]

variable {p : Nat} {r : Request} {ch : Byte} {input : Nat → Byte}

namespace RequestLine

open NginxHttpParse.RequestLine

/-- A method that is being read has started at a byte already passed. -/
def Started (r : Request) (p : Nat) : Prop :=
  r.state = .swMethod → ∃ m, r.fields.requestStart = some m ∧ m ≤ p

theorem method_of_local {m : Nat} {method : HttpMethod} (same : ∀ index ≤ p, left index = right index)
    (order : m ≤ p) : methodOf left m (p - m) method = methodOf right m (p - m) method := by
  have text : ∀ text : String, text.toList.length ≤ p - m + 1 →
      ngxStrCmp left m text = ngxStrCmp right m text :=
    fun text short => ngx_str_cmp_local same (by omega)
  have second : p - m = 4 → left (m + 1) = right (m + 1) := fun four => same _ (by omega)
  generalize p - m = length at text second
  by_cases three : length = 3
  · subst three
    simp [methodOf, text "GET " (by decide), text "PUT " (by decide)]
  by_cases four : length = 4
  · subst four
    simp [methodOf, second rfl, text "POST" (by decide), text "COPY" (by decide),
      text "MOVE" (by decide), text "LOCK" (by decide), text "HEAD" (by decide)]
  by_cases five : length = 5
  · subst five
    simp [methodOf, text "MKCOL" (by decide), text "PATCH" (by decide), text "TRACE" (by decide)]
  by_cases six : length = 6
  · subst six
    simp [methodOf, text "DELETE" (by decide), text "UNLOCK" (by decide)]
  by_cases seven : length = 7
  · subst seven
    simp [methodOf, text "OPTIONS " (by decide)]
  by_cases eight : length = 8
  · subst eight
    simp [methodOf, text "PROPFIND" (by decide)]
  by_cases nine : length = 9
  · subst nine
    simp [methodOf, text "PROPPATCH" (by decide)]
  · simp [methodOf, three, four, five, six, seven, eight, nine]

theorem step_local (started : Started r p) (same : ∀ index ≤ p, left index = right index) :
    step left r p ch = step right r p ch := by
  obtain ⟨state, fields⟩ := r
  cases state with
  | swMethod =>
    obtain ⟨m, start, order⟩ := started rfl
    simp only [step, swMethod] at start ⊢
    rw [start, Option.getD_some, method_of_local same order]
  | _ => rfl

theorem step_started
    (started : Started r p) : (step input r p ch).GoesOn fun next => Started next (p + 1) := by
  obtain ⟨state, fields⟩ := r
  cases state with
  | swStart => simp [step, swStart, Started, go, invalidMethod]
  | swMethod =>
    obtain ⟨m, start, order⟩ := started rfl
    have later : ∃ m', fields.requestStart = some m' ∧ m' ≤ p + 1 :=
      ⟨m, start, Nat.le_succ_of_le order⟩
    simp [step, swMethod, Started, go, invalidMethod, later]
  | swSpacesBeforeUri => simp [step, swSpacesBeforeUri, Started, go, invalidRequest]
  | swSchema => simp [step, swSchema, Started, go, invalidRequest]
  | swHostStart => simp [step, swHostStart, swHost, swHostEnd, Started, go, invalidRequest]
  | swHost => simp [step, swHost, swHostEnd, Started, go, invalidRequest]
  | swHostEnd => simp [step, swHostEnd, Started, go, invalidRequest]
  | swHostIpLiteral => simp [step, swHostIpLiteral, Started, go, invalidRequest]
  | swPort => simp [step, swPort, Started, go, invalidRequest]
  | swHostHttp09 => simp [step, swHostHttp09, beforeProtocol, Started, go, done, invalidRequest]
  | swAfterSlashInUri => simp [step, swAfterSlashInUri, Started, go, done, invalidRequest]
  | swCheckUri => simp [step, swCheckUri, Started, go, done, invalidRequest]
  | swCheckUriHttp09 =>
    simp [step, swCheckUriHttp09, beforeProtocol, swCheckUri, Started, go, done, invalidRequest]
  | swUri => simp [step, swUri, Started, go, done, invalidRequest]
  | swHttp09 => simp [step, swHttp09, beforeProtocol, swUri, Started, go, done, invalidRequest]
  | swFirstMajorDigit => simp [step, swFirstMajorDigit, Started, go, invalidRequest]
  | swMajorDigit => simp [step, swMajorDigit, Started, go, invalidRequest]
  | swFirstMinorDigit => simp [step, swFirstMinorDigit, Started, go, invalidRequest]
  | swMinorDigit => simp [step, swMinorDigit, Started, go, done, invalidRequest]
  | swSpacesAfterDigit => simp [step, swSpacesAfterDigit, Started, go, done, invalidRequest]
  | swAlmostDone => simp [step, swAlmostDone, done, invalidRequest]
  | _ =>
    simp [step, swSchemaSlash, swSchemaSlashSlash, swHttpH, swHttpHT, swHttpHTT, swHttpHTTP, expect,
      Started, go, invalidRequest]

theorem step_causal : Causal step Started where
  kept _ _ _ _ started := step_started started
  local_ _ _ _ _ _ started same := step_local started same

theorem feed_pieces_eq (pieces : List Bytes) (r : Request) (b : Buf) : feedPieces r b pieces =
      conclude (feed step 0 r b.pos b.data pieces).1.1 (feed step 0 r b.pos b.data pieces).1.2
        (feed step 0 r b.pos b.data pieces).2 := by
  induction pieces generalizing r b with
  | nil => rfl
  | cons piece pieces ih =>
    rw [feedPieces, ngxHttpParseRequestLine, feed]
    generalize scanRest step 0 r b.pos b.data = outcome
    obtain ⟨verdict, reached⟩ := outcome
    cases verdict with
    | more next => exact ih next ⟨reached, b.data ++ piece⟩
    | stop reason =>
      cases reason with
      | done fields =>
        have ended : (finishDone fields reached).rc ≠ .ngxAgain := by
          simp only [finishDone]
          split_ifs <;> simp
        simp [conclude, ended]
      | invalidMethod fields => simp [conclude]
      | invalidRequest fields => simp [conclude]

theorem conclude_agree (first second : Request) (firstPos secondPos : Nat) (outcome : Outcome × Nat) :
    let left := conclude first firstPos outcome
    let right := conclude second secondPos outcome
    left.rc = right.rc ∧ left.r.fields = right.r.fields ∧
      (right.rc = .ngxOk ∨ right.rc = .ngxAgain ∨ right.rc = .ngxHttpParseInvalid09Method →
        left = right) := by
  obtain ⟨verdict, reached⟩ := outcome
  cases verdict with
  | more next => simp [conclude]
  | stop reason => cases reason <;> simp [conclude]

theorem feed_pieces_agree (r : Request) (b : Buf) (pieces : List Bytes)
    (fresh : r.state = .swStart) (inside : b.pos ≤ b.data.length) : let cut := feedPieces r b pieces
    let whole := ngxHttpParseRequestLine r ⟨b.pos, b.data ++ pieces.flatten⟩
    cut.rc = whole.rc ∧ cut.r.fields = whole.r.fields ∧
      (whole.rc = .ngxOk ∨ whole.rc = .ngxAgain ∨ whole.rc = .ngxHttpParseInvalid09Method →
        cut = whole) := by
  have started : Started r b.pos := by
    intro isMethod
    rw [fresh] at isMethod
    exact absurd isMethod (by decide)
  rw [feed_pieces_eq, feed_verdict step_causal 0 pieces started inside, ngxHttpParseRequestLine]
  exact conclude_agree _ _ _ _ _

end RequestLine

namespace HeaderLine

open NginxHttpParse.HeaderLine

/-- A name that is being read has started at a byte already passed. -/
def Started (r : Request) (p : Nat) : Prop :=
  r.state = .swName → ∃ m, r.fields.headerNameStart = some m ∧ m ≤ p

variable {allow : Bool}

theorem step_local (started : Started r p) (same : ∀ index ≤ p, left index = right index) :
    step allow left r p ch = step allow right r p ch := by
  obtain ⟨state, hash, index, fields⟩ := r
  cases state with
  | swName =>
    obtain ⟨m, start, order⟩ := started rfl
    have length : "HTTP".toList.length = 4 := by decide
    have text : p - m = 4 → ngxStrCmp left m "HTTP" = ngxStrCmp right m "HTTP" := fun four =>
      ngx_str_cmp_local same (by rw [length]; omega)
    have look : (p - m = 4 ∧ ngxStrCmp left m "HTTP" = true) =
        (p - m = 4 ∧ ngxStrCmp right m "HTTP" = true) :=
      propext (and_congr_right fun four => by rw [text four])
    simp only [step, swName] at start ⊢
    simp [start, look]
  | _ => rfl

theorem step_started (started : Started r p) :
    (step allow input r p ch).GoesOn fun next => Started next (p + 1) := by
  obtain ⟨state, hash, index, fields⟩ := r
  cases state with
  | swStart => simp [step, swStart, Started, go, firstByte, invalidHeader]
  | swName =>
    obtain ⟨m, start, order⟩ := started rfl
    have later : ∃ m', fields.headerNameStart = some m' ∧ m' ≤ p + 1 :=
      ⟨m, start, Nat.le_succ_of_le order⟩
    simp [step, swName, Started, go, done, nextByte, invalidHeader, later]
  | swSpaceBeforeValue => simp [step, swSpaceBeforeValue, Started, go, done, invalidHeader]
  | swValue => simp [step, swValue, Started, go, done, invalidHeader]
  | swSpaceAfterValue => simp [step, swSpaceAfterValue, Started, go, done, invalidHeader]
  | swIgnoreLine => simp [step, swIgnoreLine, Started, go]
  | swAlmostDone => simp [step, swAlmostDone, Started, go, done, invalidHeader]
  | swHeaderAlmostDone => simp [step, swHeaderAlmostDone, invalidHeader]

theorem step_causal (allow : Bool) : Causal (step allow) Started where
  kept _ _ _ _ started := step_started started
  local_ _ _ _ _ _ started same := step_local started same

theorem feed_pieces_eq (allow : Bool) (pieces : List Bytes) (r : Request) (b : Buf) :
    feedPieces allow r b pieces =
      conclude (feed (step allow) 0 r b.pos b.data pieces).1.1
        (feed (step allow) 0 r b.pos b.data pieces).1.2
        (feed (step allow) 0 r b.pos b.data pieces).2 := by
  induction pieces generalizing r b with
  | nil => rfl
  | cons piece pieces ih =>
    rw [feedPieces, ngxHttpParseHeaderLine, feed]
    generalize scanRest (step allow) 0 r b.pos b.data = outcome
    obtain ⟨verdict, reached⟩ := outcome
    cases verdict with
    | more next => exact ih next ⟨reached, b.data ++ piece⟩
    | stop reason => cases reason <;> simp [conclude]

/-- A parser that has begun a header, without an upstream that may repeat the
status line. -/
def Named (r : Request) : Prop :=
  r.fields.upstream = false ∧ r.state ≠ .swStart ∧ r.state ≠ .swHeaderAlmostDone ∧
    r.state ≠ .swIgnoreLine

/-- A parser that has begun no header: its hash and index are those of `base`. -/
def Untouched (base r : Request) : Prop :=
  r.fields.upstream = false ∧ (r.state = .swStart ∨ r.state = .swHeaderAlmostDone) ∧
    r.headerHash = base.headerHash ∧ r.lowcaseIndex = base.lowcaseIndex

section

variable {allow : Bool} {input : Nat → Byte}

theorem step_named (named : Named r) : (step allow input r p ch).GoesOn Named := by
  obtain ⟨state, hash, index, fields⟩ := r
  obtain ⟨noUpstream, notStart, notDone, notIgnored⟩ := named
  dsimp only at noUpstream notStart notDone notIgnored
  cases state with
  | swStart => cases notStart rfl
  | swHeaderAlmostDone => cases notDone rfl
  | swIgnoreLine => cases notIgnored rfl
  | swName => simp [step, swName, Named, go, done, nextByte, invalidHeader, noUpstream]
  | swSpaceBeforeValue =>
    simp [step, swSpaceBeforeValue, Named, go, done, invalidHeader, noUpstream]
  | swValue => simp [step, swValue, Named, go, done, invalidHeader, noUpstream]
  | swSpaceAfterValue => simp [step, swSpaceAfterValue, Named, go, done, invalidHeader, noUpstream]
  | swAlmostDone => simp [step, swAlmostDone, Named, go, done, invalidHeader, noUpstream]

theorem step_untouched {base : Request} (known : Untouched base r ∨ Named r) :
    (step allow input r p ch).GoesOn fun next => Untouched base next ∨ Named next := by
  rcases known with ⟨noUpstream, state, hash, index⟩ | named
  · obtain ⟨state, _, _, fields⟩ := r
    dsimp only at noUpstream state hash index
    rcases state with rfl | rfl
    · simp [step, swStart, Named, Untouched, go, firstByte, invalidHeader, noUpstream, hash, index]
    · simp [step, swHeaderAlmostDone, invalidHeader]
  · exact goes_on_imp (fun next => Or.inr) (step_named named)

theorem named_not_header_done (named : Named r) :
    step allow input r p ch ≠ .stop (.headerDone fields) := by
  obtain ⟨state, hash, index, fields⟩ := r
  obtain ⟨-, notStart, notDone, -⟩ := named
  intro stopped
  cases state with
  | swStart => exact notStart rfl
  | swHeaderAlmostDone => exact notDone rfl
  | swName =>
    simp only [step, swName, go, done, nextByte, invalidHeader] at stopped
    split_ifs at stopped <;> simp at stopped
  | swSpaceBeforeValue =>
    simp only [step, swSpaceBeforeValue, go, done, invalidHeader] at stopped
    split_ifs at stopped <;> simp at stopped
  | swValue =>
    simp only [step, swValue, go, done, invalidHeader] at stopped
    split_ifs at stopped <;> simp at stopped
  | swSpaceAfterValue =>
    simp only [step, swSpaceAfterValue, go, done, invalidHeader] at stopped
    split_ifs at stopped <;> simp at stopped
  | swIgnoreLine =>
    simp only [step, swIgnoreLine, go] at stopped
    split_ifs at stopped
  | swAlmostDone =>
    simp only [step, swAlmostDone, go, done, invalidHeader] at stopped
    split_ifs at stopped <;> simp at stopped

end

theorem conclude_agree (first second : Request) (firstPos secondPos : Nat) (outcome : Outcome × Nat) :
    let left := conclude first firstPos outcome
    let right := conclude second secondPos outcome
    left.rc = right.rc ∧ left.r.fields = right.r.fields ∧
      (right.rc = .ngxOk ∨ right.rc = .ngxAgain → left = right) ∧
      (right.rc = .ngxHttpParseHeaderDone → left.pos = right.pos ∧ left.r.state = right.r.state ∧
        (first.headerHash = second.headerHash → first.lowcaseIndex = second.lowcaseIndex →
          left = right)) := by
  obtain ⟨verdict, reached⟩ := outcome
  cases verdict with
  | more next => simp [conclude]
  | stop reason => cases reason <;> simp +contextual [conclude]

theorem feed_header_done {b : Buf} {pieces : List Bytes} {reached : Nat}
    (fresh : r.state = .swStart) (noUpstream : r.fields.upstream = false)
    (ended : (feed (step allow) 0 r b.pos b.data pieces).2 =
      (.stop (.headerDone fields), reached)) :
    (feed (step allow) 0 r b.pos b.data pieces).1.1.headerHash = r.headerHash ∧
      (feed (step allow) 0 r b.pos b.data pieces).1.1.lowcaseIndex = r.lowcaseIndex := by
  obtain ⟨last, lastVerdict⟩ := feed_last (step allow) 0 r b.pos b.data pieces
  rw [ended] at lastVerdict
  have known : Untouched r (feed (step allow) 0 r b.pos b.data pieces).1.1 ∨
      Named (feed (step allow) 0 r b.pos b.data pieces).1.1 := by
    apply feed_started (fun _ _ _ _ known => step_untouched known) pieces
    exact .inl ⟨noUpstream, .inl fresh, rfl, rfl⟩
  rcases known with untouched | named
  · exact untouched.2.2
  · obtain ⟨stopping, place, symbol, stillNamed, stopped⟩ :=
      scan_stopped (fun _ _ _ _ known => step_named known) named lastVerdict.symm
    exact absurd stopped (named_not_header_done stillNamed)

theorem conclude_header_done {pos : Nat} {outcome : Outcome × Nat}
    (ended : (conclude r pos outcome).rc = .ngxHttpParseHeaderDone) :
    ∃ fields reached, outcome = (.stop (.headerDone fields), reached) := by
  obtain ⟨verdict, reached⟩ := outcome
  cases verdict with
  | more next => simp [conclude] at ended
  | stop reason =>
    cases reason with
    | headerDone fields => exact ⟨fields, reached, rfl⟩
    | done saved => simp [conclude] at ended
    | error fields => simp [conclude] at ended

theorem feed_pieces_agree (allow : Bool) (r : Request) (b : Buf)
    (pieces : List Bytes) (fresh : r.state = .swStart) (inside : b.pos ≤ b.data.length) :
    let cut := feedPieces allow r b pieces
    let whole := ngxHttpParseHeaderLine r ⟨b.pos, b.data ++ pieces.flatten⟩ allow
    cut.rc = whole.rc ∧ cut.r.fields = whole.r.fields ∧
      (whole.rc = .ngxOk ∨ whole.rc = .ngxAgain → cut = whole) ∧
      (whole.rc = .ngxHttpParseHeaderDone → cut.pos = whole.pos ∧ cut.r.state = whole.r.state ∧
        (r.fields.upstream = false → cut = whole)) := by
  have started : Started r b.pos := by
    intro isName
    rw [fresh] at isName
    exact absurd isName (by decide)
  have verdict := feed_verdict (step_causal allow) 0 pieces started inside
  have agree := conclude_agree (feed (step allow) 0 r b.pos b.data pieces).1.1 r
    (feed (step allow) 0 r b.pos b.data pieces).1.2 b.pos
    (feed (step allow) 0 r b.pos b.data pieces).2
  rw [feed_pieces_eq, ngxHttpParseHeaderLine, ← verdict]
  refine ⟨agree.1, agree.2.1, agree.2.2.1, fun ended => ?_⟩
  obtain ⟨position, state, same⟩ := agree.2.2.2 ended
  refine ⟨position, state, fun noUpstream => ?_⟩
  obtain ⟨fields, reached, stopped⟩ := conclude_header_done ended
  obtain ⟨hash, index⟩ := feed_header_done fresh noUpstream stopped
  exact same hash index

end HeaderLine

/-- The input of both parsers may be cut anywhere: return code and fields are
those of one call on the whole of it. So are the position, the state and the
header's hash and index, except those that a return does not store. -/
theorem parsers_stream (pieces : List Bytes) (b : Buf) (inside : b.pos ≤ b.data.length) :
    (∀ r : NginxHttpParse.RequestLine.Request, r.state = .swStart →
      let cut := NginxHttpParse.RequestLine.feedPieces r b pieces
      let whole := NginxHttpParse.RequestLine.ngxHttpParseRequestLine r
        ⟨b.pos, b.data ++ pieces.flatten⟩
      cut.rc = whole.rc ∧ cut.r.fields = whole.r.fields ∧
        (whole.rc = .ngxOk ∨ whole.rc = .ngxAgain ∨ whole.rc = .ngxHttpParseInvalid09Method →
          cut = whole)) ∧
    ∀ (r : NginxHttpParse.HeaderLine.Request) (allow : Bool), r.state = .swStart →
      let cut := NginxHttpParse.HeaderLine.feedPieces allow r b pieces
      let whole := NginxHttpParse.HeaderLine.ngxHttpParseHeaderLine r
        ⟨b.pos, b.data ++ pieces.flatten⟩ allow
      cut.rc = whole.rc ∧ cut.r.fields = whole.r.fields ∧
        (whole.rc = .ngxOk ∨ whole.rc = .ngxAgain → cut = whole) ∧
        (whole.rc = .ngxHttpParseHeaderDone → cut.pos = whole.pos ∧ cut.r.state = whole.r.state ∧
          (r.fields.upstream = false → cut = whole)) := by
  constructor
  · intro r fresh
    exact RequestLine.feed_pieces_agree r b pieces fresh inside
  · intro r allow fresh
    exact HeaderLine.feed_pieces_agree allow r b pieces fresh inside

def bytesOf (text : String) : Bytes := text.toList.map Char.toUInt8

theorem parsers_stream_get : (NginxHttpParse.RequestLine.feedPieces {} ⟨0, bytesOf "GET /a b"⟩
        [bytesOf " HT", bytesOf "TP/1.1\r", bytesOf "\n"]).rc = .ngxOk ∧
      NginxHttpParse.RequestLine.feedPieces {} ⟨0, bytesOf "GET /a b"⟩
        [bytesOf " HT", bytesOf "TP/1.1\r", bytesOf "\n"] =
        NginxHttpParse.RequestLine.ngxHttpParseRequestLine {} ⟨0, bytesOf "GET /a b HTTP/1.1\r\n"⟩ ∧
      NginxHttpParse.HeaderLine.feedPieces false {} ⟨2, bytesOf "xxHo"⟩ [bytesOf "st", bytesOf ": a\n"] =
        NginxHttpParse.HeaderLine.ngxHttpParseHeaderLine {} ⟨2, bytesOf "xxHost: a\n"⟩ false := by
  have line := (parsers_stream [bytesOf " HT", bytesOf "TP/1.1\r", bytesOf "\n"]
    ⟨0, bytesOf "GET /a b"⟩ (by decide)).1 {} rfl
  have header := (parsers_stream [bytesOf "st", bytesOf ": a\n"] ⟨2, bytesOf "xxHo"⟩ (by decide)).2
    {} false rfl
  exact ⟨by decide, line.2.2 (.inl (by decide)), header.2.2.1 (.inl (by decide))⟩

/-- A control character in the method, and a zero byte in a name. -/
theorem cut_error_differs : (NginxHttpParse.RequestLine.feedPieces {} ⟨0, bytesOf "G"⟩ [[1]]).pos = 1 ∧
      (NginxHttpParse.RequestLine.ngxHttpParseRequestLine {} ⟨0, bytesOf "G" ++ [1]⟩).pos = 0 ∧
      (NginxHttpParse.HeaderLine.feedPieces false {} ⟨0, bytesOf "a"⟩ [[0]]).r.headerHash = 97 ∧
      (NginxHttpParse.HeaderLine.ngxHttpParseHeaderLine {} ⟨0, bytesOf "a" ++ [0]⟩ false).r.headerHash =
        0 := by
  decide

end ServerCore.NginxHttpParseStreaming
