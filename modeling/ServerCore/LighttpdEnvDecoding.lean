import ServerCore.ItemStream
import ServerCore.LighttpdFastcgiFraming
import ServerCore.LighttpdScgi

/-!
# Environments are read back by the backends

The readers follow the FastCGI rules for name-value pairs, the netstring with
NUL-terminated texts of SCGI, and the packet of uwsgi.
-/

namespace ServerCore.LighttpdEnvDecoding

open LighttpdChunk LighttpdFastcgi LighttpdFastcgiFraming LighttpdScgi PositionalText ItemStream List

variable {pairs : List Pair}
variable {text : Bytes}

def readBytes (size : Nat) (text : Bytes) : Option (Bytes × Bytes) :=
  if size ≤ text.length then some (text.splitAt size) else none

/-- One byte, or four where the highest bit is set. -/
def readFcgiLength : Bytes → Option (Nat × Bytes)
  | [] => none
  | first :: rest =>
    if first < 0x80 then some (first.toNat, rest)
    else
      match rest with
      | b2 :: b1 :: b0 :: rest =>
        some ((((first.toNat - 128) * 256 + b2.toNat) * 256 + b1.toNat) * 256 + b0.toNat, rest)
      | _ => none

def readFcgiPair (text : Bytes) : Option (Pair × Bytes) := do
  let (keyLen, rest) ← readFcgiLength text
  let (valLen, rest) ← readFcgiLength rest
  let (key, rest) ← readBytes keyLen rest
  let (val, rest) ← readBytes valLen rest
  return ((key, val), rest)

def readToNul : Bytes → Option (Bytes × Bytes)
  | [] => none
  | byte :: rest => if byte = 0 then some ([], rest) else (readToNul rest).map fun taken =>
      (byte :: taken.1, taken.2)

def readScgiPair (text : Bytes) : Option (Pair × Bytes) := do
  let (key, rest) ← readToNul text
  let (val, rest) ← readToNul rest
  return ((key, val), rest)

/-- The digits in front of a colon. -/
def readSize : Nat → Bytes → Option (Nat × Bytes)
  | _, [] => none
  | number, byte :: rest =>
    if byte = ':'.toUInt8 then some (number, rest)
    else if '0'.toUInt8 ≤ byte ∧
      byte ≤ '9'.toUInt8 then readSize (number * 10 + (byte.toNat - '0'.toNat)) rest
    else none

/-- What a netstring holds that is not empty. Its size begins with another digit than 0. -/
def readNetstring (text : Bytes) : Option Bytes :=
  if text.head?.all fun first => '1'.toUInt8 ≤ first ∧ first ≤ '9'.toUInt8 then
    (readSize 0 text).bind fun taken =>
      if taken.2.drop taken.1 = [','.toUInt8] then some (taken.2.take taken.1) else none
  else none

def littleEndian (bytes : Bytes) : Nat := bytes.foldr (fun byte number => byte.toNat + 256 * number) 0

def readUwsgiText (text : Bytes) : Option (Bytes × Bytes) :=
  (readBytes 2 text).bind fun taken => readBytes (littleEndian taken.1) taken.2

def readUwsgiPair (text : Bytes) : Option (Pair × Bytes) := do
  let (key, rest) ← readUwsgiText text
  let (val, rest) ← readUwsgiText rest
  return ((key, val), rest)

/-- The variables of a packet, behind a modifier, their size and another modifier. -/
def readUwsgiPacket : Bytes → Option Bytes
  | 0 :: low :: high :: 0 :: vars => if littleEndian [low, high] = vars.length then some vars else none
  | _ => none

theorem read_bytes (text rest : Bytes) : readBytes text.length (text ++ rest) = some (text, rest) := by
  simp [readBytes]

theorem read_length {len : Nat} (small : len < 65536) (rest : Bytes) :
    readFcgiLength (lengthBytes len ++ rest) = some (len, rest) := by
  have low : len &&& 0xff = len % 256 := Nat.and_two_pow_sub_one_eq_mod len 8
  unfold lengthBytes
  split_ifs with large
  · have second : len >>> 8 &&& 0xff = len / 256 := by
      rw [Nat.shiftRight_eq_div_pow]
      exact (Nat.and_two_pow_sub_one_eq_mod _ 8).trans (Nat.mod_eq_of_lt (by omega))
    have third : len >>> 16 = 0 := by
      rw [Nat.shiftRight_eq_div_pow]
      omega
    have fourth : len >>> 24 = 0 := by
      rw [Nat.shiftRight_eq_div_pow]
      omega
    rw [low, second, third, fourth]
    simp [readFcgiLength]
    omega
  · rw [low, Nat.mod_eq_of_lt (by omega)]
    have first : UInt8.ofNat len < 0x80 := by
      rw [UInt8.lt_iff_toNat_lt, UInt8.toNat_ofNat', Nat.mod_eq_of_lt (by omega)]
      exact Nat.lt_succ_of_le (not_lt.mp large)
    simp [readFcgiLength, first]
    omega

theorem read_fcgi_pair {pair : Pair} (small : (fcgiPair pair.1 pair.2).length < fcgiMaxLength)
    (rest : Bytes) :
    readFcgiPair (fcgiPair pair.1 pair.2 ++ rest) = some (pair, rest) := by
  simp only [fcgiPair, length_append, fcgiMaxLength] at small
  simp only [readFcgiPair, fcgiPair, append_assoc]
  rw [read_length (by omega)]
  simp only [Option.bind_eq_bind, Option.bind_some]
  rw [read_length (by omega)]
  simp only [Option.bind_some, read_bytes, pure]

theorem fcgi_append_eq (env : Bytes) (pair : Pair) : fcgiEnvAppend env pair =
    if env.length + (fcgiPair pair.1 pair.2).length < fcgiMaxLength then (0, env ++ fcgiPair pair.1 pair.2)
    else (-1, env) := by
  rw [fcgiEnvAppend, fcgi_env_add_eq]
  split_ifs <;> rfl

theorem fcgi_run (pairs : List Pair) {env : Bytes} (fits : env.length < fcgiMaxLength) :
    let result := appendAll fcgiEnvAppend env pairs
    result.2 = env ++ result.1.flatMap (fun pair => fcgiPair pair.1 pair.2) ∧
      result.2.length < fcgiMaxLength := by
  induction pairs generalizing env with
  | nil => exact ⟨(append_nil env).symm, fits⟩
  | cons pair pairs ih =>
    simp only [appendAll, fcgi_append_eq]
    by_cases accepted : env.length + (fcgiPair pair.1 pair.2).length < fcgiMaxLength
    · obtain ⟨isText, isShort⟩ := ih (length_append.trans_lt accepted)
      rw [if_pos accepted, if_pos rfl]
      refine ⟨?_, isShort⟩
      rw [isText, flatMap_cons, append_assoc]
    · rw [if_neg accepted, if_neg (show (-1 : Int) ≠ 0 by decide)]
      exact ih fits

theorem fcgi_decodes (pairs : List Pair) : let result := appendAll fcgiEnvAppend [] pairs
    decode readFcgiPair result.2 = some result.1 ∧ result.2.length < fcgiMaxLength := by
  obtain ⟨isText, isShort⟩ := @fcgi_run pairs [] (by decide)
  refine ⟨?_, isShort⟩
  rw [isText] at isShort ⊢
  apply decode_encode
  · intro pair mem rest
    apply read_fcgi_pair
    exact (sublist_flatten_of_mem (mem_map_of_mem mem)).length_le.trans_lt isShort
  · intro pair
    simp only [fcgiPair, lengthBytes]
    split_ifs <;> simp

theorem headers_eq {append : HeaderAppend} {refused : Pair → Bool} {encode : Pair → Bytes}
    (isAppend : ∀ env pair, append env pair = if refused pair then (-1, env) else (0, env ++ encode pair))
    (pairs : List Pair) : cgiHeaders append pairs =
      (pairs.any refused, (pairs.filter fun pair => !refused pair).flatMap encode) := by
  have from_ (failed : Bool) (env : Bytes) : pairs.foldl (fun state pair =>
      (state.1 || (append state.2 pair).1 ≠ 0, (append state.2 pair).2)) (failed, env) =
      (failed || pairs.any refused, env ++ (pairs.filter fun pair => !refused pair).flatMap encode) := by
    induction pairs generalizing failed env with
    | nil => simp
    | cons pair pairs ih =>
      rw [foldl_cons, ih, isAppend]
      cases isRefused : refused pair <;> simp [isRefused]
  exact from_ false []

def scgiPair (pair : Pair) : Bytes := pair.1 ++ [0] ++ pair.2 ++ [0]

theorem read_to_nul (plain : 0 ∉ text) (rest : Bytes) :
    readToNul (text ++ [0] ++ rest) = some (text, rest) := by
  induction text with
  | nil => rfl
  | cons byte text ih =>
    have ordinary : byte ≠ 0 := fun isNul => plain (isNul ▸ mem_cons_self)
    have later := ih fun mem => plain (mem_cons_of_mem _ mem)
    rw [cons_append, cons_append, readToNul, if_neg ordinary, later]
    rfl

theorem scgi_decodes (plain : ∀ pair ∈ pairs, 0 ∉ pair.1 ∧ 0 ∉ pair.2) :
    decode readScgiPair (pairs.flatMap scgiPair) = some pairs := by
  apply decode_encode
  · intro pair mem rest
    have key := read_to_nul (plain pair mem).1 (pair.2 ++ [0] ++ rest)
    have val := read_to_nul (plain pair mem).2 rest
    simp only [append_assoc] at key val
    simp only [readScgiPair, scgiPair, append_assoc, Option.bind_eq_bind, key, val, Option.bind_some, pure]
  · intro pair
    simp [scgiPair]

theorem read_size (number : Nat) (rest : Bytes) :
    readSize 0 (utostr number ++ [':'.toUInt8] ++ rest) = some (number, rest) := by
  have digits : ∀ next < 10, UInt8.ofNat ('0'.toNat + next) ≠ ':'.toUInt8 ∧
      ('0'.toUInt8 ≤ UInt8.ofNat ('0'.toNat + next) ∧ UInt8.ofNat ('0'.toNat + next) ≤ '9'.toUInt8) ∧
      (UInt8.ofNat ('0'.toNat + next)).toNat - '0'.toNat = next := by
    decide
  have whole := @read_numeral _ (number + 1) number (utostr number).length 10
    (fun digit => UInt8.ofNat ('0'.toNat + digit)) _
      (fun _ value text => readSize value text) number (by decide)
    (fun _ value next rest small _ _ => by
      obtain ⟨notColon, isDigit, isValue⟩ := digits next small
      rw [readSize, if_neg notColon, if_pos isDigit, isValue])
    (Nat.le_refl _)
    ((Nat.lt_succ_self _).trans (Nat.lt_pow_self (by decide))) (Nat.le_refl _)
    ([':'.toUInt8] ++ rest)
  rw [append_assoc]
  refine whole.trans ?_
  rw [singleton_append, readSize, if_pos rfl]

theorem utostr_head {number : Nat} (positive : 0 < number) :
    ∃ first rest, utostr number = first :: rest ∧ '1'.toUInt8 ≤ first ∧ first ≤ '9'.toUInt8 := by
  have digits : ∀ digit < 10, 0 < digit → '1'.toUInt8 ≤ UInt8.ofNat ('0'.toNat + digit) ∧
      UInt8.ofNat ('0'.toNat + digit) ≤ '9'.toUInt8 := by
    decide
  have enough : number < number + 1 := Nat.lt_succ_self number
  unfold utostr
  generalize number + 1 = fuel at enough ⊢
  induction fuel generalizing number with
  | zero => omega
  | succ fuel ih =>
    rw [numeral]
    by_cases single : number / 10 = 0
    · have isDigit : 0 < number % 10 := by omega
      rw [if_pos single]
      exact ⟨_, [], rfl, digits _ (Nat.mod_lt _ (by decide)) isDigit⟩
    · obtain ⟨first, rest, isText, isDigit⟩ := @ih (number / 10) (by omega) (by omega)
      rw [if_neg single, isText]
      exact ⟨first, _, rfl, isDigit⟩

theorem read_netstring {env : Bytes} (some_ : env ≠ []) :
    readNetstring (utostr env.length ++ [':'.toUInt8] ++ env ++ [','.toUInt8]) = some env := by
  have size := read_size env.length (env ++ [','.toUInt8])
  obtain ⟨first, rest, isText, isDigit⟩ := utostr_head (length_pos_iff.mpr some_)
  rw [← append_assoc] at size
  rw [readNetstring, size]
  rw [isText]
  simp [isDigit]

def uwsgiPair (pair : Pair) : Bytes :=
  memoryBytes 2 pair.1.length ++ pair.1 ++ memoryBytes 2 pair.2.length ++ pair.2

theorem read_uwsgi_text (small : text.length ≤ ushrtMax) (rest : Bytes) :
    readUwsgiText (memoryBytes 2 text.length ++ text ++ rest) = some (text, rest) := by
  have size : littleEndian (memoryBytes 2 text.length) = text.length := by
    simp only [littleEndian, memoryBytes, foldr_cons, foldr_nil, UInt8.toNat_ofNat']
    unfold ushrtMax at small
    omega
  rw [append_assoc]
  refine (congrArg (Option.bind · _) (read_bytes (memoryBytes 2 text.length) (text ++ rest))).trans ?_
  rw [Option.bind_some, size, read_bytes]

def tooLong (pair : Pair) : Bool := pair.1.length > ushrtMax ∨ pair.2.length > ushrtMax

theorem uwsgi_decodes (accepted : pairs.any tooLong = false) :
    decode readUwsgiPair (pairs.flatMap uwsgiPair) = some pairs := by
  apply decode_encode
  · intro pair mem rest
    have short := any_eq_false.mp accepted pair mem
    simp only [tooLong, decide_eq_true_eq, not_or, not_lt] at short
    have key := read_uwsgi_text short.1 (memoryBytes 2 pair.2.length ++ pair.2 ++ rest)
    have val := read_uwsgi_text short.2 rest
    simp only [append_assoc] at key val
    simp only [readUwsgiPair, uwsgiPair, append_assoc, Option.bind_eq_bind, key, val, Option.bind_some, pure]
  · intro pair
    simp [uwsgiPair, memoryBytes]

theorem read_packet {vars : Bytes} (small : vars.length ≤ ushrtMax) :
    readUwsgiPacket (memoryBytes 4 (vars.length <<< 8) ++ vars) = some vars := by
  unfold ushrtMax at small
  have isHeader : memoryBytes 4 (vars.length <<< 8) =
      [0, UInt8.ofNat vars.length, UInt8.ofNat (vars.length / 256), 0] := by
    have bytes : vars.length * 256 / 256 = vars.length ∧ vars.length / 256 / 256 = 0 := by omega
    have first : UInt8.ofNat (vars.length * 256) = 0 := by
      rw [← UInt8.toNat_inj, UInt8.toNat_ofNat']
      exact Nat.mul_mod_left ..
    rw [Nat.shiftLeft_eq]
    simp only [memoryBytes, Nat.reducePow, bytes, first]
    rfl
  have isSize : littleEndian [UInt8.ofNat vars.length, UInt8.ofNat (vars.length / 256)] = vars.length := by
    simp only [littleEndian, foldr_cons, foldr_nil, UInt8.toNat_ofNat']
    omega
  rw [isHeader]
  exact if_pos isSize

theorem scgi_head (plain : ∀ pair ∈ pairs, 0 ∉ pair.1 ∧ 0 ∉ pair.2) :
    ∃ head, scgiCreateEnv .scgi pairs = .ok head ∧
      (readNetstring head).bind (decode readScgiPair) = some (pairs ++ [scgiOne]) := by
  have built := @headers_eq scgiEnvAddScgi (fun _ => false) scgiPair (fun env pair => by
    simp [scgiEnvAddScgi, scgiPair]) pairs
  have withOne : (scgiEnvAddScgi (pairs.flatMap scgiPair) scgiOne).2 =
      (pairs ++ [scgiOne]).flatMap scgiPair := by
    simp [scgiEnvAddScgi, scgiPair]
  have accepted : pairs.any (fun _ => false) = false := by simp
  simp only [accepted, Bool.not_false, filter_true] at built
  refine ⟨_, by simp only [scgiCreateEnv, Protocol.append, built, withOne]; rfl, ?_⟩
  rw [read_netstring (by simp [scgiPair]), Option.bind_some]
  apply scgi_decodes
  intro pair mem
  rcases mem_append.mp mem with before | isLast
  · exact plain pair before
  · rw [mem_singleton.mp isLast]
    decide

theorem uwsgi_packet (pairs : List Pair) : match scgiCreateEnv .uwsgi pairs with
    | .ok packet => (readUwsgiPacket packet).bind (decode readUwsgiPair) = some pairs
    | .error _ => ushrtMax < (pairs.flatMap uwsgiPair).length := by
  have built := @headers_eq scgiEnvAddUwsgi tooLong uwsgiPair (fun env pair => by
    simp [scgiEnvAddUwsgi, uwsgiPair, tooLong]) pairs
  simp only [scgiCreateEnv, Protocol.append, built]
  by_cases refused : pairs.any tooLong
  · rw [if_pos refused]
    obtain ⟨pair, mem, long⟩ := any_eq_true.mp refused
    have within := (sublist_flatten_of_mem (mem_map_of_mem (f := uwsgiPair) mem)).length_le
    simp only [tooLong, decide_eq_true_eq] at long
    simp only [uwsgiPair, length_append] at within
    show ushrtMax < ((pairs.map uwsgiPair).flatten).length
    omega
  · have accepted := Bool.eq_false_of_not_eq_true refused
    have all : pairs.filter (fun pair => !tooLong pair) = pairs := by
      rw [filter_eq_self]
      intro pair mem
      rw [Bool.eq_false_of_not_eq_true (any_eq_false.mp accepted pair mem)]
      rfl
    rw [if_neg refused, all]
    by_cases large : (pairs.flatMap uwsgiPair).length > ushrtMax
    · rw [if_pos large]
      exact large
    · rw [if_neg large]
      simp only [read_packet (not_lt.mp large), Option.bind_some]
      exact uwsgi_decodes accepted

theorem backend_env_decodes (pairs : List Pair) :
    (decode readFcgiPair (appendAll fcgiEnvAppend [] pairs).2 = some (appendAll fcgiEnvAppend [] pairs).1 ∧
      (appendAll fcgiEnvAppend [] pairs).2.length < 65535) ∧
    (∀ env pair, (fcgiEnvAppend env pair).1 ≠ 0 → (fcgiEnvAppend env pair).2 = env) ∧
    ((∀ pair ∈ pairs, 0 ∉ pair.1 ∧ 0 ∉ pair.2) → ∃ head, scgiCreateEnv .scgi pairs = .ok head ∧
      (readNetstring head).bind (decode readScgiPair) = some (pairs ++ [scgiOne])) ∧
    (match scgiCreateEnv .uwsgi pairs with
      | .ok packet => (readUwsgiPacket packet).bind (decode readUwsgiPair) = some pairs
      | .error _ => ushrtMax < (pairs.flatMap uwsgiPair).length) := by
  refine ⟨fcgi_decodes pairs, ?_, scgi_head, uwsgi_packet pairs⟩
  intro env pair refused
  rw [fcgi_append_eq] at refused ⊢
  split_ifs at refused ⊢ with fits
  · cases refused rfl
  · rfl

/-- A value that needs four bytes for its length, and an empty one. -/
def longAndEmpty : List Pair := [([72], replicate 128 65), ([73], [])]

theorem long_and_empty_decodes : ∃ head, scgiCreateEnv .scgi longAndEmpty = .ok head ∧
    (readNetstring head).bind (decode readScgiPair) = some (longAndEmpty ++ [scgiOne]) :=
  (backend_env_decodes longAndEmpty).2.2.1 (by decide)

end ServerCore.LighttpdEnvDecoding
