import ServerCore.NginxHttpParse

/-!
# Arguments of the query string

`ngx_http_arg` with `ngx_strlcasestrn`, `ngx_strncasecmp` and `ngx_strlchr`. A
pointer into the query string is an offset, and reading behind the string gives no
result. A pointer to a name is the memory from it on. The lengths that are reduced
by one are integers: -1 stands for `(size_t) -1`, which is never counted down to
zero and which moves a pointer up by one when it is subtracted.
-/

namespace ServerCore.NginxHttpArg

open NginxHttpParse (Byte Bytes)

def lower (c : Byte) : Byte := if 'A'.toUInt8 ≤ c && c ≤ 'Z'.toUInt8 then c ||| 0x20 else c

/-- `s1` is what is left of the query string. -/
def ngxStrncasecmp : Bytes → (Nat → Byte) → Int → Option Int
  | s1, s2, n =>
    if n = 0 then some 0
    else
      match s1 with
      | [] => none
      | c1 :: s1 =>
        if lower c1 = lower (s2 0) then
          if lower c1 ≠ 0 then ngxStrncasecmp s1 (fun index => s2 (index + 1)) (n - 1) else some 0
        else some ((lower c1).toNat - (lower (s2 0)).toNat)

/-- The loops of `ngx_strlcasestrn`, with what is left of the query string from `s1` on. -/
def strlcasestrnLoop (last : Int) (c2 : Byte) (s2 : Nat → Byte) (n : Int) : Nat → Bytes → Option (Option Nat)
  | s1, left =>
    if s1 ≥ last then some none
    else
      match left with
      | [] => none
      | c1 :: left =>
        if lower c1 ≠ c2 then strlcasestrnLoop last c2 s2 n (s1 + 1) left
        else
          match ngxStrncasecmp left s2 n with
          | none => none
          | some difference =>
            if difference ≠ 0 then strlcasestrnLoop last c2 s2 n (s1 + 1) left else some (some s1)

def ngxStrlcasestrn (string : Bytes) (s1 : Nat) (last : Int) (s2 : Nat → Byte)
    (n : Int) : Option (Option Nat) :=
  strlcasestrnLoop (last - n) (lower (s2 0)) (fun index => s2 (index + 1)) n s1 (string.drop s1)

/-- The offset of the first `c` from `p` on. -/
def ngxStrlchr (string : Bytes) (p : Nat) (c : Byte) : Option Nat :=
  let before := ((string.drop p).takeWhile (· != c)).length
  if p + before < string.length then some (p + before) else none

/-- What is returned: `NGX_DECLINED`, or `NGX_OK` with the offset and the length of the value. -/
inductive Answer where
  | declined
  | ok (data : Nat) (len : Int)

theorem strlcasestrn_le {last n : Int} {c2 : Byte} {s2 : Nat → Byte} {s1 found : Nat} {left : Bytes}
    (isFound : strlcasestrnLoop last c2 s2 n s1 left = some (some found)) : s1 ≤ found := by
  induction left generalizing s1 with
  | nil =>
    rw [strlcasestrnLoop] at isFound
    split_ifs at isFound
    cases isFound
  | cons c left ih =>
    rw [strlcasestrnLoop] at isFound
    split_ifs at isFound
    · cases isFound
    · exact Nat.le_trans (Nat.le_succ s1) (ih isFound)
    · split at isFound
      · cases isFound
      · split_ifs at isFound
        · exact Nat.le_trans (Nat.le_succ s1) (ih isFound)
        · cases isFound
          exact Nat.le_refl _

/-- The loop of `ngx_http_arg`. -/
def argLoop (args : Bytes) (name : Nat → Byte) (len : Nat) (p : Nat) : Option Answer :=
  if p < args.length then
    match found : ngxStrlcasestrn args p ((args.length : Int) - 1) name ((len : Int) - 1) with
    | none => none
    | some none => some .declined
    | some (some p) =>
      match (if p = 0 then some true else args[p - 1]?.map (· == '&'.toUInt8)) with
      | none => none
      | some false => argLoop args name len (p + 1)
      | some true =>
        match args[p + len]? with
        | none => none
        | some c =>
          if c = '='.toUInt8 then
            let data := p + len + 1
            let ampersand := (ngxStrlchr args p '&'.toUInt8).getD args.length
            some (.ok data ((ampersand : Int) - data))
          else argLoop args name len (p + 1)
  else some .declined
termination_by args.length - p
decreasing_by
  all_goals
    have next := strlcasestrn_le found
    omega

def ngxHttpArg (args : Bytes) (name : Nat → Byte) (len : Nat) : Option Answer :=
  if args.length = 0 then some .declined else argLoop args name len 0

end ServerCore.NginxHttpArg
