import Mathlib.Data.List.Basic
import Mathlib.Data.List.Induction

/-!
# Paths as lists of segments

A path over any alphabet is cut at each separator by `List.splitOn`. The last
segment is the one still being written when a path is built from left to right,
and the first one is what a scanner sees when it looks ahead.
-/

namespace ServerCore.PathSegments

open List

variable {Element : Type*} [DecidableEq Element] {sep : Element}

theorem split_cons_separator (rest : List Element) :
    (sep :: rest).splitOn sep = [] :: rest.splitOn sep := by
  rw [splitOn_cons_eq_if_modifyHead, if_pos (by simp)]

theorem split_cons_other {first : Element} {rest : List Element} (differs : first ≠ sep) :
    (first :: rest).splitOn sep = (rest.splitOn sep).modifyHead (first :: ·) := by
  rw [splitOn_cons_eq_if_modifyHead, if_neg (by simpa using differs)]

theorem tail_split_cons (first : Element) (rest : List Element) : ((first :: rest).splitOn sep).tail =
      if first = sep then rest.splitOn sep else (rest.splitOn sep).tail := by
  split_ifs with same
  · rw [same, split_cons_separator, tail_cons]
  · rw [split_cons_other same]
    cases rest.splitOn sep <;> rfl

theorem head_split (path : List Element) :
    (path.splitOn sep).head? = some (path.takeWhile (· ≠ sep)) := by
  induction path with
  | nil => rfl
  | cons first rest ih =>
    by_cases same : first = sep
    · rw [same, split_cons_separator]
      simp
    · rw [split_cons_other same, head?_modifyHead, ih]
      simp [same]

theorem mem_split_iff (seg path : List Element) : seg ∈ path.splitOn sep ↔
      path.takeWhile (· ≠ sep) = seg ∨ seg ∈ (path.splitOn sep).tail := by
  have isHead : (path.splitOn sep).head? = _ := head_split path
  cases cut : path.splitOn sep with
  | nil => exact absurd cut (splitOn_ne_nil _ _)
  | cons head tail =>
    rw [cut] at isHead
    simp only [head?_cons, Option.some.injEq] at isHead
    rw [mem_cons, tail_cons, isHead]
    exact or_congr_left eq_comm

theorem split_concat_separator (path : List Element) :
    (path ++ [sep]).splitOn sep = path.splitOn sep ++ [[]] := by
  rw [splitOn_append_cons_self, splitOn_nil]

theorem split_append_segment (path : List Element) {seg : List Element} (plain : sep ∉ seg) :
    (path ++ sep :: seg).splitOn sep = path.splitOn sep ++ [seg] := by
  rw [splitOn_append_cons_self, splitOn_eq_singleton plain]

theorem last_segment {path : List Element} : sep ∉ path ∨
      ∃ front seg, path = front ++ sep :: seg ∧ sep ∉ seg := by
  induction path with
  | nil => exact .inl (by simp)
  | cons first rest ih =>
    rcases ih with absent | ⟨front, seg, split, plain⟩
    · by_cases same : first = sep
      · exact .inr ⟨[], rest, by rw [same]; rfl, absent⟩
      · exact .inl (by simp [absent, Ne.symm same])
    · exact .inr ⟨first :: front, seg, by rw [split]; rfl, plain⟩

theorem split_concat_other (path : List Element) {element : Element} (differs : element ≠ sep) :
    ∃ closed last, path.splitOn sep = closed ++ [last] ∧
      (path ++ [element]).splitOn sep = closed ++ [last ++ [element]] := by
  have cut : sep ∉ path ∨ _ := last_segment
  rcases cut with absent | ⟨front, seg, split, plain⟩
  · exact ⟨[], path, by rw [splitOn_eq_singleton absent]; rfl,
      by rw [splitOn_eq_singleton (by simp [absent, Ne.symm differs])]; rfl⟩
  · have longer : sep ∉ seg ++ [element] := by simp [plain, Ne.symm differs]
    have appended : path ++ [element] = front ++ sep :: (seg ++ [element]) := by
      rw [split]
      simp
    exact ⟨front.splitOn sep, seg, by rw [split, split_append_segment front plain],
      by rw [appended, split_append_segment front longer]⟩

def follow (sep : Element) (seg : List Element) (element : Element) : List Element :=
  if element = sep then [] else seg ++ [element]

def lastSegment (sep : Element) (path : List Element) : List Element :=
  path.foldl (follow sep) []

theorem last_split (path : List Element) :
    (path.splitOn sep).getLast? = some (lastSegment sep path) := by
  induction path using List.reverseRecOn with
  | nil => rfl
  | append_singleton path element ih =>
    rw [lastSegment, foldl_concat, follow]
    by_cases same : element = sep
    · rw [if_pos same, same, split_concat_separator, getLast?_concat]
    · rcases split_concat_other path same with ⟨closed, last, before, after⟩
      rw [before, getLast?_concat, Option.some.injEq] at ih
      rw [if_neg same, after, getLast?_concat, ih]
      rfl

end ServerCore.PathSegments
