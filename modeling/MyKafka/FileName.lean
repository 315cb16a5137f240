import Mathlib.Data.List.TakeWhile
import Mathlib.Tactic

/-!
# Cutting names

`splitLast c s` cuts `s` at its last `c`. The extension and the stem of a file name are its two
parts around the last dot, and the components of a path string are its parts between slashes, up to
the first null character as a C call sees it.
-/

namespace Posix

def splitLast (c : Char) : List Char → Option (List Char × List Char)
  | [] => none
  | x :: xs =>
    match splitLast c xs with
    | some (before, after) => some (x :: before, after)
    | none => if x = c then some ([], xs) else none

/-- The extension of a file name, dot included. -/
def extension (name : List Char) : List Char :=
  if name = ['.'] ∨ name = ['.', '.'] then []
  else
    match splitLast '.' name with
    | some (_, after) => '.' :: after
    | none => []

def stem (name : List Char) : List Char :=
  if name = ['.'] ∨ name = ['.', '.'] then name
  else
    match splitLast '.' name with
    | some (before, _) => before
    | none => name

/-- The part of a string a C call sees. -/
def cstr (s : List Char) : List Char := s.takeWhile (fun c => c ≠ Char.ofNat 0)

def components (s : List Char) : List (List Char) := (cstr s).splitOn '/'

theorem splitLast_eq_none {c : Char} {s : List Char} (h : c ∉ s) : splitLast c s = none := by
  induction s with
  | nil => rfl
  | cons x xs ih =>
      rw [List.mem_cons, not_or] at h
      rw [splitLast, ih h.2, if_neg (Ne.symm h.1)]

theorem splitLast_append {c : Char} (before : List Char) {after : List Char} (h : c ∉ after) :
    splitLast c (before ++ c :: after) = some (before, after) := by
  induction before with
  | nil => rw [List.nil_append, splitLast, splitLast_eq_none h, if_pos rfl]
  | cons x xs ih => rw [List.cons_append, splitLast, ih]

/-- A name with characters after its last dot is not `.` nor `..`. -/
theorem ne_dots (before : List Char) {after : List Char} (ha : after ≠ []) (h : '.' ∉ after) :
    ¬ (before ++ '.' :: after = ['.'] ∨ before ++ '.' :: after = ['.', '.']) := by
  rintro (he | he)
  · cases before with
    | nil => exact ha (List.cons.inj he).2
    | cons x xs => simp at he
  · cases before with
    | nil =>
        rw [List.nil_append, List.cons.injEq] at he
        exact h (he.2 ▸ List.mem_cons_self)
    | cons x xs =>
        cases xs with
        | nil =>
            rw [List.cons_append, List.nil_append, List.cons.injEq, List.cons.injEq] at he
            exact ha he.2.2
        | cons y ys => simp at he

theorem extension_append (before : List Char) {after : List Char} (ha : after ≠ [])
    (h : '.' ∉ after) : extension (before ++ '.' :: after) = '.' :: after := by
  rw [extension, if_neg (ne_dots before ha h), splitLast_append _ h]

theorem stem_append (before : List Char) {after : List Char} (ha : after ≠ []) (h : '.' ∉ after) :
    stem (before ++ '.' :: after) = before := by
  rw [stem, if_neg (ne_dots before ha h), splitLast_append _ h]

theorem cstr_eq_self {s : List Char} (h : Char.ofNat 0 ∉ s) : cstr s = s := by
  rw [cstr, List.takeWhile_eq_self_iff]
  intro c hc
  simpa using fun h' : c = Char.ofNat 0 => h (h' ▸ hc)

theorem components_eq_singleton {s : List Char} (hn : Char.ofNat 0 ∉ s) (hs : '/' ∉ s) :
    components s = [s] := by
  rw [components, cstr_eq_self hn]
  exact List.splitOn_eq_singleton hs

end Posix
