import MyKafka.Runs

/-!
# An append-only log that may lose a prefix

The log keeps every entry that was ever appended, and `oldest` is the index of the first one that
can still be read. An append answers with the index of its entry; at any time entries may be dropped
from the front, though never the one just appended.
-/

namespace RetainedLog

variable {α : Type*}

structure State (α : Type*) where
  log : List α
  oldest : ℕ

inductive Op (α : Type*) where
  | append (a : α)
  | lookup (o : ℤ)
  | rest

inductive Answer (α : Type*) where
  | index (n : ℤ)
  | entry (a : α)
  | absent
  | done
  | refused

/-- The entry at `o`, if it is retained. -/
def State.find (t : State α) (o : ℤ) : Answer α :=
  match t.log[o.toNat]? with
  | some a => if (t.oldest : ℤ) ≤ o then .entry a else .absent
  | none => .absent

inductive Next : State α → Op α → Answer α → State α → Prop
  | append {t : State α} (a : α) {n : ℕ} (hle : t.oldest ≤ n) (hn : n ≤ t.log.length) :
      Next t (.append a) (.index t.log.length) ⟨t.log ++ [a], n⟩
  | lookup (t : State α) (o : ℤ) : Next t (.lookup o) (t.find o) t
  | rest {t : State α} {n : ℕ} (hle : t.oldest ≤ n) (hn : n ≤ t.log.length) :
      Next t .rest .done ⟨t.log, n⟩

theorem find_cases (t : State α) (o : ℤ) : t.find o = .absent ∨ ∃ a, t.find o = .entry a := by
  rw [State.find]
  cases t.log[o.toNat]? with
  | none => exact Or.inl rfl
  | some a =>
      dsimp only
      split_ifs
      · exact Or.inr ⟨a, rfl⟩
      · exact Or.inl rfl

theorem Next.ne_refused {t t' : State α} {op : Op α} {r : Answer α} (h : Next t op r t') :
    r ≠ .refused := by
  cases h with
  | append => simp
  | lookup =>
      rintro hr
      rcases find_cases t _ with hf | ⟨a, hf⟩ <;> rw [hf] at hr <;> cases hr
  | rest => simp

def appended : List (Op α × Answer α) → List α
  | [] => []
  | (.append a, _) :: es => a :: appended es
  | (.lookup _, _) :: es | (.rest, _) :: es => appended es

variable {t t' : State α} {es : List (Op α × Answer α)}

/-- Nothing that was appended is ever changed or forgotten. -/
theorem log_eq (h : Runs.Trace Next t es t') : t'.log = t.log ++ appended es := by
  induction h with
  | nil => simp [appended]
  | cons hn _ ih =>
      cases hn with
      | append a => rw [ih, appended, List.append_assoc, List.singleton_append]
      | lookup => rw [ih, appended]
      | rest => rw [ih, appended]

theorem oldest_le (h : Runs.Trace Next t es t') : t.oldest ≤ t'.oldest := by
  induction h with
  | nil => exact le_rfl
  | cons hn _ ih =>
      cases hn with
      | append a hle => exact hle.trans ih
      | lookup => exact ih
      | rest hle => exact hle.trans ih

theorem find_entry {a : α} {n : ℕ} (hn : t.log[n]? = some a) (hle : t.oldest ≤ n) :
    t.find n = .entry a := by
  rw [State.find, Int.toNat_natCast, hn]
  dsimp only
  rw [if_pos (by omega)]

theorem find_absent {o : ℤ} (h : o < t.oldest ∨ t.log.length ≤ o) : t.find o = .absent := by
  rw [State.find]
  cases hn : t.log[o.toNat]? with
  | none => rfl
  | some a =>
      have hlt := (List.getElem?_eq_some_iff.mp hn).1
      dsimp only
      rw [if_neg (by omega)]

end RetainedLog
