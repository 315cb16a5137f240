import Mathlib.Logic.Function.Basic
import MyKafka.Runs

/-!
# A map that is kept on disk

Every key has a slot. A value is put into it by creating it, can be read and changed while it is
open, and outlasts closing and restarts until it is removed. Restarting opens what is stored. The
operations on one key are those of its slot, and the value in a slot is what the acknowledged
operations on its key left last.
-/

namespace PersistentMap

variable {κ ν : Type*}

inductive Slot (ν : Type*) where
  | absent
  | stored (v : ν)
  | opened (v : ν)

inductive KeyOp (ν : Type*) where
  | create (v : ν)
  | open
  | get
  | modify (f : ν → ν)
  | close
  | remove

inductive Op (κ ν : Type*) where
  | at (k : κ) (o : KeyOp ν)
  | restart

inductive Answer (ν : Type*) where
  | done
  | value (v : ν)
  | refused

namespace Slot

def step : Slot ν → KeyOp ν → Answer ν × Slot ν
  | .absent, .create v => (.done, .opened v)
  | .absent, _ => (.refused, .absent)
  | .stored v, .open => (.done, .opened v)
  | .stored v, _ => (.refused, .stored v)
  | .opened v, .create _ => (.refused, .opened v)
  | .opened v, .open => (.done, .opened v)
  | .opened v, .get => (.value v, .opened v)
  | .opened v, .modify f => (.done, .opened (f v))
  | .opened v, .close => (.done, .stored v)
  | .opened _, .remove => (.done, .absent)

def reopen : Slot ν → Slot ν
  | .stored v => .opened v
  | s => s

def shut : Slot ν → Slot ν
  | .opened v => .stored v
  | s => s

def value? : Slot ν → Option ν
  | .absent => none
  | .stored v | .opened v => some v

@[simp] theorem value?_reopen (s : Slot ν) : s.reopen.value? = s.value? := by
  cases s <;> rfl

theorem value?_ne_none {s : Slot ν} : s.value? ≠ none ↔ s ≠ .absent := by
  cases s <;> simp [value?]

@[simp] theorem reopen_reopen (s : Slot ν) : s.reopen.reopen = s.reopen := by
  cases s <;> rfl

@[simp] theorem reopen_shut (s : Slot ν) : s.shut.reopen = s.reopen := by
  cases s <;> rfl

theorem shut_eq_absent {s : Slot ν} : s.shut = .absent ↔ s = .absent := by
  cases s <;> simp [shut]

theorem reopen_eq_absent {s : Slot ν} : s.reopen = .absent ↔ s = .absent := by
  cases s <;> simp [reopen]

theorem step_open {s : Slot ν} (h : s ≠ .absent) : s.step .open = (.done, s.reopen) := by
  cases s with
  | absent => exact absurd rfl h
  | stored v => rfl
  | opened v => rfl

end Slot

/-- What an acknowledged operation leaves of the last value of its key. -/
def KeyOp.leaves : KeyOp ν → Answer ν → Option ν → Option ν
  | .create v, .done, _ => some v
  | .modify f, .done, u => u.map f
  | .remove, .done, _ => none
  | _, _, u => u

theorem Slot.value?_step (s : Slot ν) (o : KeyOp ν) :
    (s.step o).2.value? = o.leaves (s.step o).1 s.value? := by
  cases s <;> cases o <;> rfl

variable [DecidableEq κ]

def step (s : κ → Slot ν) : Op κ ν → Answer ν × (κ → Slot ν)
  | .at k o => (((s k).step o).1, Function.update s k ((s k).step o).2)
  | .restart => (.done, fun k => (s k).reopen)

/-- The last value of a key, as the answers tell it. -/
def lastValue (k : κ) : Option ν → List (Op κ ν × Answer ν) → Option ν
  | u, [] => u
  | u, (.at k' o, a) :: es => lastValue k (if k' = k then o.leaves a u else u) es
  | u, (.restart, _) :: es => lastValue k u es

theorem value?_final (k : κ) (ops : List (Op κ ν)) : ∀ s : κ → Slot ν,
    (Runs.final step s ops k).value? = lastValue k (s k).value? (Runs.trace step s ops) := by
  induction ops with
  | nil => exact fun s => rfl
  | cons op ops ih =>
      intro s
      rw [Runs.final, Runs.trace, ih]
      cases op with
      | «at» k' o =>
          rw [lastValue, step]
          dsimp only
          by_cases hk : k' = k
          · subst hk
            rw [if_pos rfl, Function.update_self, Slot.value?_step]
          · rw [if_neg hk, Function.update_of_ne (Ne.symm hk)]
      | restart =>
          rw [lastValue, step, Slot.value?_reopen]

end PersistentMap
