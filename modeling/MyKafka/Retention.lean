import Mathlib.Tactic

/-!
# A log in cells

A log is kept as a list of cells, the last of which takes the next item until it is too large. When a
cell is started the oldest ones may go: those that are too old, and as many as it takes to get back to
the size the log may have. The age of a cell is counted from a date that it was given when it was
opened, which may lie behind that of its last item.
-/

namespace Retention

variable {α : Type*} (weight : α → ℕ)

structure Policy where
  maxCellSize : ℤ
  /-- Zero for no limit. -/
  maxSize : ℤ
  /-- Zero for no limit. -/
  ttl : ℤ

structure Cell (α : Type*) where
  /-- The index of its first item. -/
  base : ℕ
  items : List α
  /-- When the last item came. -/
  modified : ℤ
  /-- When the last item before it was opened came. -/
  seen : ℤ

structure State (α : Type*) where
  older : List (Cell α)
  active : Cell α
  now : ℤ

/-- The index of the next item. -/
def Cell.next (c : Cell α) : ℕ := c.base + c.items.length

def Cell.size (c : Cell α) : ℤ := (c.items.map weight).sum

def Cell.empty (base : ℕ) (now : ℤ) : Cell α := ⟨base, [], now, now⟩

def Cell.push (c : Cell α) (a : α) (now : ℤ) : Cell α :=
  { c with items := c.items ++ [a], modified := now }

def Cell.reopen (c : Cell α) : Cell α := { c with seen := c.modified }

/-- What retention looks at. -/
def Cell.view (c : Cell α) : ℤ × ℤ := (c.size weight, c.seen)

/-- A cell of this date is too old, or all cells together are too large. -/
def Policy.Outdated (pol : Policy) (now total date : ℤ) : Prop :=
  (pol.ttl ≠ 0 ∧ pol.ttl < now - date) ∨ (pol.maxSize ≠ 0 ∧ pol.maxSize < total)

instance (pol : Policy) (now total date : ℤ) : Decidable (pol.Outdated now total date) :=
  inferInstanceAs (Decidable (_ ∨ _))

/-- How many cells of these sizes and dates go, of a log with so many bytes in all. -/
def swept (pol : Policy) (now : ℤ) : ℤ → List (ℤ × ℤ) → ℕ
  | _, [] => 0
  | total, c :: cs =>
    if pol.Outdated now total c.2 then swept pol now (total - c.1) cs + 1 else 0

namespace State

def cells (t : State α) : List (Cell α) := t.older ++ [t.active]

def total (t : State α) : ℤ := (t.cells.map (Cell.size weight)).sum

/-- The last cell is never looked at. -/
def sweep (pol : Policy) (t : State α) : State α :=
  { t with older := t.older.drop (swept pol t.now (t.total weight) (t.older.map (Cell.view weight))) }

def start (now : ℤ) : State α := ⟨[], .empty 0 now, now⟩

/-- A new cell is started when the last one is too large. -/
def roll (pol : Policy) (t : State α) : State α :=
  if pol.maxCellSize < t.active.size weight then
    sweep weight pol { t with
      older := t.older ++ [t.active]
      active := .empty t.active.next t.now }
  else t

def append (pol : Policy) (t : State α) (a : α) : ℕ × State α :=
  let t := t.roll weight pol
  (t.active.next, { t with active := t.active.push a t.now })

def reopen (pol : Policy) (t : State α) : State α :=
  sweep weight pol { t with
    older := t.older.map Cell.reopen
    active := t.active.reopen }

def oldest (t : State α) : ℕ := (t.cells.head?.map Cell.base).getD 0

def find (t : State α) (o : ℤ) : Option α :=
  if t.oldest ≤ o then (t.cells.flatMap Cell.items)[(o - t.oldest).toNat]? else none

end State

variable {weight} {pol : Policy} {now total : ℤ} {t : State α} {a : α}

/-! ## How many cells go -/

theorem swept_le (pol : Policy) (now total : ℤ) (cs : List (ℤ × ℤ)) :
    swept pol now total cs ≤ cs.length := by
  induction cs generalizing total with
  | nil => exact le_rfl
  | cons c cs ih =>
      rw [swept, List.length_cons]
      split_ifs
      · exact Nat.succ_le_succ (ih _)
      · exact Nat.zero_le _

theorem swept_idle (httl : pol.ttl = 0) (hmax : pol.maxSize = 0) (now total : ℤ)
    (cs : List (ℤ × ℤ)) : swept pol now total cs = 0 := by
  cases cs with
  | nil => rfl
  | cons c cs =>
      rw [swept, if_neg]
      rintro (⟨h, -⟩ | ⟨h, -⟩)
      · exact h httl
      · exact h hmax

namespace State

@[simp] theorem cells_sweep (weight : α → ℕ) (pol : Policy) (t : State α) :
    (t.sweep weight pol).cells =
      t.cells.drop (swept pol t.now (t.total weight) (t.older.map (Cell.view weight))) := by
  have hle := swept_le pol t.now (t.total weight) (t.older.map (Cell.view weight))
  rw [List.length_map] at hle
  rw [cells, cells, List.drop_append_of_le_length hle]
  rfl

@[simp] theorem now_sweep (weight : α → ℕ) (pol : Policy) (t : State α) :
    (t.sweep weight pol).now = t.now := rfl

theorem roll_idle (h : t.active.size weight ≤ pol.maxCellSize) : t.roll weight pol = t :=
  if_neg (not_lt.mpr h)

/-- A roll leaves the next index as it was. -/
theorem next_roll (weight : α → ℕ) (pol : Policy) (t : State α) :
    (t.roll weight pol).active.next = t.active.next := by
  rw [roll]
  split_ifs
  · rfl
  · rfl

theorem cells_append (weight : α → ℕ) (pol : Policy) (t : State α) (a : α) :
    (t.append weight pol a).2.cells =
      (t.roll weight pol).older ++ [(t.roll weight pol).active.push a (t.roll weight pol).now] := rfl

end State

end Retention
