import Mathlib.Algebra.Order.Floor.Div
import MyKafka.Blocks

/-!
# The greedy cut of a list

Items are put into the current block until it weighs more than a limit; the next item then opens a
new block. Each block comes with the index of its first item. Appending one item to the list touches
only the last block, so a process that sees the items one by one arrives at the cut of all of them.
-/

namespace Blocks

variable {α : Type*}

def weight (size : α → ℕ) (as : List α) : ℕ := (as.map size).sum

/-- The cut of `as` behind a current block `cur` whose first item has the index `base`. -/
def cutFrom (size : α → ℕ) (limit : ℤ) : ℕ → List α → List α → List (ℕ × List α)
  | base, cur, [] => [(base, cur)]
  | base, cur, a :: as =>
    if limit < weight size cur then (base, cur) :: cutFrom size limit (base + cur.length) [a] as
    else cutFrom size limit base (cur ++ [a]) as

def greedyCut (size : α → ℕ) (limit : ℤ) (as : List α) : List (ℕ × List α) :=
  cutFrom size limit 0 [] as

variable {size : α → ℕ} {limit : ℤ} {base : ℕ} {as cur : List α}

theorem cutFrom_ne_nil : cutFrom size limit base cur as ≠ [] := by
  induction as generalizing base cur with
  | nil => simp [cutFrom]
  | cons a as ih =>
      rw [cutFrom]
      split_ifs
      · simp
      · exact ih

/-- One more item goes to the last block, or opens a new one behind it. -/
theorem cutFrom_concat {init : List (ℕ × List α)} {b : ℕ × List α} (a : α)
    (h : cutFrom size limit base cur as = init ++ [b]) :
    cutFrom size limit base cur (as ++ [a]) =
      if limit < weight size b.2 then init ++ [b] ++ [(b.1 + b.2.length, [a])]
      else init ++ [(b.1, b.2 ++ [a])] := by
  induction as generalizing base cur init with
  | nil =>
      rw [cutFrom] at h
      obtain ⟨rfl, rfl⟩ : init = [] ∧ b = (base, cur) := by
        cases init with
        | nil => simpa [eq_comm] using h
        | cons x xs => simp at h
      rw [List.nil_append, cutFrom]
      split_ifs <;> rfl
  | cons a' as ih =>
      rw [List.cons_append, cutFrom]
      rw [cutFrom] at h
      split_ifs at h ⊢ with hcur hb hb
      · cases init with
        | nil => exact absurd (List.cons.inj h).2 cutFrom_ne_nil
        | cons x xs =>
            obtain ⟨rfl, hrest⟩ := List.cons.inj h
            rw [ih hrest, if_pos hb]
            rfl
      · cases init with
        | nil => exact absurd (List.cons.inj h).2 cutFrom_ne_nil
        | cons x xs =>
            obtain ⟨rfl, hrest⟩ := List.cons.inj h
            rw [ih hrest, if_neg hb]
            rfl
      · rw [ih h, if_pos hb]
      · rw [ih h, if_neg hb]

theorem greedyCut_concat {init : List (ℕ × List α)} {b : ℕ × List α} (a : α)
    (h : greedyCut size limit as = init ++ [b]) :
    greedyCut size limit (as ++ [a]) =
      if limit < weight size b.2 then init ++ [b] ++ [(b.1 + b.2.length, [a])]
      else init ++ [(b.1, b.2 ++ [a])] := cutFrom_concat a h

/-! ## What the blocks hold -/

theorem head?_cutFrom (size : α → ℕ) (limit : ℤ) (base : ℕ) (cur as : List α) :
    ∃ xs, (cutFrom size limit base cur as).head? = some (base, xs) := by
  induction as generalizing cur with
  | nil => exact ⟨cur, rfl⟩
  | cons a as ih =>
      rw [cutFrom]
      split_ifs
      · exact ⟨cur, rfl⟩
      · exact ih _

theorem flatMap_cutFrom : (cutFrom size limit base cur as).flatMap Prod.snd = cur ++ as := by
  induction as generalizing base cur with
  | nil => simp [cutFrom]
  | cons a as ih =>
      rw [cutFrom]
      split_ifs
      · rw [List.flatMap_cons, ih, List.singleton_append]
      · rw [ih, List.append_assoc, List.singleton_append]

/-- Only a block with an item in it weighs more than a limit that is not negative. -/
theorem chain_cutFrom (h0 : 0 ≤ limit) :
    (cutFrom size limit base cur as).IsChain (Follows Prod.fst Prod.snd) := by
  induction as generalizing base cur with
  | nil => exact List.isChain_singleton _
  | cons a as ih =>
      rw [cutFrom]
      split_ifs with hcur
      · rw [List.isChain_cons]
        refine ⟨fun b hb => ?_, ih⟩
        obtain ⟨xs, hxs⟩ := head?_cutFrom size limit (base + cur.length) [a] as
        obtain rfl : (base + cur.length, xs) = b := by simpa [hxs] using hb
        refine ⟨?_, rfl⟩
        rintro rfl
        rw [weight, List.map_nil, List.sum_nil] at hcur
        omega
      · exact ih

/-- The blocks of the cut are what a list is made of, each named by the index of its first item. -/
theorem represents_greedyCut (h0 : 0 ≤ limit) (as : List α) :
    Represents Prod.fst Prod.snd (greedyCut size limit as) as where
  chain := chain_cutFrom h0
  ne_nil := cutFrom_ne_nil
  split := by
    obtain ⟨xs, hxs⟩ := head?_cutFrom size limit 0 [] as
    refine ⟨[], by rw [greedyCut, flatMap_cutFrom]; rfl, fun b hb => ?_⟩
    rw [greedyCut, hxs] at hb
    rw [← Option.some.inj hb]
    rfl

/-! ## Items of one size -/

theorem weight_const {r : ℕ} (h : ∀ a ∈ as, size a = r) : weight size as = as.length * r := by
  rw [weight, List.map_congr_left h, List.map_const', List.sum_replicate, smul_eq_mul]

theorem length_cutFrom {S r : ℕ} (hr : 0 < r) (hsize : ∀ a ∈ cur ++ as, size a = r)
    (hcur : cur.length ≤ S / r + 1) (hpos : 0 < cur.length + as.length) :
    (cutFrom size S base cur as).length = (cur.length + as.length + S / r) / (S / r + 1) := by
  induction as generalizing base cur with
  | nil =>
      rw [List.length_nil, Nat.add_zero] at hpos ⊢
      rw [cutFrom, List.length_singleton]
      exact (Nat.div_eq_of_lt_le (by omega) (by omega)).symm
  | cons a as ih =>
      have hweight : weight size cur = cur.length * r :=
        weight_const (fun b hb => hsize b (List.mem_append_left _ hb))
      rw [cutFrom, List.length_cons]
      split_ifs with hfull
      · -- the block is full, so it has `S / r + 1` items
        have hfull' : S / r < cur.length := by
          rw [Nat.div_lt_iff_lt_mul hr]
          rw [hweight] at hfull
          exact_mod_cast hfull
        have hlen : cur.length = S / r + 1 := by omega
        rw [List.length_cons, ih (fun b hb => hsize b (List.mem_append_right _ hb)) (by simp)
          (by simp), ← Nat.add_div_right _ (Nat.succ_pos _), List.length_singleton]
        congr 1
        omega
      · have hroom : cur.length ≤ S / r := by
          rw [Nat.le_div_iff_mul_le hr]
          rw [hweight] at hfull
          exact_mod_cast not_lt.mp hfull
        rw [ih (fun b hb => hsize b (by simpa using hb))
          (by rw [List.length_append, List.length_singleton]; omega) (by simp),
          List.length_append, List.length_singleton]
        congr 1
        omega

theorem length_greedyCut {S r : ℕ} (hr : 0 < r) (hsize : ∀ a ∈ as, size a = r) (hne : as ≠ []) :
    (greedyCut size S as).length = as.length ⌈/⌉ (S / r + 1) := by
  have hpos := List.length_pos_of_ne_nil hne
  rw [greedyCut, length_cutFrom hr (by simpa using hsize) (by simp) (by simpa using hpos),
    Nat.ceilDiv_eq_add_pred_div, List.length_nil, Nat.zero_add]
  congr 1

end Blocks
