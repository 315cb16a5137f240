import Mathlib.Data.List.Chain
import Mathlib.Data.List.TakeWhile
import Mathlib.Tactic

/-!
# A log cut into blocks

An append-only log that may lose a prefix is kept as a list of blocks, each with the index of its
first entry and its entries. Only the last block may be empty, and every block starts where the one
before it ends. `Represents bs log` says that the blocks `bs` are what is left of the history `log`.
-/

namespace Blocks

variable {α β : Type*} (base : β → ℕ) (items : β → List α)

/-- The index after the last entry of a block. -/
def next (b : β) : ℕ := base b + (items b).length

def Follows (b b' : β) : Prop := items b ≠ [] ∧ base b' = next base items b

structure Represents (bs : List β) (log : List α) : Prop where
  chain : bs.IsChain (Follows base items)
  ne_nil : bs ≠ []
  split : ∃ pre, log = pre ++ bs.flatMap items ∧ ∀ b ∈ bs.head?, base b = pre.length

variable {base items} {bs xs : List β} {b b' : β} {log : List α} {a : α}

theorem Follows.lt (h : Follows base items b b') : base b < base b' := by
  have := List.length_pos_of_ne_nil h.1
  have := h.2
  unfold next at this
  omega

/-- Bases grow along a chain. -/
theorem pairwise_base (h : bs.IsChain (Follows base items)) :
    bs.Pairwise (fun b b' => base b < base b') := by
  have hlt : bs.IsChain (fun b b' => base b < base b') := h.imp (fun _ _ hf => hf.lt)
  have : IsTrans β (fun b b' => base b < base b') := ⟨fun _ _ _ => lt_trans⟩
  exact List.isChain_iff_pairwise.mp hlt

/-- A block in a chain starts after all the entries before it. -/
theorem base_eq (h : (xs ++ b :: bs).IsChain (Follows base items)) {n : ℕ}
    (hn : ∀ c ∈ (xs ++ b :: bs).head?, base c = n) : base b = n + (xs.flatMap items).length := by
  induction xs generalizing n with
  | nil => simpa using hn
  | cons x xs ih =>
      have hx : base x = n := hn x (by simp)
      have hch : (x :: (xs ++ b :: bs)).IsChain (Follows base items) := h
      rw [List.isChain_cons] at hch
      rw [ih hch.2 (n := next base items x) (fun c hc => (hch.1 c hc).2), next, hx]
      simp only [List.flatMap_cons, List.length_append]
      omega

namespace Represents

theorem base_of_split (h : Represents base items (xs ++ b :: bs) log) :
    ∃ pre, log = pre ++ (items b ++ bs.flatMap items) ∧ base b = pre.length := by
  obtain ⟨pre, hlog, hpre⟩ := h.split
  refine ⟨pre ++ xs.flatMap items, ?_, ?_⟩
  · rw [hlog]
    simp
  · rw [base_eq h.chain hpre, List.length_append]

theorem getElem? (h : Represents base items bs log) (hb : b ∈ bs) {k : ℕ}
    (hk : k < (items b).length) : log[base b + k]? = (items b)[k]? := by
  obtain ⟨xs, ys, rfl⟩ := List.append_of_mem hb
  obtain ⟨pre, hlog, hbase⟩ := h.base_of_split
  rw [hlog, hbase, List.getElem?_append_right (by omega), Nat.add_sub_cancel_left,
    List.getElem?_append_left hk]

theorem next_le (h : Represents base items bs log) (hb : b ∈ bs) :
    next base items b ≤ log.length := by
  obtain ⟨xs, ys, rfl⟩ := List.append_of_mem hb
  obtain ⟨pre, hlog, hbase⟩ := h.base_of_split
  rw [next, hlog, hbase]
  simp only [List.length_append]
  omega

theorem base_succ (h : Represents base items bs log) {k : ℕ} (hk : k + 1 < bs.length) :
    base bs[k + 1] = next base items bs[k] :=
  ((List.isChain_iff_getElem.mp h.chain) k (by omega)).2

theorem next_last (h : Represents base items (xs ++ [b]) log) : next base items b = log.length := by
  obtain ⟨pre, hlog, hbase⟩ := h.base_of_split
  rw [next, hlog, hbase]
  simp

theorem drop (h : Represents base items bs log) {k : ℕ} (hk : k < bs.length) :
    Represents base items (bs.drop k) log where
  chain := h.chain.drop k
  ne_nil := by
    intro he
    rw [List.drop_eq_nil_iff] at he
    omega
  split := by
    have hsplit : bs.take k ++ bs[k] :: bs.drop (k + 1) = bs := by
      rw [← List.drop_eq_getElem_cons hk, List.take_append_drop]
    rw [← hsplit] at h
    obtain ⟨pre, hlog, hbase⟩ := h.base_of_split
    refine ⟨pre, ?_, ?_⟩
    · rw [hlog, List.drop_eq_getElem_cons hk, List.flatMap_cons]
    · intro c hc
      rw [List.drop_eq_getElem_cons hk, List.head?_cons] at hc
      obtain rfl : bs[k] = c := by simpa using hc
      exact hbase

theorem append (h : Represents base items (xs ++ [b]) log) (hbase : base b' = base b)
    (hitems : items b' = items b ++ [a]) : Represents base items (xs ++ [b']) (log ++ [a]) where
  chain := by
    have hch := h.chain
    rw [List.isChain_append] at hch ⊢
    refine ⟨hch.1, List.isChain_singleton _, ?_⟩
    intro x hx y hy
    obtain rfl : b' = y := by simpa using hy
    have := hch.2.2 x hx b (by simp)
    exact ⟨this.1, hbase.trans this.2⟩
  ne_nil := by simp
  split := by
    obtain ⟨pre, hlog, hpre⟩ := h.split
    refine ⟨pre, ?_, ?_⟩
    · rw [hlog]
      simp [hitems]
    · intro c hc
      cases xs with
      | nil =>
          obtain rfl : b' = c := by simpa using hc
          exact hbase.trans (hpre b (by simp))
      | cons x xs => exact hpre c (by simpa using hc)

theorem replace (h : Represents base items (xs ++ [b]) log) (hbase : base b' = base b)
    (hitems : items b' = items b) : Represents base items (xs ++ [b']) log where
  chain := by
    have hch := h.chain
    rw [List.isChain_append] at hch ⊢
    refine ⟨hch.1, List.isChain_singleton _, ?_⟩
    intro x hx y hy
    obtain rfl : b' = y := by simpa using hy
    have := hch.2.2 x hx b (by simp)
    exact ⟨this.1, hbase.trans this.2⟩
  ne_nil := by simp
  split := by
    obtain ⟨pre, hlog, hpre⟩ := h.split
    refine ⟨pre, by simpa [hitems] using hlog, ?_⟩
    intro c hc
    cases xs with
    | nil =>
        obtain rfl : b' = c := by simpa using hc
        exact hbase.trans (hpre b (by simp))
    | cons x xs => exact hpre c (by simpa using hc)

theorem roll (h : Represents base items (xs ++ [b]) log) (hb : items b ≠ [])
    (hbase : base b' = next base items b) (hitems : items b' = []) :
    Represents base items (xs ++ [b] ++ [b']) log where
  chain := by
    rw [List.isChain_append]
    refine ⟨h.chain, List.isChain_singleton _, ?_⟩
    intro x hx y hy
    obtain rfl : b = x := by simpa using hx
    obtain rfl : b' = y := by simpa using hy
    exact ⟨hb, hbase⟩
  ne_nil := by simp
  split := by
    obtain ⟨pre, hlog, hpre⟩ := h.split
    refine ⟨pre, ?_, ?_⟩
    · rw [List.flatMap_append, hlog]
      simp [hitems]
    · intro c hc
      cases xs with
      | nil => exact hpre c (by simpa using hc)
      | cons x xs => exact hpre c (by simpa using hc)

theorem singleton (hbase : base b = 0) : Represents base items [b] (items b) where
  chain := List.isChain_singleton _
  ne_nil := by simp
  split := ⟨[], by simp, by simpa using hbase⟩

end Represents

/-! ## Finding the block of an index -/

/-- `b` is the last block that starts at or before `o`. -/
def LastBefore (base : β → ℕ) (bs : List β) (o : ℤ) (b : β) : Prop :=
  ∃ k : ℕ, bs[k]? = some b ∧ (base b : ℤ) ≤ o ∧
    ∀ (l : ℕ) (c : β), k < l → bs[l]? = some c → o < base c

/-- In the block found for it an index has its entry, and past the log it has none. -/
theorem LastBefore.entry (h : Represents base items bs log) {o : ℤ}
    (hb : LastBefore base bs o b) :
    (o < log.length → o - base b < (items b).length) ∧
      (log.length ≤ o → (items b).length ≤ o - base b) := by
  obtain ⟨k, hk, hle, hafter⟩ := hb
  obtain ⟨hlt, rfl⟩ := List.getElem?_eq_some_iff.mp hk
  have hnext := h.next_le (List.getElem_mem hlt)
  refine ⟨?_, fun ho => by unfold next at hnext; omega⟩
  intro ho
  by_cases hlast : k + 1 < bs.length
  · have hf := (List.isChain_iff_getElem.mp h.chain) k (by omega)
    have hlt' := hafter (k + 1) bs[k + 1] (Nat.lt_succ_self k) (List.getElem?_eq_getElem hlast)
    have := hf.2
    unfold next at this
    omega
  · have hsplit : bs = bs.take k ++ [bs[k]] := by
      conv_lhs => rw [← List.take_append_drop k bs, List.drop_eq_getElem_cons hlt]
      rw [List.drop_eq_nil_of_le (by omega)]
    rw [hsplit] at h
    have := h.next_last
    unfold next at this
    omega

end Blocks
