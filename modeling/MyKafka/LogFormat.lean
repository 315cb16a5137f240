import MyKafka.LittleEndian
import MyKafka.Error

/-!
# The format of a log

A log is a concatenation of records, each the 8-byte offset of its message, the 4-byte length of
the payload and the payload. `encode base msgs` is the log of the messages `msgs` from the offset
`base` on, and `startsFrom` gives the positions of its records.
-/

namespace MyKafka

open LittleEndian

namespace Log

def record (offset : ℤ) (payload : Payload) : List UInt8 :=
  toLE 8 offset ++ toLE 4 payload.length ++ payload

def encode : ℤ → List Payload → List UInt8
  | _, [] => []
  | offset, m :: ms => record offset m ++ encode (offset + 1) ms

/-- The number of bytes the messages take in a log. -/
def logSize : List Payload → ℕ
  | [] => 0
  | m :: ms => 12 + m.length + logSize ms

def startsFrom : ℤ → List Payload → List ℤ
  | _, [] => []
  | pos, m :: ms => pos :: startsFrom (pos + (12 + m.length)) ms

@[simp] theorem length_record (offset : ℤ) (m : Payload) :
    (record offset m).length = 12 + m.length := by
  simp only [record, List.length_append, length_toLE]

@[simp] theorem length_encode (offset : ℤ) (ms : List Payload) :
    (encode offset ms).length = logSize ms := by
  induction ms generalizing offset with
  | nil => rfl
  | cons m ms ih => rw [encode, List.length_append, length_record, ih, logSize]

theorem encode_append (offset : ℤ) (ms ms' : List Payload) :
    encode offset (ms ++ ms') = encode offset ms ++ encode (offset + ms.length) ms' := by
  induction ms generalizing offset with
  | nil => simp [encode]
  | cons m ms ih =>
      rw [List.cons_append, encode, encode, ih, List.append_assoc, List.length_cons]
      congr 3
      push_cast
      ring

theorem encode_singleton (offset : ℤ) (m : Payload) : encode offset [m] = record offset m := by
  simp [encode]

theorem logSize_append (ms ms' : List Payload) : logSize (ms ++ ms') = logSize ms + logSize ms' := by
  induction ms with
  | nil => simp [logSize]
  | cons m ms ih => rw [List.cons_append, logSize, logSize, ih, Nat.add_assoc (12 + m.length)]

theorem logSize_ge (ms : List Payload) : 12 * ms.length ≤ logSize ms := by
  induction ms with
  | nil => simp [logSize]
  | cons m ms ih => rw [logSize, List.length_cons]; omega

@[simp] theorem length_startsFrom (pos : ℤ) (ms : List Payload) :
    (startsFrom pos ms).length = ms.length := by
  induction ms generalizing pos with
  | nil => rfl
  | cons m ms ih => rw [startsFrom, List.length_cons, ih, List.length_cons]

theorem startsFrom_append (pos : ℤ) (ms ms' : List Payload) :
    startsFrom pos (ms ++ ms') = startsFrom pos ms ++ startsFrom (pos + logSize ms) ms' := by
  induction ms generalizing pos with
  | nil => simp [startsFrom, logSize]
  | cons m ms ih =>
      rw [List.cons_append, startsFrom, startsFrom, ih, List.cons_append, logSize]
      congr 3
      push_cast
      ring

theorem startsFrom_getElem? (pos : ℤ) {ms : List Payload} {k : ℕ} (hk : k < ms.length) :
    (startsFrom pos ms)[k]? = some (pos + logSize (ms.take k)) := by
  induction ms generalizing pos k with
  | nil => cases hk
  | cons m ms ih =>
      cases k with
      | zero => simp [startsFrom, logSize]
      | succ k =>
          rw [startsFrom, List.getElem?_cons_succ, ih _ (by simpa using hk), List.take_succ_cons,
            logSize]
          congr 1
          push_cast
          ring

theorem encode_at (offset : ℤ) {ms : List Payload} {k : ℕ} {m : Payload} (hk : ms[k]? = some m) :
    encode offset ms = encode offset (ms.take k) ++
      (record (offset + k) m ++ encode (offset + k + 1) (ms.drop (k + 1))) := by
  obtain ⟨hlt, rfl⟩ := List.getElem?_eq_some_iff.mp hk
  conv_lhs => rw [← List.take_append_drop k ms, encode_append, List.drop_eq_getElem_cons hlt, encode]
  rw [List.length_take_of_le hlt.le]

theorem logSize_take_le (ms : List Payload) (k : ℕ) : logSize (ms.take k) ≤ logSize ms := by
  conv_rhs => rw [← List.take_append_drop k ms, logSize_append]
  exact Nat.le_add_right _ _

/-- Every record starts below 2³¹. -/
def Addressable (ms : List Payload) : Prop := ∀ k < ms.length, logSize (ms.take k) < 2 ^ 31

theorem Addressable.nil : Addressable [] := fun k hk => absurd hk (Nat.not_lt_zero k)

theorem Addressable.append {ms : List Payload} (h : Addressable ms) (hsize : logSize ms < 2 ^ 31)
    (m : Payload) : Addressable (ms ++ [m]) := by
  intro k hk
  rw [List.length_append, List.length_singleton] at hk
  rw [List.take_append_of_le_length (by omega)]
  rcases Nat.lt_succ_iff_lt_or_eq.mp hk with hk | rfl
  · exact h k hk
  · rw [List.take_length]
    exact hsize

/-! ## Reading a record back -/

theorem header_offset {offset : ℤ} (h0 : -2 ^ 63 ≤ offset) (h1 : offset < 2 ^ 63) :
    fromLE (toLE 8 offset) = offset := fromLE_toLE_of_range (by omega) (by omega)

theorem header_size {m : Payload} (h : m.length < 2 ^ 31) :
    fromLE (toLE 4 (m.length : ℤ)) = m.length := fromLE_toLE_of_range (by omega) (by omega)

end Log

end MyKafka
