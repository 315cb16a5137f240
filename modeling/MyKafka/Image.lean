import Mathlib.Data.List.GetD
import MyKafka.LittleEndian

/-!
# Contents of a regular file

A file is a length together with a byte at every position, zero from the length on, so that the
holes a truncation or a write past the end leave need no list of zeros. Reading and appending are
compared with the list of the bytes; the stores and loads of a shared mapping are fixed-width
integers at an address.
-/

namespace Posix

open LittleEndian

structure Image where
  size : ℕ
  byte : ℕ → UInt8
  zero_tail : ∀ i, size ≤ i → byte i = 0

namespace Image

@[ext] theorem ext {im im' : Image} (hs : im.size = im'.size) (hb : ∀ i, im.byte i = im'.byte i) :
    im = im' := by
  obtain ⟨s, b, h⟩ := im
  obtain ⟨s', b', h'⟩ := im'
  obtain rfl : s = s' := hs
  obtain rfl : b = b' := funext hb
  rfl

def empty : Image := ⟨0, fun _ => 0, fun _ _ => rfl⟩

def toList (im : Image) : List UInt8 := (List.range im.size).map im.byte

/-- At most `n` bytes from position `pos`, fewer where the file ends. -/
def read (im : Image) (pos n : ℕ) : List UInt8 :=
  (List.range (min n (im.size - pos))).map (fun i => im.byte (pos + i))

def append (im : Image) (bs : List UInt8) : Image where
  size := im.size + bs.length
  byte i := if im.size ≤ i then bs.getD (i - im.size) 0 else im.byte i
  zero_tail i hi := by
    rw [if_pos (by omega), List.getD_eq_default]
    omega

/-- A write at a position, which extends the file where it ends after it. -/
def pwrite (im : Image) (pos : ℕ) (bs : List UInt8) : Image where
  size := if bs = [] then im.size else max im.size (pos + bs.length)
  byte i := if pos ≤ i ∧ i < pos + bs.length then bs.getD (i - pos) 0 else im.byte i
  zero_tail i hi := by
    split_ifs at hi with hbs
    · subst bs
      simpa using im.zero_tail i hi
    · rw [if_neg (by omega)]
      exact im.zero_tail i (by omega)

def truncate (im : Image) (n : ℕ) : Image where
  size := n
  byte i := if i < n then im.byte i else 0
  zero_tail i hi := if_neg (by omega)

/-- A store through a shared mapping: nothing past the end of the file reaches it. -/
def store (im : Image) (addr : ℕ) (bs : List UInt8) : Image where
  size := im.size
  byte i := if addr ≤ i ∧ i < addr + bs.length ∧ i < im.size then bs.getD (i - addr) 0
    else im.byte i
  zero_tail i hi := by
    rw [if_neg (by omega)]
    exact im.zero_tail i hi

/-- A load of `w` bytes through a shared mapping, as a signed integer. -/
def load (im : Image) (addr w : ℕ) : ℤ :=
  fromLE ((List.range w).map (fun k => im.byte (addr + k)))

/-! ## Reading and appending -/

@[simp] theorem length_toList (im : Image) : im.toList.length = im.size := by simp [toList]

@[simp] theorem toList_empty : empty.toList = [] := rfl

theorem getElem?_toList (im : Image) (i : ℕ) :
    im.toList[i]? = if i < im.size then some (im.byte i) else none := by
  rw [toList, List.getElem?_map]
  split_ifs with h
  · rw [List.getElem?_range h, Option.map_some]
  · rw [List.getElem?_eq_none (by simpa using h), Option.map_none]

theorem read_eq (im : Image) (pos n : ℕ) : im.read pos n = (im.toList.drop pos).take n := by
  apply List.ext_getElem?
  intro i
  rw [List.getElem?_take, List.getElem?_drop, getElem?_toList]
  by_cases hi : i < min n (im.size - pos)
  · rw [if_pos (by omega), if_pos (by omega)]
    simp [read, List.getElem?_range hi]
  · rw [List.getElem?_eq_none (by simp only [read, List.length_map, List.length_range]; omega)]
    split_ifs <;> first | rfl | omega

theorem read_end {im : Image} {pos : ℕ} (h : im.size ≤ pos) (n : ℕ) : im.read pos n = [] := by
  rw [read_eq, List.drop_eq_nil_of_le (by simpa using h), List.take_nil]

@[simp] theorem size_append (im : Image) (bs : List UInt8) :
    (im.append bs).size = im.size + bs.length := rfl

@[simp] theorem toList_append (im : Image) (bs : List UInt8) :
    (im.append bs).toList = im.toList ++ bs := by
  apply List.ext_getElem?
  intro i
  rw [getElem?_toList]
  by_cases hi : i < im.size
  · rw [List.getElem?_append_left (by simpa using hi), getElem?_toList, if_pos hi, if_pos]
    · simp [append, Nat.not_le.mpr hi]
    · simp only [size_append]; omega
  · rw [List.getElem?_append_right (by simpa using hi), length_toList]
    split_ifs with h
    · simp only [size_append] at h
      rw [List.getElem?_eq_getElem (by omega)]
      simp only [append, if_pos (Nat.not_lt.mp hi), List.getD_eq_getElem?_getD]
      rw [List.getElem?_eq_getElem (by omega), Option.getD_some]
    · simp only [size_append] at h
      rw [List.getElem?_eq_none (by omega)]

@[simp] theorem append_nil (im : Image) : im.append [] = im := by
  apply ext
  · simp
  · intro i
    simp only [append]
    split_ifs with h
    · simpa using (im.zero_tail i h).symm
    · rfl

/-! ## Sizes -/

@[simp] theorem size_empty : empty.size = 0 := rfl

@[simp] theorem size_truncate (im : Image) (n : ℕ) : (im.truncate n).size = n := rfl

@[simp] theorem size_store (im : Image) (addr : ℕ) (bs : List UInt8) :
    (im.store addr bs).size = im.size := rfl

theorem size_pwrite {im : Image} {pos : ℕ} {bs : List UInt8} (h : pos + bs.length ≤ im.size) :
    (im.pwrite pos bs).size = im.size := by
  simp only [pwrite]
  split_ifs <;> omega

/-! ## Loads and stores -/

theorem load_congr {im im' : Image} {addr w : ℕ}
    (h : ∀ k < w, im.byte (addr + k) = im'.byte (addr + k)) : im.load addr w = im'.load addr w := by
  unfold load
  congr 1
  apply List.map_congr_left
  intro k hk
  exact h k (List.mem_range.mp hk)

theorem load_store_at (im : Image) (addr : ℕ) (pre bs post : List UInt8)
    (h : addr + (pre ++ (bs ++ post)).length ≤ im.size) :
    (im.store addr (pre ++ (bs ++ post))).load (addr + pre.length) bs.length = fromLE bs := by
  rw [List.length_append, List.length_append] at h
  unfold load
  congr 1
  apply List.ext_getElem
  · simp
  · intro k hk hk'
    simp only [List.getElem_map, List.getElem_range, store, List.length_append]
    rw [if_pos (by omega), show addr + pre.length + k - addr = pre.length + k by omega,
      List.getD_append_right _ _ _ _ (by omega), Nat.add_sub_cancel_left,
      List.getD_append _ _ _ _ hk', List.getD_eq_getElem _ _ hk']

theorem load_store_same (im : Image) (addr : ℕ) (bs : List UInt8) (h : addr + bs.length ≤ im.size) :
    (im.store addr bs).load addr bs.length = fromLE bs := by
  have hat := load_store_at im addr [] bs [] (by simpa using h)
  simpa using hat

theorem load_store_disjoint {im : Image} {addr addr' w : ℕ} {bs : List UInt8}
    (h : addr' + w ≤ addr ∨ addr + bs.length ≤ addr') :
    (im.store addr bs).load addr' w = im.load addr' w := by
  apply load_congr
  intro k hk
  simp only [store]
  rw [if_neg (by omega)]

theorem load_truncate {im : Image} {addr w n : ℕ} (h : addr + w ≤ n) :
    (im.truncate n).load addr w = im.load addr w := by
  apply load_congr
  intro k hk
  simp only [truncate]
  rw [if_pos (by omega)]

theorem load_pwrite_disjoint {im : Image} {pos addr w : ℕ} {bs : List UInt8}
    (h : addr + w ≤ pos ∨ pos + bs.length ≤ addr) :
    (im.pwrite pos bs).load addr w = im.load addr w := by
  apply load_congr
  intro k hk
  simp only [pwrite]
  rw [if_neg (by omega)]

/-- Clearing the last byte of a number that is not negative. -/
theorem load_pwrite_last {im : Image} {addr w : ℕ} (h : 0 ≤ im.load addr (w + 1)) :
    (im.pwrite (addr + w) [0]).load addr (w + 1) = im.load addr (w + 1) % 256 ^ w := by
  set bs := (List.range w).map (fun k => im.byte (addr + k)) with hbs
  have hlen : bs.length = w := by simp [hbs]
  have hlow : (List.range w).map (fun k => (im.pwrite (addr + w) [0]).byte (addr + k)) = bs := by
    apply List.map_congr_left
    intro k hk
    rw [List.mem_range] at hk
    simp only [pwrite]
    rw [if_neg (by omega)]
  have hold : im.load addr (w + 1) = fromLE (bs ++ [im.byte (addr + w)]) := by
    rw [load, List.range_succ, List.map_append, ← hbs]
    rfl
  have hnew : (im.pwrite (addr + w) [0]).load addr (w + 1) = fromLE (bs ++ [0]) := by
    rw [load, List.range_succ, List.map_append, hlow]
    simp [pwrite]
  rw [hold] at h ⊢
  rw [hnew, fromLE_clear h, hlen]

/-- Past the end of the file a mapping reads zeros. -/
theorem load_past_end {im : Image} {addr w : ℕ} (h : im.size ≤ addr) : im.load addr w = 0 := by
  have hz : (List.range w).map (fun k => im.byte (addr + k)) = toLE w 0 := by
    apply List.ext_getElem
    · simp
    · intro k hk hk'
      have hbyte : ∀ (w k : ℕ) (hk : k < (toLE w 0).length), (toLE w 0)[k] = 0 := by
        intro w
        induction w with
        | zero => simp [toLE]
        | succ w ih =>
            intro k hk
            cases k with
            | zero => rfl
            | succ k => simpa [toLE] using ih k (by simpa [toLE] using hk)
      rw [hbyte]
      simpa using im.zero_tail (addr + k) (by omega)
  rw [load, hz, fromLE_toLE, Int.zero_bmod]

end Image

end Posix
