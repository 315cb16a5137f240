import MyKafka.Directory
import MyKafka.LogFormat
import MyKafka.SegmentFrame

/-!
# The two files of a segment

A chunk is what a segment stands for: a base offset and the messages from it on. `OnDisk` relates
it to the bytes of the two files, `Open` to an open segment object as well. The names of the files
give the base offset back.
-/

namespace MyKafka

open Posix LittleEndian Decimal

/-! ## File names -/

def logName (baseOffset : ℤ) : Name := padded20 baseOffset ++ logExtension

def indexName (baseOffset : ℤ) : Name := padded20 baseOffset ++ indexExtension

theorem getLogFilename_eq (path : RawPath) (b : ℤ) : getLogFilename path b = path.child (logName b) :=
  rfl

theorem getIndexFilename_eq (path : RawPath) (b : ℤ) :
    getIndexFilename path b = path.child (indexName b) := rfl

theorem plain_of_length {n : Name} (h : 2 < n.length) : PlainName n := by
  refine ⟨?_, ?_, ?_⟩ <;> rintro rfl <;> simp at h

theorem plain_logName (b : ℤ) : PlainName (logName b) :=
  plain_of_length (by simp [logName, logExtension])

theorem plain_indexName (b : ℤ) : PlainName (indexName b) :=
  plain_of_length (by simp [indexName, indexExtension])

theorem logName_ne_indexName (b b' : ℤ) : logName b ≠ indexName b' := by
  intro h
  have hl := congrArg List.getLast? h
  simp [logName, indexName, logExtension, indexExtension] at hl

theorem numeral_padded20 {b : ℤ} (h : 0 ≤ b) : Numeral (padded20 b) := by
  rw [padded20, if_neg (by omega)]
  exact numeral_padded _ _

theorem padded20_inj {b b' : ℤ} (h : 0 ≤ b) (h' : 0 ≤ b') (he : padded20 b = padded20 b') :
    b = b' := by
  rw [padded20, if_neg (by omega), padded20, if_neg (by omega)] at he
  have hv := congrArg (digitsValue 0) he
  rw [digitsValue_padded, digitsValue_padded] at hv
  omega

theorem logName_inj {b b' : ℤ} (h : 0 ≤ b) (h' : 0 ≤ b') (he : logName b = logName b') : b = b' :=
  padded20_inj h h' (List.append_cancel_right he)

theorem indexName_inj {b b' : ℤ} (h : 0 ≤ b) (h' : 0 ≤ b') (he : indexName b = indexName b') :
    b = b' := padded20_inj h h' (List.append_cancel_right he)

/-! ## Chunks -/

/-- The messages of a segment, the bytes its log holds after them, and when it was last written. -/
structure Chunk where
  base : ℕ
  msgs : List Payload
  junk : List UInt8
  mtime : ℤ

namespace Chunk

/-- The offset after the last message. -/
def next (c : Chunk) : ℕ := c.base + c.msgs.length

def size (c : Chunk) : ℕ := Log.logSize c.msgs

def push (c : Chunk) (m : Payload) (now : ℤ) : Chunk :=
  { c with msgs := c.msgs ++ [m], mtime := now }

/-- Bytes that no entry of the index points to. -/
def spoil (c : Chunk) (bytes : List UInt8) (now : ℤ) : Chunk :=
  { c with junk := c.junk ++ bytes, mtime := now }

@[simp] theorem next_push (c : Chunk) (m : Payload) (now : ℤ) : (c.push m now).next = c.next + 1 := by
  simp only [next, push, List.length_append, List.length_singleton]
  omega

theorem size_push (c : Chunk) (m : Payload) (now : ℤ) :
    (c.push m now).size = c.size + (12 + m.length) := by
  simp [size, push, Log.logSize_append, Log.logSize]

/-- Every offset and every payload length fits its field. -/
structure Fits (c : Chunk) : Prop where
  payload : ∀ m ∈ c.msgs, m.length < 2 ^ 31
  next_lt : c.next < 2 ^ 63
  room : c.msgs.length ≤ 1310720

end Chunk

/-- An empty chunk. -/
def emptyChunk (base : ℕ) (mtime : ℤ) : Chunk := ⟨base, [], [], mtime⟩

theorem emptyChunk_fits {base : ℕ} (h : base < 2 ^ 63) (mtime : ℤ) :
    (emptyChunk base mtime).Fits :=
  ⟨by simp [emptyChunk], by simpa [emptyChunk, Chunk.next] using h, by simp [emptyChunk]⟩

/-- The two names of a segment in its directory. -/
def ownNames (dir : Path) (base : ℤ) (q : Path) : Prop :=
  q = dir ++ [logName base] ∨ q = dir ++ [indexName base]

/-- The files of a chunk: the inodes `i` of the log and `j` of the index. -/
structure OnDisk (fs : FileSystem) (dir : Path) (i j : ℕ) (c : Chunk) : Prop where
  log : fs.node? (dir ++ [logName c.base]) = some (.file i)
  index : fs.node? (dir ++ [indexName c.base]) = some (.file j)
  bytes : (fs.data i).image.toList = Log.encode c.base c.msgs ++ c.junk
  mtime : (fs.data i).mtime = c.mtime
  fits : c.Fits

namespace OnDisk

variable {fs fs' : FileSystem} {dir : Path} {i j : ℕ} {c : Chunk}

theorem ne (h : OnDisk fs dir i j c) : i ≠ j := by
  rintro rfl
  have hp := FileSystem.node?_inj h.log h.index
  exact logName_ne_indexName _ _ (by simpa using hp)

theorem named (h : OnDisk fs dir i j c) : FileSystem.Named (ownNames dir c.base) fs i ∧
    FileSystem.Named (ownNames dir c.base) fs j :=
  ⟨⟨_, Or.inl rfl, h.log⟩, ⟨_, Or.inr rfl, h.index⟩⟩

theorem frame {S : Path → Prop} (h : OnDisk fs dir i j c)
    (hw : FileSystem.Within S (FileSystem.Named S fs) fs fs')
    (hS : ∀ q, ownNames dir c.base q → ¬ S q) :
    OnDisk fs' dir i j c ∧ fs'.data i = fs.data i ∧ fs'.data j = fs.data j := by
  have hl := hS _ (Or.inl rfl)
  have hx := hS _ (Or.inr rfl)
  have hi := hw.file hl h.log
  have hj := hw.file hx h.index
  refine ⟨⟨?_, ?_, ?_, ?_, h.fits⟩, hi, hj⟩
  · rw [hw.node _ hl, h.log]
  · rw [hw.node _ hx, h.index]
  · rw [hi, h.bytes]
  · rw [hi, h.mtime]

end OnDisk

/-- An open segment and the chunk it stands for. Bytes without an index entry are only there once
the index is full. -/
structure OpenAs (fs : FileSystem) (path : RawPath) (dir : Path) (i j : ℕ) (s : Segment)
    (c : Chunk) : Prop extends OnDisk fs dir i j c where
  fd : ∃ num, s.fd = .live num i
  fdRead : ∃ num, s.fdRead = .live num i
  nextOffset : s.nextOffset = c.next
  position : s.position = c.size
  physicalSize : s.physicalSize = c.size
  filename : s.filename = getLogFilename path c.base
  indexFilename : s.index.filename = getIndexFilename path c.base
  baseOffset : s.index.baseOffset = c.base
  holds : s.index.Holds fs j (Log.startsFrom 0 c.msgs)
  junk : c.junk = [] ∨ c.msgs.length = 1310720

namespace OpenAs

variable {fs fs' : FileSystem} {path : RawPath} {dir : Path} {i j : ℕ} {s : Segment} {c : Chunk}

theorem frame {S : Path → Prop} (h : OpenAs fs path dir i j s c)
    (hw : FileSystem.Within S (FileSystem.Named S fs) fs fs')
    (hS : ∀ q, ownNames dir c.base q → ¬ S q) : OpenAs fs' path dir i j s c := by
  obtain ⟨hd, -, hj⟩ := h.toOnDisk.frame hw hS
  exact { h with
    toOnDisk := hd
    holds := h.holds.congr hj }

theorem confined (h : OpenAs fs path dir i j s c) (hp : FileSystem.At fs path dir) :
    s.Confined (ownNames dir c.base) (FileSystem.Named (ownNames dir c.base) fs) fs := by
  obtain ⟨hi, hj⟩ := h.named
  obtain ⟨n₁, h₁⟩ := h.fd
  obtain ⟨n₂, h₂⟩ := h.fdRead
  obtain ⟨n₃, h₃⟩ := h.holds.fd
  refine ⟨?_, ?_, ?_, ?_, ?_, ?_⟩
  · rw [h.filename]
    exact hp.inside (plain_logName _) (Or.inl rfl)
  · rw [h₁]
    exact Or.inr hi
  · rw [h₂]
    exact Or.inr hi
  · rw [h.indexFilename]
    exact hp.inside (plain_indexName _) (Or.inr rfl)
  · rw [h₃]
    exact Or.inr hj
  · rw [h.holds.addr]
    exact Or.inr hj

end OpenAs

end MyKafka
