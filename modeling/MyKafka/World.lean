import MyKafka.FileSystem

/-!
# System calls

A world is the file system, the clock in seconds, the descriptor allocator, and the outcomes the
kernel has in store for the calls to come: one is consumed by each call, and a world that has none
left answers every call normally. A descriptor is kept together with the inode it is open on. A
program that closes a descriptor and keeps its number holds a `stale` one, on which calls fail; so
does one that keeps the address of a mapping that is gone. A kernel gives such numbers and addresses
out again, and the allocator here does not: a world stands for the machine as long as the stale ones
are not used while others are opened.
-/

namespace Posix

/-- The answer to one call: served, refused, or for a write, cut after `n` bytes. A write that is
served is written in full: the bound a kernel sets on one call is a `short` answer like any other. -/
inductive Outcome where
  | ok
  | fail
  | short (n : ℕ)
  deriving DecidableEq

/-- The order in which a directory, or a hash table, lists what it holds. -/
structure ListOrder (α : Type) where
  order : List α → List α
  perm : ∀ l, (order l).Perm l

/-- A descriptor field: negative, open on an inode, or the number of a closed descriptor. -/
inductive Desc where
  | closed
  | live (num ino : ℕ)
  | stale (num : ℕ)
  deriving DecidableEq

/-- An address returned by `mmap`, the null pointer before any call, or the address of a mapping
that is gone. -/
inductive Addr where
  | null
  | failed
  | mapped (ino : ℕ)
  | stale (ino : ℕ)
  deriving DecidableEq

structure Stat where
  size : ℕ
  mtime : ℤ

structure World where
  fs : FileSystem
  now : ℤ
  outcomes : List Outcome
  order : ListOrder Name
  nextFd : ℕ
  /-- The numbers `close` was called on, last first. -/
  closed : List ℕ

namespace Desc

/-- What is left in a descriptor field once its descriptor is closed. -/
def released : Desc → Desc
  | .live num _ => .stale num
  | d => d

def isStale : Desc → Bool
  | .stale _ => true
  | .closed | .live _ _ => false

end Desc

namespace Addr

/-- What is left in an address field once its mapping is gone. -/
def released : Addr → Addr
  | .mapped i => .stale i
  | a => a

def isStale : Addr → Bool
  | .stale _ => true
  | .null | .failed | .mapped _ => false

end Addr

namespace World

/-- An empty file system, and no call refused. -/
def blank (now : ℤ) : World where
  fs := FileSystem.blank
  now := now
  outcomes := []
  order := ⟨id, fun l => List.Perm.refl l⟩
  nextFd := 3
  closed := []

/-- Every call from here on is served. -/
def Calm (w : World) : Prop := w.outcomes = []

def next (w : World) : Outcome × World :=
  match w.outcomes with
  | [] => (.ok, w)
  | o :: os => (o, { w with outcomes := os })

def setImage (w : World) (i : ℕ) (im : Image) : World :=
  { w with fs := w.fs.setData i ⟨im, w.now⟩ }

/-- A store through a mapping, which is no system call. -/
def store (w : World) (a : Addr) (addr : ℕ) (bs : List UInt8) : World :=
  match a with
  | .mapped i =>
    { w with fs := w.fs.setData i ⟨(w.fs.data i).image.store addr bs, (w.fs.data i).mtime⟩ }
  | _ => w

def pageSize : ℕ := 4096

/-- A load of `width` bytes at `addr` in a mapping. There is none outside a mapping, nor in a page
that lies behind the end of the file: the process is killed. -/
def load (w : World) (a : Addr) (addr : ℤ) (width : ℕ) : Option ℤ :=
  match a with
  | .mapped i =>
    if 0 ≤ addr ∧ (addr + width - 1) / pageSize * pageSize < (w.fs.data i).image.size then
      some ((w.fs.data i).image.load addr.toNat width)
    else none
  | _ => none

/-- Whether the next call is served at all. -/
def served (w : World) : Bool × World :=
  match w.next with
  | (.fail, w) => (false, w)
  | (_, w) => (true, w)

/-! ## Calls on paths -/

/-- `open` with `O_RDWR | O_CREAT`. -/
def openCreate (w : World) (r : RawPath) : Desc × World :=
  match w.served with
  | (false, w) => (.closed, w)
  | (true, w) =>
    match w.fs.openCreate r w.now with
    | none => (.closed, w)
    | some (i, fs) => (.live w.nextFd i, { w with fs := fs, nextFd := w.nextFd + 1 })

/-- `open` with `O_RDONLY`. -/
def openRead (w : World) (r : RawPath) : Desc × World :=
  match w.served with
  | (false, w) => (.closed, w)
  | (true, w) =>
    match w.fs.fileAt r with
    | none => (.closed, w)
    | some i => (.live w.nextFd i, { w with nextFd := w.nextFd + 1 })

def unlink (w : World) (r : RawPath) : Bool × World :=
  match w.served with
  | (false, w) => (false, w)
  | (true, w) =>
    match w.fs.resolve r with
    | none => (false, w)
    | some p =>
      match w.fs.node? p with
      | some (.file _) => (true, { w with fs := w.fs.erase p })
      | _ => (false, w)

def exists? (w : World) (r : RawPath) : Bool :=
  match w.fs.resolve r with
  | none => false
  | some p => (w.fs.node? p).isSome

def isRegular (w : World) (r : RawPath) : Bool := (w.fs.fileAt r).isSome

/-- `create_directories`; `false` is the exception it throws. -/
def createDirectories (w : World) (r : RawPath) : Bool × World :=
  match w.served with
  | (false, w) => (false, w)
  | (true, w) =>
    match w.fs.mkdirs r.base r.comps with
    | (p, fs) => (p.isSome, { w with fs := fs })

/-- The names `directory_iterator` yields. -/
def listing (w : World) (r : RawPath) : List Name :=
  match w.fs.resolve r with
  | none => []
  | some p => w.order.order (w.fs.children p)

/-- `remove` of a file or of an empty directory. -/
def remove (w : World) (r : RawPath) : World :=
  match w.fs.resolve r with
  | none => w
  | some p =>
    match w.fs.node? p with
    | none => w
    | some (.file _) => { w with fs := w.fs.erase p }
    | some .dir => if w.fs.children p = [] then { w with fs := w.fs.erase p } else w

/-- `remove_all`. -/
def removeAll (w : World) (r : RawPath) : World :=
  match w.fs.resolve r with
  | none => w
  | some p => { w with fs := w.fs.removeTree p }

/-! ## Calls on descriptors -/

def fstat (w : World) (d : Desc) : Option Stat × World :=
  match w.served, d with
  | (true, w), .live _ i => (some ⟨(w.fs.data i).image.size, (w.fs.data i).mtime⟩, w)
  | (_, w), _ => (none, w)

def ftruncate (w : World) (d : Desc) (size : ℤ) : Bool × World :=
  match w.served, d with
  | (true, w), .live _ i =>
    if size < 0 then (false, w)
    else (true, w.setImage i ((w.fs.data i).image.truncate size.toNat))
  | (_, w), _ => (false, w)

/-- `lseek` to the absolute position `target`. -/
def lseek (w : World) (d : Desc) (target : ℤ) : Bool × World :=
  match w.served, d with
  | (true, w), .live _ _ => (decide (0 ≤ target), w)
  | (_, w), _ => (false, w)

/-- `read` of at most `n` bytes at `pos`. -/
def read (w : World) (d : Desc) (pos n : ℕ) : Option (List UInt8) × World :=
  match w.served, d with
  | (true, w), .live _ i => (some ((w.fs.data i).image.read pos n), w)
  | (_, w), _ => (none, w)

/-- `write` at `pos`: the number of bytes written, or -1. -/
def pwrite (w : World) (d : Desc) (pos : ℕ) (bs : List UInt8) : ℤ × World :=
  match w.next, d with
  | (.ok, w), .live _ i => (bs.length, w.setImage i ((w.fs.data i).image.pwrite pos bs))
  | (.short n, w), .live _ i =>
    ((bs.take n).length, w.setImage i ((w.fs.data i).image.pwrite pos (bs.take n)))
  | (_, w), _ => (-1, w)

/-- `write` on a descriptor opened with `O_APPEND`: the number of bytes written, or -1. One that is
served writes them all, however many they are. -/
def append (w : World) (d : Desc) (bs : List UInt8) : ℤ × World :=
  match w.next, d with
  | (.ok, w), .live _ i => (bs.length, w.setImage i ((w.fs.data i).image.append bs))
  | (.short n, w), .live _ i =>
    ((bs.take n).length, w.setImage i ((w.fs.data i).image.append (bs.take n)))
  | (_, w), _ => (-1, w)

/-- A shared read-write mapping of `size` bytes. -/
def mmap (w : World) (d : Desc) (size : ℤ) : Addr × World :=
  match w.served, d with
  | (true, w), .live _ i => (if 0 < size then .mapped i else .failed, w)
  | (_, w), _ => (.failed, w)

def munmap (w : World) (a : Addr) : Bool × World :=
  match w.served with
  | (false, w) => (false, w)
  | (true, w) => (decide (a ≠ .failed), w)

/-- `close`: a live descriptor is released whatever the call answers. -/
def close (w : World) (d : Desc) : Bool × World :=
  match w.served, d with
  | (b, w), .live num _ => (b, { w with closed := num :: w.closed })
  | (_, w), .stale num => (false, { w with closed := num :: w.closed })
  | (_, w), .closed => (false, w)

@[simp] theorem fs_next (w : World) : w.next.2.fs = w.fs := by
  unfold World.next
  split <;> rfl

@[simp] theorem fs_served (w : World) : w.served.2.fs = w.fs := by
  have hn := w.fs_next
  unfold World.served
  split <;> simp_all

@[simp] theorem now_next (w : World) : w.next.2.now = w.now := by
  unfold World.next
  split <;> rfl

@[simp] theorem now_served (w : World) : w.served.2.now = w.now := by
  have hn := w.now_next
  unfold World.served
  split <;> simp_all

@[simp] theorem fs_lseek (w : World) (d : Desc) (target : ℤ) : (w.lseek d target).2.fs = w.fs := by
  have hs := w.fs_served
  unfold World.lseek
  split <;> simp_all

@[simp] theorem fs_read (w : World) (d : Desc) (pos n : ℕ) : (w.read d pos n).2.fs = w.fs := by
  have hs := w.fs_served
  unfold World.read
  split <;> simp_all

@[simp] theorem fs_munmap (w : World) (a : Addr) : (w.munmap a).2.fs = w.fs := by
  have hs := w.fs_served
  unfold World.munmap
  split <;> simp_all

@[simp] theorem fs_close (w : World) (d : Desc) : (w.close d).2.fs = w.fs := by
  have hs := w.fs_served
  unfold World.close
  split <;> simp_all

/-! ## Calls that are served -/

section Calm

variable {w : World}

@[simp] theorem next_calm (h : w.Calm) : w.next = (.ok, w) := by
  rw [next, show w.outcomes = [] from h]

@[simp] theorem served_calm (h : w.Calm) : w.served = (true, w) := by
  rw [served, next_calm h]

theorem openCreate_calm (h : w.Calm) {r : RawPath} {i : ℕ} {fs : FileSystem}
    (ho : w.fs.openCreate r w.now = some (i, fs)) :
    w.openCreate r = (.live w.nextFd i, { w with fs := fs, nextFd := w.nextFd + 1 }) := by
  simp [openCreate, h, ho]

theorem openRead_calm (h : w.Calm) {r : RawPath} {i : ℕ} (ho : w.fs.fileAt r = some i) :
    w.openRead r = (.live w.nextFd i, { w with nextFd := w.nextFd + 1 }) := by
  simp [openRead, h, ho]

theorem unlink_calm (h : w.Calm) {r : RawPath} {p : Path} {i : ℕ}
    (hr : w.fs.resolve r = some p) (hp : w.fs.node? p = some (.file i)) :
    w.unlink r = (true, { w with fs := w.fs.erase p }) := by
  simp [unlink, h, hr, hp]

theorem fstat_calm (h : w.Calm) (num i : ℕ) :
    w.fstat (.live num i) = (some ⟨(w.fs.data i).image.size, (w.fs.data i).mtime⟩, w) := by
  simp [fstat, h]

theorem ftruncate_calm (h : w.Calm) (num i : ℕ) {size : ℤ} (hs : 0 ≤ size) :
    w.ftruncate (.live num i) size =
      (true, w.setImage i ((w.fs.data i).image.truncate size.toNat)) := by
  simp [ftruncate, h, hs]

theorem lseek_calm (h : w.Calm) (num i : ℕ) (target : ℤ) :
    w.lseek (.live num i) target = (decide (0 ≤ target), w) := by
  simp [lseek, h]

theorem read_calm (h : w.Calm) (num i pos n : ℕ) :
    w.read (.live num i) pos n = (some ((w.fs.data i).image.read pos n), w) := by
  simp [read, h]

theorem lseek_same (h : w.Calm) (d : Desc) (target : ℤ) : (w.lseek d target).2 = w := by
  cases d <;> simp [lseek, h]

theorem read_same (h : w.Calm) (d : Desc) (pos n : ℕ) : (w.read d pos n).2 = w := by
  cases d <;> simp [read, h]

theorem pwrite_calm (h : w.Calm) (num i pos : ℕ) (bs : List UInt8) :
    w.pwrite (.live num i) pos bs =
      ((bs.length : ℤ), w.setImage i ((w.fs.data i).image.pwrite pos bs)) := by
  simp [pwrite, h]

theorem append_calm (h : w.Calm) (num i : ℕ) (bs : List UInt8) :
    w.append (.live num i) bs =
      ((bs.length : ℤ), w.setImage i ((w.fs.data i).image.append bs)) := by
  simp [append, h]

theorem mmap_calm (h : w.Calm) (num i : ℕ) {size : ℤ} (hs : 0 < size) :
    w.mmap (.live num i) size = (.mapped i, w) := by
  simp [mmap, h, hs]

theorem munmap_calm (h : w.Calm) {a : Addr} (ha : a ≠ .failed) : w.munmap a = (true, w) := by
  simp [munmap, h, ha]

theorem close_calm (h : w.Calm) (num i : ℕ) :
    w.close (.live num i) = (true, { w with closed := num :: w.closed }) := by
  simp [close, h]

end Calm

/-! ## Calls that are not refused -/

/-- None of the next `n` calls is refused, but writes may be cut. -/
def Serving (n : ℕ) (w : World) : Prop := ∀ o ∈ w.outcomes.take n, o ≠ .fail

instance (n : ℕ) (w : World) : Decidable (w.Serving n) :=
  inferInstanceAs (Decidable (∀ o ∈ w.outcomes.take n, o ≠ .fail))

/-- No call is refused. -/
def Obliging (w : World) : Prop := ∀ o ∈ w.outcomes, o ≠ .fail

instance (w : World) : Decidable w.Obliging :=
  inferInstanceAs (Decidable (∀ o ∈ w.outcomes, o ≠ .fail))

/-- The world after the next call, but for what the call does. -/
def rest (w : World) : World := { w with outcomes := w.outcomes.tail }

theorem Obliging.serving {w : World} (h : w.Obliging) (n : ℕ) : w.Serving n :=
  fun o ho => h o (List.mem_of_mem_take ho)

theorem Obliging.rest {w : World} (h : w.Obliging) : w.rest.Obliging :=
  fun o ho => h o (List.mem_of_mem_tail ho)

theorem Calm.obliging {w : World} (h : w.Calm) : w.Obliging := by
  intro o ho
  rw [show w.outcomes = [] from h] at ho
  simp at ho

theorem Calm.serving {w : World} (h : w.Calm) (n : ℕ) : w.Serving n := h.obliging.serving n

section Serving

variable {w : World} {n : ℕ}

theorem Serving.rest (h : w.Serving (n + 1)) : w.rest.Serving n := by
  intro o ho
  refine h o ?_
  cases hos : w.outcomes with
  | nil => simp [World.rest, hos] at ho
  | cons o' os =>
      rw [World.rest, hos] at ho
      exact List.mem_cons_of_mem _ ho

theorem next_serving (h : w.Serving (n + 1)) :
    w.next = (.ok, w.rest) ∨ ∃ k, w.next = (.short k, w.rest) := by
  obtain ⟨fs, now, outcomes, order, nextFd, closed⟩ := w
  cases outcomes with
  | nil => exact Or.inl rfl
  | cons o os =>
      have ho := h o (by simp)
      cases o with
      | ok => exact Or.inl rfl
      | fail => exact absurd rfl ho
      | short k => exact Or.inr ⟨k, rfl⟩

theorem served_serving (h : w.Serving (n + 1)) : w.served = (true, w.rest) := by
  rcases next_serving h with hn | ⟨k, hn⟩ <;> rw [served, hn]

theorem openCreate_serving (h : w.Serving (n + 1)) {r : RawPath} {i : ℕ} {fs : FileSystem}
    (ho : w.fs.openCreate r w.now = some (i, fs)) :
    w.openCreate r = (.live w.nextFd i, { w.rest with fs := fs, nextFd := w.nextFd + 1 }) := by
  unfold openCreate
  rw [served_serving h]
  dsimp only [World.rest]
  rw [ho]

theorem fstat_serving (h : w.Serving (n + 1)) (num i : ℕ) :
    w.fstat (.live num i) =
      (some ⟨(w.fs.data i).image.size, (w.fs.data i).mtime⟩, w.rest) := by
  unfold fstat
  rw [served_serving h]
  rfl

theorem ftruncate_serving (h : w.Serving (n + 1)) (num i : ℕ) {size : ℤ} (hs : 0 ≤ size) :
    w.ftruncate (.live num i) size =
      (true, w.rest.setImage i ((w.fs.data i).image.truncate size.toNat)) := by
  unfold ftruncate
  rw [served_serving h]
  dsimp only
  rw [if_neg (by omega)]
  rfl

theorem lseek_serving (h : w.Serving (n + 1)) (num i : ℕ) (target : ℤ) :
    w.lseek (.live num i) target = (decide (0 ≤ target), w.rest) := by
  unfold lseek
  rw [served_serving h]

theorem pwrite_serving (h : w.Serving (n + 1)) (num i pos : ℕ) (bs : List UInt8) :
    ∃ cs, cs <+: bs ∧ w.pwrite (.live num i) pos bs =
      ((cs.length : ℤ), w.rest.setImage i ((w.fs.data i).image.pwrite pos cs)) := by
  rcases next_serving h with hn | ⟨k, hn⟩
  · refine ⟨bs, List.prefix_refl _, ?_⟩
    unfold pwrite
    rw [hn]
    rfl
  · refine ⟨bs.take k, List.take_prefix _ _, ?_⟩
    unfold pwrite
    rw [hn]
    rfl

theorem mmap_serving (h : w.Serving (n + 1)) (num i : ℕ) {size : ℤ} (hs : 0 < size) :
    w.mmap (.live num i) size = (.mapped i, w.rest) := by
  unfold mmap
  rw [served_serving h]
  dsimp only
  rw [if_pos hs]

theorem munmap_serving (h : w.Serving (n + 1)) {a : Addr} (ha : a ≠ .failed) :
    w.munmap a = (true, w.rest) := by
  unfold munmap
  rw [served_serving h]
  simp [ha]

theorem close_serving (h : w.Serving (n + 1)) (num i : ℕ) :
    w.close (.live num i) = (true, { w.rest with closed := num :: w.closed }) := by
  unfold close
  rw [served_serving h]
  rfl

end Serving

@[simp] theorem fs_setImage (w : World) (i : ℕ) (im : Image) :
    (w.setImage i im).fs = w.fs.setData i ⟨im, w.now⟩ := rfl

theorem setImage_calm {w : World} (h : w.Calm) (i : ℕ) (im : Image) : (w.setImage i im).Calm := h

theorem store_mapped (w : World) (i addr : ℕ) (bs : List UInt8) :
    w.store (.mapped i) addr bs = { w with
      fs := w.fs.setData i ⟨(w.fs.data i).image.store addr bs, (w.fs.data i).mtime⟩ } := rfl

theorem load_mapped {w : World} {i addr width : ℕ}
    (h : addr + width ≤ (w.fs.data i).image.size) (hw : 0 < width) :
    w.load (.mapped i) addr width = some ((w.fs.data i).image.load addr width) := by
  have hlast : addr + width - 1 < (w.fs.data i).image.size :=
    (Nat.sub_lt (Nat.add_pos_right _ hw) Nat.one_pos).trans_le h
  unfold load pageSize
  dsimp only
  rw [if_pos (by omega), Int.toNat_natCast]

theorem load_inv {w : World} {i width : ℕ} {addr v : ℤ}
    (h : w.load (.mapped i) addr width = some v) :
    ∃ a : ℕ, addr = a ∧ (w.fs.data i).image.load a width = v := by
  unfold load at h
  dsimp only at h
  split_ifs at h with hpage
  obtain ⟨a, rfl⟩ := Int.eq_ofNat_of_zero_le hpage.1
  exact ⟨a, rfl, Option.some.inj h⟩

/-- A load in the first page, where an empty file reads as zeros. -/
theorem load_first_page (w : World) (i : ℕ) {addr width : ℕ} (h : addr + width ≤ pageSize) :
    (w.load (.mapped i) addr width).getD 0 = (w.fs.data i).image.load addr width := by
  unfold load
  dsimp only
  split_ifs with hpage
  · rw [Option.getD_some, Int.toNat_natCast]
  · have hempty : (w.fs.data i).image.size ≤ addr := by
      unfold pageSize at h hpage
      omega
    exact (Image.load_past_end hempty).symm

end World

end Posix
