import MyKafka.Frames
import MyKafka.Index

/-!
# What the index keeps

An open index stands for the list of the positions it was given, one for each entry, and reading
entry `k` gives back position `k` narrowed to 32 bits. Whatever the calls answer, an index touches
its own file only.
-/

namespace MyKafka

open Posix LittleEndian

theorem closeOnError_frame {S : Path → Prop} {I : ℕ → Prop} {w₀ w : World} (h : Frame S I w₀ w)
    {α : Type} (fd : Desc) (code : ErrCode) (msg closing : String) :
    Frame S I w₀ (closeOnError (α := α) w fd code msg closing).2 := by
  have hc := h.close fd
  unfold closeOnError
  split <;> simp_all

namespace Index

/-! ## Frames -/

/-- The index works on names in `S` and inodes in `I` only. -/
structure Confined (S : Path → Prop) (I : ℕ → Prop) (fs : FileSystem) (x : Index) : Prop where
  filename : Inside S x.filename
  fd : x.fd.Mine I fs
  addr : x.addr.Mine I fs

variable {S : Path → Prop} {I : ℕ → Prop} {w₀ w : World} {x : Index}

theorem Confined.new {fs : FileSystem} {filename : RawPath} (h : Inside S filename)
    (baseOffset size : ℤ) : (Index.new filename baseOffset size).Confined S I fs :=
  ⟨h, trivial, trivial⟩

theorem abandon_frame (h : Frame S I w₀ w) (hx : x.Confined S I w₀.fs) (msg closing : String) :
    Frame S I w₀ (x.abandon w msg closing).2.2 ∧
      (x.abandon w msg closing).2.1.Confined S I w₀.fs := by
  have hx' : { x with fd := x.fd.released }.Confined S I w₀.fs :=
    ⟨hx.filename, Desc.Mine.released x.fd, hx.addr⟩
  exact ⟨closeOnError_frame h .., hx'⟩

theorem open_frame (h : Frame S I w₀ w) (hx : x.Confined S I w₀.fs) :
    Frame S I w₀ (x.open w).2.2 ∧ (x.open w).2.1.Confined S I w₀.fs := by
  have ho := h.openCreate hx.filename
  unfold Index.open
  split
  · next w₁ he =>
      rw [he] at ho
      exact ⟨ho.1, hx.filename, trivial, hx.addr⟩
  · next fd w₁ hfd he =>
      rw [he] at ho
      obtain ⟨h₁, hd⟩ := ho
      have hx₁ : { x with fd := fd }.Confined S I w₀.fs := ⟨hx.filename, hd, hx.addr⟩
      have hs := h₁.fstat fd
      split
      · next w₂ he₂ =>
          rw [he₂] at hs
          exact abandon_frame hs hx₁ _ _
      · next buf w₂ he₂ =>
          rw [he₂] at hs
          have hx₂ : { x with fd := fd, position := (buf.size : ℤ) }.Confined S I w₀.fs :=
            ⟨hx.filename, hd, hx.addr⟩
          have ht := hs.ftruncate hd (Utils.roundDownToMultiple x.size entryWidth)
          dsimp only
          split
          · next w₃ he₃ =>
              rw [he₃] at ht
              exact abandon_frame ht hx₂ _ _
          · next w₃ he₃ =>
              rw [he₃] at ht
              have hl := ht.lseek fd (Utils.roundDownToMultiple x.size entryWidth - 1)
              split
              · next w₄ he₄ =>
                  rw [he₄] at hl
                  exact abandon_frame hl hx₂ _ _
              · next w₄ he₄ =>
                  rw [he₄] at hl
                  have hw := hl.pwrite hd
                    (Utils.roundDownToMultiple x.size entryWidth - 1).toNat [0]
                  have hm := hw.mmap hd x.size
                  split_ifs
                  · exact abandon_frame hw hx₂ _ _
                  · split
                    · next w₆ he₆ =>
                        rw [he₆] at hm
                        have hx₃ : { x with
                            fd := fd, position := (buf.size : ℤ), addr := .failed }.Confined
                              S I w₀.fs := ⟨hx.filename, hd, trivial⟩
                        exact abandon_frame hm.1 hx₃ _ _
                    · next addr w₆ _ he₆ =>
                        rw [he₆] at hm
                        exact ⟨hm.1, hx.filename, hd, hm.2⟩

theorem write_frame (h : Frame S I w₀ w) (hx : x.Confined S I w₀.fs) (offset position : ℤ) :
    Frame S I w₀ (x.write offset position w).2.2 ∧
      (x.write offset position w).2.1.Confined S I w₀.fs := by
  unfold write
  dsimp only
  split_ifs
  · exact ⟨h, hx⟩
  · exact ⟨(h.store hx.addr _ _).store hx.addr _ _, hx.filename, hx.fd, hx.addr⟩

theorem close_frame (h : Frame S I w₀ w) (hx : x.Confined S I w₀.fs) :
    Frame S I w₀ (x.close w).2.2 ∧ (x.close w).2.1.Confined S I w₀.fs := by
  unfold Index.close
  split_ifs
  · exact ⟨h, hx⟩
  · have hm := h.munmap x.addr
    split
    · next w₁ he =>
        rw [he] at hm
        exact ⟨hm, hx⟩
    · next w₁ he =>
        rw [he] at hm
        have ht := hm.ftruncate hx.fd x.position
        dsimp only
        split
        · next w₂ he₂ =>
            rw [he₂] at ht
            exact ⟨ht, hx.filename, hx.fd, Addr.Mine.released x.addr⟩
        · next w₂ he₂ =>
            rw [he₂] at ht
            have hc := ht.close x.fd
            split
            · next w₃ he₃ =>
                rw [he₃] at hc
                exact ⟨hc, hx.filename, Desc.Mine.released x.fd, Addr.Mine.released x.addr⟩
            · next w₃ he₃ =>
                rw [he₃] at hc
                exact ⟨hc, hx.filename, trivial, Addr.Mine.released x.addr⟩

theorem deleteIndex_frame (h : Frame S I w₀ w) (hx : x.Confined S I w₀.fs) :
    Frame S I w₀ (x.deleteIndex w).2 := by
  have hu := h.unlink hx.filename
  unfold deleteIndex
  split <;> simp_all

/-! ## An open index as a list of positions -/

/-- The number of entries an index of the default size takes. -/
def capacity : ℕ := (defaultSize / entryWidth).toNat

/-- What `open` and `sanityCheck` accept of the file an earlier index left. -/
structure Sane (im : Image) : Prop where
  aligned : 8 ∣ im.size
  size_le : im.size ≤ 10485760
  last : im.size = 0 ∨ 0 ≤ im.load (im.size - 8) 4

/-- The index is open on the inode `j` and holds the positions `entries`. -/
structure Holds (fs : FileSystem) (j : ℕ) (x : Index) (entries : List ℤ) : Prop where
  fd : ∃ num, x.fd = .live num j
  addr : x.addr = .mapped j
  size : x.size = 10485760
  position : x.position = 8 * entries.length
  room : entries.length ≤ 1310720
  length : (fs.data j).image.size = 10485760
  entry : ∀ k pos, entries[k]? = some pos →
    (fs.data j).image.load (8 * k) 4 = k ∧ (fs.data j).image.load (8 * k + 4) 4 = toInt32 pos
  last : 0 ≤ (fs.data j).image.load (10485760 - 8) 4

theorem Holds.congr {fs fs' : FileSystem} {j : ℕ} {es : List ℤ} (H : Holds fs j x es)
    (h : fs'.data j = fs.data j) : Holds fs' j x es :=
  ⟨H.fd, H.addr, H.size, H.position, H.room, h ▸ H.length, h ▸ H.entry, h ▸ H.last⟩

/-- The file of an index nobody closed. -/
theorem Holds.sane {fs : FileSystem} {j : ℕ} {es : List ℤ} (H : Holds fs j x es) :
    Sane (fs.data j).image :=
  ⟨by rw [H.length]; norm_num, H.length.le, Or.inr (by rw [H.length]; exact H.last)⟩

theorem Holds.slot_le {fs : FileSystem} {j : ℕ} {es : List ℤ} (H : Holds fs j x es) {k : ℕ}
    {pos : ℤ} (hk : es[k]? = some pos) : 8 * k + 8 ≤ (fs.data j).image.size := by
  have hlt := (List.getElem?_eq_some_iff.mp hk).1
  have hroom := H.room
  rw [H.length]
  omega

theorem Sane.empty : Sane Image.empty := ⟨⟨0, rfl⟩, Nat.zero_le _, Or.inl rfl⟩

/-- The file as `open` leaves it: cut or extended to the full size, its last byte cleared. -/
def opened (im : Image) : Image := (im.truncate 10485760).pwrite 10485759 [0]

theorem size_opened (im : Image) : (opened im).size = 10485760 := Image.size_pwrite (by simp)

theorem load_opened (im : Image) {addr : ℕ} (h : addr + 4 ≤ 10485759) :
    (opened im).load addr 4 = im.load addr 4 := by
  rw [opened, Image.load_pwrite_disjoint (Or.inl h), Image.load_truncate (by omega)]

/-- The file as `open` leaves it for an index of `n` bytes. -/
def grown (n : ℕ) (im : Image) : Image := (im.truncate n).pwrite (n - 1) [0]

theorem open_grown (hw : w.Calm) {n : ℕ} (hn : 0 < n) (h8 : 8 ∣ n) (hx : x.size = n) {j : ℕ}
    {fs : FileSystem} (ho : w.fs.openCreate x.filename w.now = some (j, fs)) :
    x.open w = (.ok (),
      { x with position := (fs.data j).image.size, fd := .live w.nextFd j, addr := .mapped j },
      { w with
        fs := fs.setData j ⟨grown n (fs.data j).image, w.now⟩
        nextFd := w.nextFd + 1 }) := by
  have hw' : ∀ (fs : FileSystem) (n : ℕ), World.Calm { w with fs := fs, nextFd := n } :=
    fun _ _ => hw
  have hround : Utils.roundDownToMultiple x.size entryWidth = n := by
    have hmod : Int.tmod (n : ℤ) 8 = 0 := Int.tmod_eq_zero_of_dvd (by exact_mod_cast h8)
    rw [hx, Utils.roundDownToMultiple, show entryWidth = 8 from rfl, hmod, sub_zero]
  unfold Index.open
  rw [World.openCreate_calm hw ho]
  simp only [World.fstat_calm (hw' _ _), hround]
  rw [World.ftruncate_calm (hw' _ _) _ _ (by omega)]
  simp only [World.lseek_calm (World.setImage_calm (hw' _ _) _ _)]
  simp only [show decide ((0 : ℤ) ≤ n - 1) = true from decide_eq_true (by omega)]
  simp only [World.pwrite_calm (World.setImage_calm (hw' _ _) _ _)]
  rw [if_neg (by simp), World.mmap_calm (World.setImage_calm (World.setImage_calm (hw' _ _) _ _) _ _)
    _ _ (by omega)]
  simp only [World.setImage, FileSystem.data_setData_same, FileSystem.setData_setData,
    show ((n : ℤ) - 1).toNat = n - 1 by omega, Int.toNat_natCast]
  rfl

theorem open_calm (hw : w.Calm) (hx : x.size = 10485760) {j : ℕ} {fs : FileSystem}
    (ho : w.fs.openCreate x.filename w.now = some (j, fs)) :
    x.open w = (.ok (),
      { x with position := (fs.data j).image.size, fd := .live w.nextFd j, addr := .mapped j },
      { w with
        fs := fs.setData j ⟨opened (fs.data j).image, w.now⟩
        nextFd := w.nextFd + 1 }) :=
  open_grown hw (by norm_num) (by norm_num) hx ho

/-- An index that was just opened on a sane file and emptied. -/
theorem Holds.opened {fs : FileSystem} {j : ℕ} {im : Image} {mtime : ℤ} (him : Sane im)
    (hfd : ∃ num, x.fd = .live num j) (haddr : x.addr = .mapped j) (hsize : x.size = 10485760)
    (hpos : x.position = 0) : Holds (fs.setData j ⟨opened im, mtime⟩) j x [] where
  fd := hfd
  addr := haddr
  size := hsize
  position := by simpa using hpos
  room := by simp
  length := by simp [size_opened]
  entry k pos h := by simp at h
  last := by
    rw [FileSystem.data_setData_same, load_opened im (by omega)]
    obtain ⟨hdvd, hle, hlast⟩ := him
    by_cases hfull : im.size = 10485760
    · rw [← hfull]
      exact hlast.resolve_left (by omega)
    · rw [Image.load_past_end (by omega)]

theorem read_mapped {w : World} {j a : ℕ} (haddr : x.addr = .mapped j) (hle : (a : ℤ) + 8 ≤ x.size)
    (hin : a + 8 ≤ (w.fs.data j).image.size) :
    x.read a w = .ok ((w.fs.data j).image.load a 4 + x.baseOffset,
      (w.fs.data j).image.load (a + 4) 4) := by
  have hoffset : w.load x.addr a 4 = some ((w.fs.data j).image.load a 4) := by
    rw [haddr]
    exact World.load_mapped (by omega) (by norm_num)
  have hposition : w.load x.addr (a + offsetWidth) 4 =
      some ((w.fs.data j).image.load (a + 4) 4) := by
    rw [haddr, show ((a : ℤ) + offsetWidth) = ((a + 4 : ℕ) : ℤ) from rfl]
    exact World.load_mapped (by omega) (by norm_num)
  rw [Index.read, if_neg (by rw [show entryWidth = 8 from rfl]; omega), hoffset, hposition]

theorem read_inv {w : World} {a offset position : ℤ} (h : x.read a w = .ok (offset, position)) :
    w.load x.addr (a + offsetWidth) 4 = some position := by
  unfold Index.read at h
  split_ifs at h
  · cases h
  · split at h
    · next hposition =>
        rw [hposition]
        exact congrArg some (Prod.mk.inj (Except.ok.inj h)).2
    · cases h

theorem read_slot {w : World} {j k : ℕ} (haddr : x.addr = .mapped j)
    (hle : ((8 * k : ℕ) : ℤ) + 8 ≤ x.size) (hin : 8 * k + 8 ≤ (w.fs.data j).image.size) :
    x.read (k * entryWidth) w = .ok ((w.fs.data j).image.load (8 * k) 4 + x.baseOffset,
      (w.fs.data j).image.load (8 * k + 4) 4) := by
  have hslot : (k : ℤ) * entryWidth = ((8 * k : ℕ) : ℤ) := by
    rw [show entryWidth = 8 from rfl]
    omega
  rw [hslot]
  exact read_mapped haddr hle hin

theorem sanityCheck_calm {w : World} {j : ℕ} {im : Image} {mtime : ℤ} (him : Sane im)
    (hd : w.fs.data j = ⟨opened im, mtime⟩) (haddr : x.addr = .mapped j)
    (hsize : x.size = 10485760) (hpos : x.position = im.size) : x.sanityCheck w = .ok () := by
  obtain ⟨hdvd, hle, hlast⟩ := him
  unfold sanityCheck
  by_cases h0 : x.position = 0
  · rw [if_pos h0]
  · have hmod : Int.tmod x.position entryWidth = 0 := by
      have hdvd' : (8 : ℤ) ∣ im.size := by exact_mod_cast hdvd
      rw [hpos]
      exact Int.tmod_eq_zero_of_dvd hdvd'
    have hge : 8 ≤ im.size := Nat.le_of_dvd (by omega) hdvd
    have hlastEntry : x.position - entryWidth = ((im.size - 8 : ℕ) : ℤ) := by
      rw [hpos, show entryWidth = 8 from rfl]
      omega
    have hfile : (w.fs.data j).image.size = 10485760 := by
      rw [hd]
      exact size_opened im
    have hload : (w.fs.data j).image.load (im.size - 8) 4 = im.load (im.size - 8) 4 := by
      rw [hd]
      exact load_opened im (by omega)
    rw [if_neg h0, if_neg (by simpa using hmod), hlastEntry,
      read_mapped haddr (by rw [hsize]; omega) (by omega), hload]
    dsimp only
    rw [if_neg]
    have := hlast.resolve_left (by omega)
    omega

/-! ## Writing and reading entries -/

variable {j : ℕ} {es : List ℤ}

/-- Storing an entry at byte `a` of a mapped file. -/
def stored (im : Image) (a : ℕ) (offset position : ℤ) : Image :=
  (im.store a (toLE 4 offset)).store (a + 4) (toLE 4 position)

theorem load_stored_offset {im : Image} {a : ℕ} (h : a + 8 ≤ im.size) (offset position : ℤ) :
    (stored im a offset position).load a 4 = toInt32 offset := by
  rw [stored, Image.load_store_disjoint (Or.inl (by omega))]
  have hs := Image.load_store_same im a (toLE 4 offset)
    (by rw [length_toLE]; omega)
  rw [length_toLE, fromLE_toLE] at hs
  exact hs

theorem load_stored_position {im : Image} {a : ℕ} (h : a + 8 ≤ im.size) (offset position : ℤ) :
    (stored im a offset position).load (a + 4) 4 = toInt32 position := by
  have hs := Image.load_store_same (im.store a (toLE 4 offset)) _
    (toLE 4 position) (by rw [length_toLE, Image.size_store]; omega)
  rw [length_toLE, fromLE_toLE] at hs
  exact hs

theorem load_stored_disjoint {im : Image} {a b : ℕ} (h : b + 4 ≤ a ∨ a + 8 ≤ b)
    (offset position : ℤ) : (stored im a offset position).load b 4 = im.load b 4 := by
  rw [stored, Image.load_store_disjoint (by rw [length_toLE]; omega),
    Image.load_store_disjoint (by rw [length_toLE]; omega)]

theorem toInt32_of_range {v : ℤ} (hlo : -2 ^ 31 ≤ v) (hhi : v < 2 ^ 31) : toInt32 v = v := by
  unfold toInt32
  apply Int.bmod_eq_of_le <;> omega

theorem toInt32_toInt32 (v : ℤ) : toInt32 (toInt32 v) = toInt32 v := Int.bmod_bmod

/-- A write that is not refused stores both numbers in the file, and nothing else changes. -/
theorem write_mapped {w : World} (haddr : x.addr = .mapped j) (h0 : 0 ≤ x.position)
    (hroom : x.position < x.size) (offset position : ℤ) :
    x.write offset position w = (.ok (), { x with position := x.position + 8 },
      { w with fs := w.fs.setData j ⟨stored (w.fs.data j).image x.position.toNat
        (toInt32 (offset - x.baseOffset)) (toInt32 position), (w.fs.data j).mtime⟩ }) := by
  have hto : (x.position + offsetWidth).toNat = x.position.toNat + 4 := by
    rw [show offsetWidth = 4 from rfl]
    omega
  unfold write
  dsimp only
  rw [if_neg (by omega), haddr, hto, World.store_mapped, World.store_mapped]
  simp only [FileSystem.data_setData_same, FileSystem.setData_setData]
  rw [add_assoc x.position]
  rfl

theorem write_refused (hfull : x.size ≤ x.position) (offset position : ℤ) (w : World) :
    ∃ e, x.write offset position w = (.error e, x, w) := by
  unfold write
  dsimp only
  rw [if_pos hfull]
  exact ⟨_, rfl⟩

theorem write_full {w : World} (H : Holds w.fs j x es) (hfull : es.length = 1310720)
    (offset position : ℤ) :
    ∃ e, x.write offset position w = (.error e, x, w) := by
  have hp := H.position
  exact write_refused (by rw [H.size, hp, hfull]; omega) offset position w

theorem write_room {w : World} (H : Holds w.fs j x es) (hroom : es.length < 1310720)
    (position : ℤ) :
    ∃ d, x.write (x.baseOffset + es.length) position w =
        (.ok (), { x with position := x.position + 8 }, { w with fs := w.fs.setData j d }) ∧
      Holds (w.fs.setData j d) j { x with position := x.position + 8 } (es ++ [position]) := by
  have hp := H.position
  set im := (w.fs.data j).image with him
  have hsize : im.size = 10485760 := H.length
  have hoff : toInt32 (x.baseOffset + es.length - x.baseOffset) = (es.length : ℤ) :=
    (congrArg toInt32 (by omega)).trans (toInt32_of_range (by omega) (by omega))
  refine ⟨⟨stored im (8 * es.length) es.length (toInt32 position), (w.fs.data j).mtime⟩, ?_, ?_⟩
  · have hto : x.position.toNat = 8 * es.length := by omega
    rw [write_mapped H.addr (by omega) (by rw [H.size]; omega), hoff, hto]
  · refine ⟨H.fd, H.addr, H.size, ?_, ?_, ?_, ?_, ?_⟩
    · simp only [List.length_append, List.length_singleton]
      omega
    · simp only [List.length_append, List.length_singleton]
      omega
    · simpa [stored] using hsize
    · intro k pos hk
      rw [FileSystem.data_setData_same]
      rcases lt_or_ge k es.length with hlt | hge
      · rw [List.getElem?_append_left hlt] at hk
        dsimp only
        rw [load_stored_disjoint (Or.inl (by omega)), load_stored_disjoint (Or.inl (by omega))]
        exact H.entry k pos hk
      · have hkl : k = es.length := by
          by_contra hne
          rw [List.getElem?_eq_none (by simp only [List.length_append, List.length_singleton]; omega)]
            at hk
          cases hk
        subst hkl
        rw [List.getElem?_append_right le_rfl, Nat.sub_self] at hk
        obtain rfl : position = pos := by simpa using hk
        dsimp only
        rw [load_stored_offset (by omega), load_stored_position (by omega), toInt32_toInt32]
        exact ⟨toInt32_of_range (by omega) (by omega), rfl⟩
    · rw [FileSystem.data_setData_same]
      dsimp only
      rcases Nat.lt_or_ge es.length 1310719 with hlt | hge
      · rw [load_stored_disjoint (Or.inr (by omega))]
        exact H.last
      · rw [show 10485760 - 8 = 8 * es.length by omega, load_stored_offset (by omega),
          toInt32_of_range (by omega) (by omega)]
        omega

theorem read_entry {w : World} (H : Holds w.fs j x es) {k : ℕ} {pos : ℤ} (hk : es[k]? = some pos) :
    x.read (k * entryWidth) w = .ok (k + x.baseOffset, toInt32 pos) := by
  have hlt : k < es.length := (List.getElem?_eq_some_iff.mp hk).1
  have hroom := H.room
  obtain ⟨hoff, hpos⟩ := H.entry k pos hk
  rw [read_slot H.addr (by rw [H.size]; omega) (by rw [H.length]; omega), hoff, hpos]

/-! ## Closing -/

theorem close_calm {w : World} (hw : w.Calm) (H : Holds w.fs j x es) :
    ∃ im num, Sane im ∧ x.close w = (.ok (), { x with fd := .closed, addr := .stale j },
      { w with fs := w.fs.setData j ⟨im, w.now⟩, closed := num :: w.closed }) := by
  obtain ⟨num, hfd⟩ := H.fd
  have hp := H.position
  have hroom := H.room
  have hto : x.position.toNat = 8 * es.length := by omega
  refine ⟨(w.fs.data j).image.truncate (8 * es.length), num, ⟨?_, ?_, ?_⟩, ?_⟩
  · exact ⟨es.length, rfl⟩
  · simp only [Image.size_truncate]
    omega
  · rcases Nat.eq_zero_or_pos es.length with h0 | h1
    · left
      simp [h0]
    · right
      have hk : es[es.length - 1]? = some es[es.length - 1] := List.getElem?_eq_getElem (by omega)
      rw [Image.size_truncate, Image.load_truncate (by omega),
        show 8 * es.length - 8 = 8 * (es.length - 1) by omega, (H.entry _ _ hk).1]
      omega
  · unfold Index.close
    rw [if_neg (by rw [hfd]; simp), World.munmap_calm hw (by rw [H.addr]; simp)]
    dsimp only
    rw [hfd, World.ftruncate_calm hw num j (by omega)]
    dsimp only
    rw [World.close_calm (World.setImage_calm hw _ _), hto, H.addr]
    rfl

end Index

end MyKafka
