import MyKafka.Directory
import MyKafka.IndexSpec

/-!
# Closing an index and opening it again

`close` cuts the file of an index to the entries that were written, and `open` extends it to its full
size again and writes a zero byte at its end. In a full index that byte is the most significant byte
of the last position.
-/

namespace MyKafka

open Posix LittleEndian

namespace Index

/-- Writing several entries, each an absolute offset and a position, up to the first refusal. -/
def writeAll (x : Index) : List (ℤ × ℤ) → World → Result Unit × Index × World
  | [], w => (.ok (), x, w)
  | (offset, position) :: es, w =>
    match x.write offset position w with
    | (.error e, x, w) => (.error e, x, w)
    | (.ok (), x, w) => x.writeAll es w

/-- Both numbers of an entry fit the fields of an index whose first offset is `base`. -/
structure InRange (base : ℤ) (e : ℤ × ℤ) : Prop where
  base_le : base ≤ e.1
  offset_lt : e.1 - base < 2 ^ 31
  position_nonneg : 0 ≤ e.2
  position_lt : e.2 < 2 ^ 31

/-- What closing the index `x` and opening it again, as `y`, must keep of its entries. -/
structure Survives (x : Index) (entries : List (ℤ × ℤ)) (w : World) (y : Index) : Prop where
  closes : (x.close w).1 = .ok ()
  opens : (y.open (x.close w).2.2).1 = .ok ()
  position : (y.open (x.close w).2.2).2.1.position = x.position
  before : ∀ (k : ℕ) e, entries[k]? = some e → x.read (k * entryWidth) w = .ok e
  after : ∀ (k : ℕ) e, entries[k]? = some e →
    (y.open (x.close w).2.2).2.1.read (k * entryWidth) (y.open (x.close w).2.2).2.2 = .ok e
  sane : (y.open (x.close w).2.2).2.1.sanityCheck (y.open (x.close w).2.2).2.2 = .ok ()

/-! ## The entries of an open index -/

/-- The entries lie one after the other from the start of the file. -/
def Entries (im : Image) (base : ℤ) (es : List (ℤ × ℤ)) : Prop :=
  ∀ k e, es[k]? = some e → im.load (8 * k) 4 = e.1 - base ∧ im.load (8 * k + 4) 4 = e.2

/-- The index of `n` bytes is open on the inode `j` and was given the entries `es`. -/
structure Keeps (fs : FileSystem) (j n : ℕ) (x : Index) (es : List (ℤ × ℤ)) : Prop where
  fd : ∃ num, x.fd = .live num j
  addr : x.addr = .mapped j
  size : x.size = n
  position : x.position = 8 * es.length
  room : 8 * es.length ≤ n
  length : (fs.data j).image.size = n
  entries : Entries (fs.data j).image x.baseOffset es

variable {w w' : World} {j n : ℕ} {x x' y : Index} {es : List (ℤ × ℤ)}

theorem Entries.snoc {im : Image} {base : ℤ} {e : ℤ × ℤ} (h : Entries im base es)
    (he : InRange base e) (hroom : 8 * es.length + 8 ≤ im.size) :
    Entries (stored im (8 * es.length) (toInt32 (e.1 - base)) (toInt32 e.2)) base (es ++ [e]) := by
  intro k e' hk
  rcases lt_or_ge k es.length with hlt | hge
  · rw [List.getElem?_append_left hlt] at hk
    rw [load_stored_disjoint (Or.inl (by omega)), load_stored_disjoint (Or.inl (by omega))]
    exact h k e' hk
  · have hlen := (List.getElem?_eq_some_iff.mp hk).1
    rw [List.length_append, List.length_singleton] at hlen
    obtain rfl : k = es.length := by omega
    rw [List.getElem?_append_right le_rfl, Nat.sub_self] at hk
    obtain rfl : e = e' := by simpa using hk
    have hbase := he.base_le
    have hpos := he.position_nonneg
    rw [load_stored_offset hroom, load_stored_position hroom, toInt32_toInt32, toInt32_toInt32,
      toInt32_of_range (by omega) he.offset_lt, toInt32_of_range (by omega) he.position_lt]
    exact ⟨rfl, rfl⟩

/-- A write that is not refused adds its entry, and changes the file of the index only. -/
theorem Keeps.write (H : Keeps w.fs j n x es) (h8 : 8 ∣ n) {e : ℤ × ℤ}
    (he : InRange x.baseOffset e) (h : x.write e.1 e.2 w = (.ok (), x', w')) :
    (∃ d, w' = { w with fs := w.fs.setData j d }) ∧ x' = { x with position := x.position + 8 } ∧
      Keeps w'.fs j n x' (es ++ [e]) := by
  have hp := H.position
  have hsize := H.size
  rcases le_or_gt x.size x.position with hfull | hfree
  · obtain ⟨err, hrefused⟩ := write_refused hfull e.1 e.2 w
    rw [hrefused] at h
    cases h
  · have hroom : 8 * es.length + 8 ≤ n := by omega
    have hto : x.position.toNat = 8 * es.length := by omega
    rw [write_mapped H.addr (by omega) hfree, hto] at h
    obtain ⟨rfl, rfl⟩ := (Prod.mk.injEq ..).mp (Prod.mk.inj h).2
    refine ⟨⟨_, rfl⟩, rfl, H.fd, H.addr, H.size, ?_, ?_, ?_, ?_⟩
    · rw [List.length_append, List.length_singleton]
      push_cast
      omega
    · rw [List.length_append, List.length_singleton]
      omega
    · rw [FileSystem.data_setData_same]
      exact H.length
    · rw [FileSystem.data_setData_same]
      exact H.entries.snoc he (by rw [H.length]; exact hroom)

theorem Keeps.writeAll (h8 : 8 ∣ n) {new : List (ℤ × ℤ)} (H : Keeps w.fs j n x es)
    (hnew : ∀ e ∈ new, InRange x.baseOffset e) (h : x.writeAll new w = (.ok (), x', w')) :
    (∃ d, w' = { w with fs := w.fs.setData j d }) ∧ x'.baseOffset = x.baseOffset ∧
      Keeps w'.fs j n x' (es ++ new) := by
  induction new generalizing x w es with
  | nil =>
      obtain ⟨rfl, rfl⟩ : x = x' ∧ w = w' := by simpa [Index.writeAll] using h
      refine ⟨⟨w.fs.data j, ?_⟩, rfl, by rwa [List.append_nil]⟩
      have hsame : w.fs.setData j (w.fs.data j) = w.fs := by simp [FileSystem.setData]
      rw [hsame]
  | cons e new ih =>
      rw [Index.writeAll] at h
      rcases hwr : x.write e.1 e.2 w with ⟨_ | _, x₁, w₁⟩
      · rw [hwr] at h
        cases h
      · rw [hwr] at h
        obtain ⟨⟨d, rfl⟩, rfl, H₁⟩ := H.write h8 (hnew e (by simp)) hwr
        obtain ⟨⟨d', rfl⟩, hbase, H'⟩ := ih H₁ (fun e' he' => hnew e' (by simp [he'])) h
        refine ⟨⟨d', by simp⟩, hbase, ?_⟩
        rwa [List.append_assoc] at H'

theorem Keeps.read (H : Keeps w.fs j n x es) (h8 : 8 ∣ n) {k : ℕ} {e : ℤ × ℤ}
    (hk : es[k]? = some e) : x.read (k * entryWidth) w = .ok e := by
  have hlt : k < es.length := (List.getElem?_eq_some_iff.mp hk).1
  have hroom := H.room
  obtain ⟨m, hm⟩ := h8
  obtain ⟨hoff, hpos⟩ := H.entries k e hk
  rw [read_slot H.addr (by rw [H.size]; omega) (by rw [H.length]; omega), hoff, hpos,
    sub_add_cancel]

theorem Keeps.close (H : Keeps w.fs j n x es) (hw : w.Calm) :
    ∃ num, x.close w = (.ok (), { x with fd := .closed, addr := .stale j },
      { w with
        fs := w.fs.setData j ⟨(w.fs.data j).image.truncate (8 * es.length), w.now⟩
        closed := num :: w.closed }) := by
  obtain ⟨num, hfd⟩ := H.fd
  have hp := H.position
  have hto : x.position.toNat = 8 * es.length := by omega
  refine ⟨num, ?_⟩
  unfold Index.close
  rw [if_neg (by rw [hfd]; simp), World.munmap_calm hw (by rw [H.addr]; simp)]
  dsimp only
  rw [hfd, World.ftruncate_calm hw num j (by omega)]
  dsimp only
  rw [World.close_calm (World.setImage_calm hw _ _), hto, H.addr]
  rfl

/-! ## The file that is opened again -/

theorem size_grown (hn : 0 < n) (im : Image) : (grown n im).size = n :=
  Image.size_pwrite (by rw [Image.size_truncate, List.length_singleton]; omega)

theorem load_grown {im : Image} {addr m : ℕ} (hm : addr + 4 ≤ m) (hlt : addr + 4 < n) :
    (grown n (im.truncate m)).load addr 4 = im.load addr 4 := by
  rw [grown, Image.load_pwrite_disjoint (Or.inl (by omega)), Image.load_truncate (by omega),
    Image.load_truncate hm]

/-- The last number of a full index loses its most significant byte. -/
theorem load_grown_last {im : Image} {addr : ℕ} (hn : addr + 4 = n) (h : 0 ≤ im.load addr 4) :
    (grown n (im.truncate n)).load addr 4 = im.load addr 4 % 2 ^ 24 := by
  have hload : ((im.truncate n).truncate n).load addr (3 + 1) = im.load addr 4 := by
    rw [Image.load_truncate hn.le, Image.load_truncate hn.le]
  have h₀ : 0 ≤ ((im.truncate n).truncate n).load addr (3 + 1) := hload ▸ h
  have hlast := Image.load_pwrite_last h₀
  rw [hload, show addr + 3 = n - 1 by omega] at hlast
  exact hlast

/-- The entry `k` as the index that was closed and opened again reads it. -/
def reread (n k : ℕ) (e : ℤ × ℤ) : ℤ × ℤ :=
  if 8 * (k + 1) = n then (e.1, e.2 % 2 ^ 24) else e

/-- All entries are read as they were unless the last one fills the file and is large. -/
theorem reread_eq_iff {base : ℤ} (hes : ∀ e ∈ es, InRange base e) (hroom : 8 * es.length ≤ n) :
    (∀ (k : ℕ) e, es[k]? = some e → reread n k e = e) ↔
      8 * es.length < n ∨ ∀ e ∈ es.getLast?, e.2 < 2 ^ 24 := by
  constructor
  · intro h
    by_contra! hne
    obtain ⟨hfull, e, he, hlarge⟩ := hne
    rw [Option.mem_def, List.getLast?_eq_getElem?] at he
    have hlt := (List.getElem?_eq_some_iff.mp he).1
    have hsame := congrArg Prod.snd (h _ e he)
    rw [reread, if_pos (by omega)] at hsame
    dsimp only at hsame
    omega
  · intro h k e hk
    have hlt := (List.getElem?_eq_some_iff.mp hk).1
    unfold reread
    split_ifs with hlast
    · have hsmall := (h.resolve_left (by omega)) e (by
        rw [Option.mem_def, List.getLast?_eq_getElem?, ← hk]
        congr 1
        omega)
      have hnonneg := (hes e (List.mem_of_getElem? hk)).position_nonneg
      rw [Int.emod_eq_of_lt hnonneg hsmall]
    · rfl

theorem Entries.grown {im : Image} {base : ℤ} (h : Entries im base es)
    (hes : ∀ e ∈ es, InRange base e) (hroom : 8 * es.length ≤ n) {k : ℕ} {e : ℤ × ℤ}
    (hk : es[k]? = some e) :
    (Index.grown n (im.truncate (8 * es.length))).load (8 * k) 4 = (reread n k e).1 - base ∧
      (Index.grown n (im.truncate (8 * es.length))).load (8 * k + 4) 4 = (reread n k e).2 := by
  have hlt : k < es.length := (List.getElem?_eq_some_iff.mp hk).1
  obtain ⟨hoff, hpos⟩ := h k e hk
  unfold reread
  split_ifs with hlast
  · have hfull : 8 * es.length = n := by omega
    have hnonneg := (hes e (List.mem_of_getElem? hk)).position_nonneg
    rw [load_grown (by omega) (by omega), hfull, load_grown_last (by omega) (by omega), hoff, hpos]
    exact ⟨rfl, rfl⟩
  · rw [load_grown (by omega) (by omega), load_grown (by omega) (by omega)]
    exact ⟨hoff, hpos⟩

/-- The index that was closed and opened again, as another object or as the same one. -/
theorem Keeps.reopen (H : Keeps w.fs j n x es) (hw : w.Calm) (hn : 0 < n) (h8 : 8 ∣ n)
    (ho : ∀ d now, (w.fs.setData j d).openCreate y.filename now = some (j, w.fs.setData j d))
    (hy : y.size = n) :
    (x.close w).1 = .ok () ∧ ∃ y' w', y.open (x.close w).2.2 = (.ok (), y', w') ∧
      y'.size = n ∧ y'.baseOffset = y.baseOffset ∧ y'.position = 8 * es.length ∧
      y'.addr = .mapped j ∧
      (w'.fs.data j).image = Index.grown n ((w.fs.data j).image.truncate (8 * es.length)) := by
  obtain ⟨num, hc⟩ := H.close hw
  rw [hc]
  have hopen := open_grown
    (w := { w with
      fs := w.fs.setData j ⟨(w.fs.data j).image.truncate (8 * es.length), w.now⟩
      closed := num :: w.closed }) hw hn h8 hy (ho _ _)
  refine ⟨rfl, _, _, hopen, hy, rfl, ?_, rfl, ?_⟩
  · simp
  · simp

/-- Closing an index and opening it again loses an entry only where the index is full and its last
position takes four bytes. -/
theorem Keeps.keeps_iff (H : Keeps w.fs j n x es) (hw : w.Calm) (hn : 0 < n) (h8 : 8 ∣ n)
    (ho : ∀ d now, (w.fs.setData j d).openCreate y.filename now = some (j, w.fs.setData j d))
    (hy : y.size = n) (hbase : y.baseOffset = x.baseOffset)
    (hes : ∀ e ∈ es, InRange x.baseOffset e) :
    Survives x es w y ↔ 8 * es.length < n ∨ ∀ e ∈ es.getLast?, e.2 < 2 ^ 24 := by
  have hroom := H.room
  have hp := H.position
  obtain ⟨hclose, y', w', hopen, hsize, hbase', hpos, haddr, himage⟩ := H.reopen hw hn h8 ho hy
  -- an entry reads as it lies in the file
  have hread : ∀ (k : ℕ) e, es[k]? = some e → y'.read (k * entryWidth) w' = .ok (reread n k e) := by
    intro k e hk
    have hlt : k < es.length := (List.getElem?_eq_some_iff.mp hk).1
    obtain ⟨hoff, hposn⟩ := H.entries.grown hes hroom hk
    have hfile : (w'.fs.data j).image.size = n := by rw [himage, size_grown hn]
    rw [read_slot haddr (by rw [hsize]; omega) (by rw [hfile]; omega), himage, hoff, hposn, hbase',
      hbase, sub_add_cancel]
  have hsane : y'.sanityCheck w' = .ok () := by
    unfold sanityCheck
    split_ifs with h0 hmod
    · rfl
    · rw [hpos] at hmod
      exact absurd (Int.tmod_eq_zero_of_dvd ⟨_, rfl⟩) hmod
    · have hlast : es[es.length - 1]? = some es[es.length - 1] :=
        List.getElem?_eq_getElem (by omega)
      have hat : y'.position - entryWidth = (es.length - 1 : ℕ) * entryWidth := by
        rw [hpos, show entryWidth = 8 from rfl]
        omega
      have hle := (hes _ (List.mem_of_getElem? hlast)).base_le
      rw [hat, hread _ _ hlast]
      dsimp only
      rw [if_neg]
      rw [hbase', hbase, reread]
      split_ifs <;> exact not_lt.mpr hle
  have hiff : Survives x es w y ↔ ∀ (k : ℕ) e, es[k]? = some e → reread n k e = e := by
    constructor
    · intro hs k e hk
      have hafter := hs.after k e hk
      rw [hopen] at hafter
      dsimp only at hafter
      rw [hread k e hk, Except.ok.injEq] at hafter
      exact hafter
    · intro hk
      refine ⟨hclose, by rw [hopen], by rw [hopen]; dsimp only; omega, ?_, ?_, ?_⟩
      · exact fun k e he => H.read h8 he
      · rw [hopen]
        intro k e he
        dsimp only
        rw [hread k e he, hk k e he]
      · rw [hopen]
        exact hsane
  rw [hiff]
  exact reread_eq_iff hes hroom

/-! ## A new index -/

/-- An index of any size that is created, written, closed and opened again keeps its entries exactly
if it was not full or its last position takes at most three bytes. -/
theorem survives_iff {filename : RawPath} {base size : ℤ} (hsize : 0 < size)
    (h8 : entryWidth ∣ size) (hw : w.Calm) {fs : FileSystem}
    (ho : w.fs.openCreate filename w.now = some (j, fs)) (hempty : (fs.data j).image.size = 0)
    (hes : ∀ e ∈ es, InRange base e)
    (hwrites : ((new filename base size).open w).2.1.writeAll es
      ((new filename base size).open w).2.2 = (.ok (), x, w'))
    (hname : y.filename = filename) (hbase : y.baseOffset = base) (hy : y.size = size) :
    Survives x es w' y ↔ 8 * es.length < size ∨ ∀ e ∈ es.getLast?, e.2 < 2 ^ 24 := by
  obtain ⟨n, rfl⟩ := Int.eq_ofNat_of_zero_le hsize.le
  have hn : 0 < n := by omega
  have hdvd : 8 ∣ n := Int.natCast_dvd_natCast.mp h8
  have hnew : (new filename base n).size = n := by
    unfold new
    exact if_pos (by omega)
  rw [open_grown hw hn hdvd hnew ho] at hwrites
  dsimp only at hwrites
  have H : Keeps (fs.setData j ⟨grown n (fs.data j).image, w.now⟩) j n
      { new filename base n with
        position := (fs.data j).image.size, fd := .live w.nextFd j, addr := .mapped j } [] :=
    ⟨⟨_, rfl⟩, rfl, hnew, by simp [hempty], Nat.zero_le _, by simp [size_grown hn],
      fun k e hk => by simp at hk⟩
  obtain ⟨⟨d, rfl⟩, hbase', H'⟩ := H.writeAll hdvd hes hwrites
  have hagain := H'.keeps_iff hw hn hdvd (y := y)
    (by
      intro d' now
      rw [hname, FileSystem.setData_setData, FileSystem.setData_setData]
      exact FileSystem.openCreate_again ho d' now)
    hy (hbase.trans hbase'.symm) (by rw [hbase']; exact hes)
  rw [List.nil_append] at hagain
  rw [hagain]
  exact or_congr_left (by omega)

theorem survives_iff_two :
    let first := (new ⟨[], [['i']]⟩ 5 16).open (World.blank 0)
    let last := first.2.1.writeAll [(5, 0), (6, 2 ^ 24 - 1)] first.2.2
    Survives last.2.1 [(5, 0), (6, 2 ^ 24 - 1)] last.2.2 last.2.1 := by
  intro first last
  have hwrites : last = (.ok (), last.2.1, last.2.2) :=
    Prod.ext (eq_ok_of_isOk (by decide +kernel)) rfl
  have ho : (World.blank 0).fs.openCreate ⟨[], [['i']]⟩ 0 =
      some (0, (World.blank 0).fs.create [['i']] ⟨Image.empty, 0⟩) := rfl
  have hiff := survives_iff (w := World.blank 0) (y := last.2.1) (by norm_num) (by decide) rfl ho
    rfl ?_ hwrites (by decide +kernel) (by decide +kernel) (by decide +kernel)
  · apply hiff.mpr
    right
    decide
  · simp only [List.mem_cons, List.not_mem_nil, or_false, forall_eq_or_imp, forall_eq]
    exact ⟨⟨by decide, by decide, by decide, by decide⟩, ⟨by decide, by decide, by decide, by decide⟩⟩

/-- An index of one entry, whose position takes four bytes. -/
theorem full_index_cleared :
    let first := (new ⟨[], [['i']]⟩ 0 8).open (World.blank 0)
    let last := first.2.1.writeAll [(0, 2 ^ 24)] first.2.2
    first.1 = .ok () ∧ last.1 = .ok () ∧ InRange 0 (0, 2 ^ 24) ∧
      ¬ Survives last.2.1 [(0, 2 ^ 24)] last.2.2 last.2.1 := by
  intro first last
  refine ⟨eq_ok_of_isOk (by decide +kernel), eq_ok_of_isOk (by decide +kernel), ?_, ?_⟩
  · exact ⟨by decide, by decide, by decide, by decide⟩
  · intro h
    have hread := congrArg Except.toOption (h.after 0 (0, 2 ^ 24) rfl)
    revert hread
    decide +kernel

end Index

end MyKafka
