import MyKafka.IndexReopen
import MyKafka.SegmentDescriptors

/-!
# The bounds of an index of any size

`open` rounds the size down to whole entries for the file, `write` refuses at the size itself, and
`read` refuses past the size less one entry. The three agree where the size is a multiple of the
entry width; elsewhere there is a gap after the last whole entry in which a write is still accepted.
-/

namespace Posix

namespace World

variable {w w' : World} {num i : ℕ}

theorem ftruncate_size {size : ℤ} (h : w.ftruncate (.live num i) size = (true, w')) :
    ((w'.fs.data i).image.size : ℤ) = size := by
  unfold ftruncate at h
  rcases hs : w.served with ⟨_ | _, w₁⟩
  · rw [hs] at h
    cases h
  · rw [hs] at h
    dsimp only at h
    split_ifs at h with hneg
    · cases h
    · obtain rfl := (Prod.mk.inj h).2
      simp only [fs_setImage, FileSystem.data_setData_same, Image.size_truncate]
      omega

theorem pwrite_size {pos : ℕ} {bs : List UInt8}
    (hin : pos + bs.length ≤ (w.fs.data i).image.size) :
    ((w.pwrite (.live num i) pos bs).2.fs.data i).image.size = (w.fs.data i).image.size := by
  have hfs := w.fs_next
  unfold pwrite
  rcases hn : w.next with ⟨_ | _ | n, w₁⟩
  · rw [hn] at hfs
    dsimp only at hfs ⊢
    rw [fs_setImage, FileSystem.data_setData_same, hfs]
    exact Image.size_pwrite hin
  · rw [hn] at hfs
    dsimp only at hfs ⊢
    rw [hfs]
  · rw [hn] at hfs
    dsimp only at hfs ⊢
    rw [fs_setImage, FileSystem.data_setData_same, hfs]
    apply Image.size_pwrite
    rw [List.length_take]
    omega

theorem mmap_mapped {size : ℤ} {a : Addr} (h : w.mmap (.live num i) size = (a, w'))
    (ha : a ≠ .failed) : a = .mapped i ∧ w'.fs = w.fs := by
  have hfs := w.fs_served
  unfold mmap at h
  rcases he : w.served with ⟨_ | _, w₁⟩
  · rw [he] at h
    cases h
    exact absurd rfl ha
  · rw [he] at h hfs
    dsimp only at h
    split_ifs at h
    · cases h
      exact ⟨rfl, hfs⟩
    · cases h
      exact absurd rfl ha

end World

end Posix

namespace MyKafka

open Posix LittleEndian

variable {w w' : World}

namespace Index

variable {x y : Index}

/-- The size of the file `open` makes. -/
def roundedSize (x : Index) : ℤ := Utils.roundDownToMultiple x.size entryWidth

/-- The next entry lies inside the file. -/
def Fits (x : Index) : Prop := 0 ≤ x.position ∧ x.position + entryWidth ≤ x.roundedSize

instance (x : Index) : Decidable x.Fits :=
  inferInstanceAs (Decidable (0 ≤ x.position ∧ x.position + entryWidth ≤ x.roundedSize))

theorem roundedSize_le (h : 0 ≤ x.size) : x.roundedSize ≤ x.size := by
  have hmod := Int.tmod_nonneg entryWidth h
  unfold roundedSize Utils.roundDownToMultiple
  omega

theorem lt_roundedSize (x : Index) : x.size < x.roundedSize + entryWidth := by
  have hmod := Int.tmod_lt_of_pos x.size (show 0 < entryWidth by decide)
  unfold roundedSize Utils.roundDownToMultiple
  omega

theorem dvd_roundedSize (x : Index) : entryWidth ∣ x.roundedSize :=
  Int.dvd_self_sub_of_tmod_eq rfl

theorem roundedSize_eq_iff : x.roundedSize = x.size ↔ entryWidth ∣ x.size := by
  constructor
  · intro h
    rw [← h]
    exact dvd_roundedSize x
  · intro h
    rw [roundedSize, Utils.roundDownToMultiple, Int.tmod_eq_zero_of_dvd h, sub_zero]

/-! ## What `open` leaves -/

/-- An `open` without an error leaves a mapped file of the rounded size, whatever the calls
answered. -/
theorem open_mapped (hsize : 0 < x.roundedSize) (h : x.open w = (.ok (), y, w')) :
    ∃ j, y.addr = .mapped j ∧ y.size = x.size ∧ y.baseOffset = x.baseOffset ∧ 0 ≤ y.position ∧
      ((w'.fs.data j).image.size : ℤ) = x.roundedSize := by
  have hlive := w.openCreate_live x.filename
  unfold Index.open at h
  rcases he : w.openCreate x.filename with ⟨fd, w₁⟩
  rw [he] at hlive h
  dsimp only at hlive
  rcases hlive with rfl | ⟨num, i, rfl⟩
  · cases h
  · dsimp only at h
    split at h
    · exact absurd h (abandon_fails _ _ _ _ _ _)
    · split at h
      · exact absurd h (abandon_fails _ _ _ _ _ _)
      · next w₃ ht =>
          have hcut : ((w₃.fs.data i).image.size : ℤ) = x.roundedSize := World.ftruncate_size ht
          split at h
          · exact absurd h (abandon_fails _ _ _ _ _ _)
          · next w₄ hl =>
              have hseek : w₄.fs = w₃.fs := by
                rw [← World.fs_lseek w₃, hl]
              have hin : (x.roundedSize - 1).toNat + [(0 : UInt8)].length ≤
                  (w₄.fs.data i).image.size := by
                rw [hseek, List.length_singleton]
                omega
              have hlast : ((w₄.pwrite (.live num i) (x.roundedSize - 1).toNat [0]).2.fs.data
                  i).image.size = (w₄.fs.data i).image.size := World.pwrite_size hin
              split_ifs at h
              · exact absurd h (abandon_fails _ _ _ _ _ _)
              · split at h
                · exact absurd h (abandon_fails _ _ _ _ _ _)
                · next hfailed hm =>
                    obtain ⟨rfl, hfs⟩ := World.mmap_mapped hm hfailed
                    cases h
                    refine ⟨i, rfl, rfl, rfl, Int.natCast_nonneg _, ?_⟩
                    rw [hfs]
                    exact (congrArg Nat.cast (hlast.trans (by rw [hseek]))).trans hcut

end Index

/-! ## Runs of writes and truncations -/

inductive IndexCall where
  | write (offset position : ℤ)
  | truncateEntries (nb : ℤ)

/-- Both numbers of a write fit the fields of an index whose first offset is `base`. -/
def IndexCall.InRange (base : ℤ) : IndexCall → Prop
  | .write offset position => Index.InRange base (offset, position)
  | .truncateEntries _ => True

/-- An entry that was written, and the position it was written at. -/
structure IndexEntry where
  slot : ℤ
  offset : ℤ
  position : ℤ

/-- An open index, with the entries that were written to it and not truncated since. -/
structure IndexHost where
  index : Index
  world : World
  live : List IndexEntry

namespace IndexHost

def call (h : IndexHost) : IndexCall → Result Unit × IndexHost
  | .write offset position =>
    match h.index.write offset position h.world with
    | (.error e, x, w) => (.error e, ⟨x, w, h.live⟩)
    | (.ok (), x, w) => (.ok (), ⟨x, w, h.live ++ [⟨h.index.position, offset, position⟩]⟩)
  | .truncateEntries nb =>
    match h.index.truncateEntries nb with
    | (.error e, x) => (.error e, ⟨x, h.world, h.live⟩)
    | (.ok (), x) =>
      (.ok (), ⟨x, h.world,
        h.live.filter (fun e => e.slot + Index.entryWidth ≤ nb * Index.entryWidth)⟩)

/-- A write answers without an error exactly if its entry lies inside the file, and every entry is
read at its slot after the call. -/
structure Agrees (h : IndexHost) (c : IndexCall) : Prop where
  answer : ∀ offset position, c = .write offset position →
    ((h.call c).1 = .ok () ↔ h.index.Fits)
  reads : ∀ e ∈ (h.call c).2.live,
    (h.call c).2.index.read e.slot (h.call c).2.world = .ok (e.offset, e.position)

/-- A write does not come before the file, nor between its end and the size. -/
def Clear (h : IndexHost) : IndexCall → Prop
  | .write _ _ => h.index.Fits ∨ h.index.size ≤ h.index.position
  | .truncateEntries _ => True

instance (h : IndexHost) : DecidablePred h.Clear := by
  intro c
  cases c <;> unfold Clear <;> infer_instance

/-- The file has the rounded size, and every entry lies in it below the position. -/
structure Kept (base : ℤ) (j : ℕ) (h : IndexHost) : Prop where
  addr : h.index.addr = .mapped j
  size : 0 < h.index.size
  offset : h.index.baseOffset = base
  length : ((h.world.fs.data j).image.size : ℤ) = h.index.roundedSize
  below : ∀ e ∈ h.live, 0 ≤ e.slot ∧ e.slot + 8 ≤ h.index.position ∧
    e.slot + 8 ≤ h.index.roundedSize
  entries : ∀ e ∈ h.live, (h.world.fs.data j).image.load e.slot.toNat 4 = e.offset - base ∧
    (h.world.fs.data j).image.load (e.slot.toNat + 4) 4 = e.position

variable {h : IndexHost} {c : IndexCall} {base : ℤ} {j : ℕ}

theorem call_write_refused (hfull : h.index.size ≤ h.index.position) (offset position : ℤ) :
    ∃ e, h.call (.write offset position) = (.error e, h) := by
  obtain ⟨e, hw⟩ := Index.write_refused hfull offset position h.world
  refine ⟨e, ?_⟩
  unfold call
  dsimp only
  rw [hw]

theorem call_write_ok (hfree : h.index.position < h.index.size) (offset position : ℤ) :
    ∃ w, h.call (.write offset position) = (.ok (),
      ⟨{ h.index with position := h.index.position + 8 }, w,
        h.live ++ [⟨h.index.position, offset, position⟩]⟩) := by
  have hsum : h.index.position + Index.offsetWidth + Index.positionWidth = h.index.position + 8 :=
    add_assoc ..
  unfold call Index.write
  dsimp only
  rw [if_neg (by omega), hsum]
  exact ⟨_, rfl⟩

/-- An entry that is written where it fits lies in the file, and the ones below it stay. -/
theorem Kept.write (H : Kept base j h) (hfit : h.index.Fits) {offset position : ℤ}
    (hc : Index.InRange base (offset, position)) :
    Kept base j (h.call (.write offset position)).2 := by
  obtain ⟨h0, hroom⟩ := hfit
  have hround := Index.roundedSize_le H.size.le
  rw [show Index.entryWidth = 8 from rfl] at hroom
  have hlen := H.length
  have hbase := hc.base_le
  have hpos := hc.position_nonneg
  unfold call
  dsimp only at hbase hpos ⊢
  rw [Index.write_mapped H.addr h0 (by omega)]
  have hin : h.index.position.toNat + 8 ≤ (h.world.fs.data j).image.size := by omega
  refine ⟨H.addr, H.size, H.offset, ?_, ?_, ?_⟩
  · rw [FileSystem.data_setData_same]
    exact hlen
  · intro e he
    rcases List.mem_append.mp he with hold | hnew
    · obtain ⟨hslot, hbelow, hinside⟩ := H.below e hold
      exact ⟨hslot, by dsimp only; omega, hinside⟩
    · obtain rfl := List.mem_singleton.mp hnew
      exact ⟨h0, le_rfl, hroom⟩
  · intro e he
    rw [FileSystem.data_setData_same]
    dsimp only
    rcases List.mem_append.mp he with hold | hnew
    · obtain ⟨hslot, hbelow, hinside⟩ := H.below e hold
      rw [Index.load_stored_disjoint (Or.inl (by omega)),
        Index.load_stored_disjoint (Or.inl (by omega))]
      exact H.entries e hold
    · obtain rfl := List.mem_singleton.mp hnew
      dsimp only
      rw [Index.load_stored_offset hin, Index.load_stored_position hin, Index.toInt32_toInt32,
        Index.toInt32_toInt32, H.offset, Index.toInt32_of_range (by omega) hc.offset_lt,
        Index.toInt32_of_range (by omega) hc.position_lt]
      exact ⟨rfl, rfl⟩

theorem Kept.truncateEntries (H : Kept base j h) (nb : ℤ) :
    Kept base j (h.call (.truncateEntries nb)).2 := by
  unfold call Index.truncateEntries
  dsimp only
  split_ifs
  · exact H
  · refine ⟨H.addr, H.size, H.offset, H.length, ?_, ?_⟩
    · intro e he
      obtain ⟨hold, hkept⟩ := List.mem_filter.mp he
      obtain ⟨hslot, hbelow, hinside⟩ := H.below e hold
      exact ⟨hslot, of_decide_eq_true hkept, hinside⟩
    · intro e he
      exact H.entries e (List.mem_of_mem_filter he)

theorem Kept.call (H : Kept base j h) (hc : c.InRange base) (hclear : h.Clear c) :
    Kept base j (h.call c).2 := by
  cases c with
  | truncateEntries nb => exact H.truncateEntries nb
  | write offset position =>
      rcases hclear with hfit | hfull
      · exact H.write hfit hc
      · obtain ⟨e, hrefused⟩ := call_write_refused hfull offset position
        rw [hrefused]
        exact H

theorem Kept.read (H : Kept base j h) {e : IndexEntry} (he : e ∈ h.live) :
    h.index.read e.slot h.world = .ok (e.offset, e.position) := by
  have hround := Index.roundedSize_le H.size.le
  obtain ⟨hslot, hbelow, hinside⟩ := H.below e he
  obtain ⟨hoff, hpos⟩ := H.entries e he
  have hlen := H.length
  obtain ⟨a, ha⟩ := Int.eq_ofNat_of_zero_le hslot
  rw [ha, Int.toNat_natCast] at hoff hpos
  rw [ha, Index.read_mapped H.addr (by omega) (by omega), hoff, hpos, H.offset, sub_add_cancel]

/-- The bounds agree on a call exactly if it is no write in the gap. -/
theorem Kept.agrees_iff (H : Kept base j h) (hc : c.InRange base) : h.Agrees c ↔ h.Clear c := by
  constructor
  · intro hagrees
    cases c with
    | truncateEntries nb => trivial
    | write offset position =>
        rcases lt_or_ge h.index.position h.index.size with hfree | hfull
        · obtain ⟨w, hok⟩ := call_write_ok hfree offset position
          left
          apply (hagrees.answer offset position rfl).mp
          rw [hok]
        · exact Or.inr hfull
  · intro hclear
    refine ⟨?_, fun e he => (H.call hc hclear).read he⟩
    rintro offset position rfl
    have hround := Index.roundedSize_le H.size.le
    rcases lt_or_ge h.index.position h.index.size with hfree | hfull
    · obtain ⟨w, hok⟩ := call_write_ok hfree offset position
      rw [hok]
      exact iff_of_true rfl (hclear.resolve_right (by omega))
    · obtain ⟨e, hrefused⟩ := call_write_refused hfull offset position
      rw [hrefused]
      apply iff_of_false (by rintro ⟨⟩)
      rintro ⟨-, hroom⟩
      rw [show Index.entryWidth = 8 from rfl] at hroom
      omega

theorem Kept.always_iff (H : Kept base j h) {calls : List IndexCall}
    (hcs : ∀ c ∈ calls, c.InRange base) :
    Runs.Always IndexHost.call Agrees h calls ↔ Runs.Always IndexHost.call Clear h calls := by
  refine Runs.always_congr (P := Kept base j) ?_ ?_ H (Runs.always_inputs hcs)
  · intro h c H hc
    exact H.agrees_iff hc
  · intro h c H hc hagrees
    exact H.call hc ((H.agrees_iff hc).mp hagrees)

/-! ## Where the gap is empty -/

/-- The position of an index that was given whole entries only. -/
structure Aligned (size : ℤ) (h : IndexHost) : Prop where
  size : h.index.size = size
  nonneg : 0 ≤ h.index.position
  dvd : Index.entryWidth ∣ h.index.position

theorem Aligned.call {size : ℤ} (H : Aligned size h)
    (hc : ∀ nb, c = .truncateEntries nb → 0 ≤ nb) : Aligned size (h.call c).2 := by
  obtain ⟨hsize, hnonneg, hdvd⟩ := H
  cases c with
  | truncateEntries nb =>
      have hnb := hc nb rfl
      unfold IndexHost.call Index.truncateEntries
      dsimp only
      split_ifs
      · exact ⟨hsize, hnonneg, hdvd⟩
      · exact ⟨hsize, mul_nonneg hnb (by decide), dvd_mul_left ..⟩
  | write offset position =>
      rcases lt_or_ge h.index.position h.index.size with hfree | hfull
      · obtain ⟨w, hok⟩ := call_write_ok hfree offset position
        rw [hok]
        exact ⟨hsize, by dsimp only; omega, dvd_add hdvd (dvd_refl 8)⟩
      · obtain ⟨e, hrefused⟩ := call_write_refused hfull offset position
        rw [hrefused]
        exact ⟨hsize, hnonneg, hdvd⟩

/-- In an index of whole entries no write comes in the gap. -/
theorem Aligned.always_clear {size : ℤ} (H : Aligned size h) (h8 : Index.entryWidth ∣ size)
    {calls : List IndexCall} (hcs : ∀ c ∈ calls, ∀ nb, c = .truncateEntries nb → 0 ≤ nb) :
    Runs.Always IndexHost.call Clear h calls := by
  refine Runs.always_of_invariant (P := Aligned size) ?_ ?_ H (Runs.always_inputs hcs)
  · intro h c H hc
    cases c with
    | truncateEntries nb => trivial
    | write offset position =>
        obtain ⟨rfl, hnonneg, k, hk⟩ := H
        obtain ⟨m, hm⟩ := h8
        have hround := Index.roundedSize_eq_iff.mpr ⟨m, hm⟩
        unfold Clear Index.Fits
        rw [hround, hm, hk, show Index.entryWidth = 8 from rfl]
        rw [hk, show Index.entryWidth = 8 from rfl] at hnonneg
        omega
  · intro h c H hc
    exact H.call hc

/-- In an index of another size the write after the last whole entry does. -/
theorem not_always_clear (hrest : ¬ Index.entryWidth ∣ h.index.size) (offset position : ℤ) {k : ℕ}
    (hk : h.index.position + 8 * k = h.index.roundedSize) (hsize : 0 ≤ h.index.size) :
    ¬ Runs.Always call Clear h (List.replicate (k + 1) (.write offset position)) := by
  have hround := Index.roundedSize_le hsize
  have hne : h.index.roundedSize ≠ h.index.size := fun he => hrest (Index.roundedSize_eq_iff.mp he)
  induction k generalizing h with
  | zero =>
      rintro ⟨⟨-, hroom⟩ | hfull, -⟩
      · rw [show Index.entryWidth = 8 from rfl] at hroom
        omega
      · omega
  | succ k ih =>
      obtain ⟨w, hok⟩ := call_write_ok (h := h) (by omega) offset position
      rintro ⟨-, htail⟩
      rw [hok] at htail
      refine ih (h := ⟨{ h.index with position := h.index.position + 8 }, w, _⟩) hrest ?_ hsize
        hround hne htail
      change h.index.position + 8 + 8 * (k : ℤ) = h.index.roundedSize
      push_cast at hk
      omega

/-- The bounds agree in a run exactly if no write of it comes in the gap after the last whole entry
or before the file; they agree in every run from whole entries, exactly if the size is one of whole
entries. -/
theorem bounds_agree_iff {filename : RawPath} {base size : ℤ} (hsize : Index.entryWidth ≤ size)
    {x : Index} {w w' : World}
    (hopen : (Index.new filename base size).open w = (.ok (), x, w')) :
    (∀ calls : List IndexCall, (∀ c ∈ calls, c.InRange base) →
      (Runs.Always call Agrees ⟨x, w', []⟩ calls ↔ Runs.Always call Clear ⟨x, w', []⟩ calls)) ∧
    (Index.entryWidth ∣ x.position →
      ((∀ calls : List IndexCall, (∀ c ∈ calls, c.InRange base) →
        (∀ nb, .truncateEntries nb ∈ calls → 0 ≤ nb) → Runs.Always call Agrees ⟨x, w', []⟩ calls) ↔
      Index.entryWidth ∣ size)) := by
  have h8 : (8 : ℤ) ≤ size := hsize
  have hnew : (Index.new filename base size).size = size := by
    unfold Index.new
    exact if_pos (by omega)
  have hlt := Index.lt_roundedSize (Index.new filename base size)
  rw [hnew, show Index.entryWidth = 8 from rfl] at hlt
  obtain ⟨j, haddr, hxsize, hbase, hpos, hlen⟩ := Index.open_mapped (by omega) hopen
  rw [hnew] at hxsize
  have hrounded : x.roundedSize = (Index.new filename base size).roundedSize := by
    unfold Index.roundedSize
    rw [hxsize, hnew]
  have H : Kept base j ⟨x, w', []⟩ :=
    ⟨haddr, by rw [hxsize]; omega, hbase, hlen.trans hrounded.symm, by simp, by simp⟩
  refine ⟨fun calls hcs => H.always_iff hcs, fun haligned => ⟨fun hall => ?_, fun hdvd => ?_⟩⟩
  · -- the index is emptied and filled, and one more entry is written
    by_contra hrest
    obtain ⟨k, hk⟩ := Index.dvd_roundedSize x
    rw [show Index.entryWidth = 8 from rfl] at hk
    have hzero : call ⟨x, w', []⟩ (.truncateEntries 0) = (.ok (), ⟨{ x with position := 0 }, w', []⟩) := by
      unfold call Index.truncateEntries
      dsimp only
      rw [zero_mul, if_neg (by omega)]
      rfl
    set calls := IndexCall.truncateEntries 0 :: List.replicate (k.toNat + 1) (.write base 0) with hcalls
    have hin : ∀ c ∈ calls, c.InRange base := by
      intro c hc
      rcases List.mem_cons.mp hc with rfl | hc
      · trivial
      · rw [List.eq_of_mem_replicate hc]
        exact ⟨le_rfl, by simp, le_rfl, by norm_num⟩
    have hclear := (H.always_iff hin).mp (hall calls hin (by simp [hcalls]))
    have htail := hclear.2
    rw [hzero] at htail
    refine not_always_clear (h := ⟨{ x with position := 0 }, w', []⟩) ?_ base 0 ?_ ?_ htail
    · dsimp only
      rwa [hxsize]
    · change 0 + 8 * (k.toNat : ℤ) = x.roundedSize
      omega
    · dsimp only
      omega
  · intro calls hcs hnb
    apply (H.always_iff hcs).mpr
    apply Aligned.always_clear ⟨hxsize, hpos, haligned⟩ hdvd
    rintro c hc nb rfl
    exact hnb nb hc

theorem bounds_agree_iff_sixteen :
    let first := (Index.new ⟨[], [['i']]⟩ 5 16).open (World.blank 0)
    Runs.Always call Agrees ⟨first.2.1, first.2.2, []⟩
      [.write 5 0, .write 6 7, .write 7 9, .truncateEntries 1, .write 6 3] := by
  intro first
  have hopen : first = (.ok (), first.2.1, first.2.2) :=
    Prod.ext (eq_ok_of_isOk (by decide +kernel)) rfl
  have hiff := bounds_agree_iff (by decide) hopen
  have hclear : Runs.Always call Clear ⟨first.2.1, first.2.2, []⟩
      [.write 5 0, .write 6 7, .write 7 9, .truncateEntries 1, .write 6 3] := by decide +kernel
  apply (hiff.1 _ ?_).mpr hclear
  simp only [List.mem_cons, List.not_mem_nil, or_false, forall_eq_or_imp, forall_eq]
  refine ⟨⟨?_, ?_, ?_, ?_⟩, ⟨?_, ?_, ?_, ?_⟩, ⟨?_, ?_, ?_, ?_⟩, trivial, ⟨?_, ?_, ?_, ?_⟩⟩ <;> decide

/-- The second entry of an index of twelve bytes lies behind its file of eight. -/
theorem twelve_bytes_overrun :
    let first := (Index.new ⟨[], [['i']]⟩ 5 12).open (World.blank 0)
    first.1 = .ok () ∧ Index.entryWidth ≤ 12 ∧ Index.InRange 5 (5, 0) ∧ Index.InRange 5 (6, 7) ∧
      ¬ Runs.Always call Agrees ⟨first.2.1, first.2.2, []⟩ [.write 5 0, .write 6 7] := by
  intro first
  refine ⟨eq_ok_of_isOk (by decide +kernel), by decide, ⟨?_, ?_, ?_, ?_⟩, ⟨?_, ?_, ?_, ?_⟩, ?_⟩
  iterate 8 decide
  rintro ⟨-, hsecond, -⟩
  have hfits := (hsecond.answer 6 7 rfl).mp (eq_ok_of_isOk (by decide +kernel))
  revert hfits
  decide +kernel

end IndexHost

end MyKafka
