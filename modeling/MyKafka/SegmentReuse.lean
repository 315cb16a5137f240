import MyKafka.SegmentCalls

/-!
# An object that is opened again

`open` reads one field that neither the constructor nor `close` nor the index sets: the next offset.
The rebuild assigns it at every record, so an object that is opened again is a new one unless the log
is empty.
-/

namespace Posix

theorem World.openCreate_dir (w : World) {r : RawPath} {p : Path} (hr : w.fs.resolve r = some p)
    (hp : w.fs.IsDir p) : (w.openCreate r).1 = .closed := by
  have hfs := w.fs_served
  unfold World.openCreate
  split
  · rfl
  · next w₁ he =>
      rw [he] at hfs
      rw [show w₁.fs = w.fs from hfs, FileSystem.openCreate, hr]
      dsimp only
      rw [show w.fs.node? p = some .dir from hp]

end Posix

namespace MyKafka

open Posix LittleEndian Log

/-- The two objects give the same answers. -/
structure Segment.Alike (s : Segment) (w : World) (s' : Segment) (w' : World) : Prop where
  nextOffset : s'.nextOffset = s.nextOffset
  isFull : s'.isFull ↔ s.isFull
  size : s'.size = s.size
  findEntry : ∀ relPosition target,
    s'.findEntry relPosition target w' = s.findEntry relPosition target w
  readAt : ∀ target, (s'.readAt target w').1 = (s.readAt target w).1 ∧
    (s'.readAt target w').2.1 = (s.readAt target w).2.1
  write : ∀ m : Payload, (s'.write m w').1 = (s.write m w).1

theorem Segment.Alike.refl (s : Segment) (w : World) : s.Alike w s w :=
  ⟨rfl, Iff.rfl, rfl, fun _ _ => rfl, fun _ => ⟨rfl, rfl⟩, fun _ => rfl⟩

/-- Opening the object now, and opening a new one in its place. -/
structure ReopensAsNew (path : RawPath) (dir : Path) (base maxSize : ℤ) (h : SegmentHost) : Prop where
  opens : (h.segment.open h.world).1 = .ok () ↔
    ((Segment.new path base maxSize).open h.world).1 = .ok ()
  alike : (h.segment.open h.world).1 = .ok () →
    Segment.Alike ((Segment.new path base maxSize).open h.world).2.1
      ((Segment.new path base maxSize).open h.world).2.2
      (h.segment.open h.world).2.1 (h.segment.open h.world).2.2
  /-- The records of a log that consists of complete ones are counted. -/
  counts : (h.segment.open h.world).1 = .ok () → ∀ ms : List Payload,
    (h.world.fs.contents (dir ++ [logName base]) h.world.now).image.toList = encode base ms →
    (∀ m ∈ ms, m.length < 2 ^ 31) → -2 ^ 63 ≤ base → base + ms.length < 2 ^ 63 →
    (h.segment.open h.world).2.1.nextOffset - (h.segment.open h.world).2.1.baseOffset = ms.length

/-- Both files can be opened, and the one of the index is accepted. -/
structure Openable (w : World) (dir : Path) (base : ℤ) : Prop where
  logName : ¬ w.fs.IsDir (dir ++ [logName base])
  indexName : ¬ w.fs.IsDir (dir ++ [indexName base])
  sane : Index.Sane (w.fs.contents (dir ++ [MyKafka.indexName base]) w.now).image

/-- The log is not empty, or the next offset of the object is the one it was made with. -/
def Renewed (dir : Path) (base : ℤ) (h : SegmentHost) : Prop :=
  Openable h.world dir base →
    (h.world.fs.contents (dir ++ [logName base]) h.world.now).image.size ≠ 0 ∨
      h.segment.nextOffset = base

namespace Segment

variable {w w' : World} {s : Segment} {i j : ℕ} {path : RawPath} {dir : Path} {base maxSize : ℤ}

/-! ## The end of `open` -/

/-- On an empty log the rebuild assigns nothing. -/
theorem finish_empty (hw : w.Calm) (hfd : ∃ num, s.fd = .live num i)
    (hsize : (w.fs.data i).image.size = 0) : s.finish w = (.ok (), s, w) := by
  obtain ⟨num, hfd⟩ := hfd
  have hread : (w.fs.data i).image.read 0 offsetSize = [] := Image.read_end (by omega) _
  unfold finish reconstructIndexAndGetLastOffset
  rw [hfd, World.lseek_calm hw, decide_eq_true le_rfl]
  dsimp only
  rw [reconstructLoop, hfd, World.read_calm hw, hread]
  dsimp only
  rw [if_pos rfl, Option.getD_some]

/-- A log of less than an offset is not read. -/
theorem finish_cut (hw : w.Calm) (hfd : ∃ num, s.fd = .live num i)
    (hfdr : ∃ num, s.fdRead = .live num i) (hpos : (w.fs.data i).image.size ≠ 0)
    (hsize : (w.fs.data i).image.size < 8) : (s.finish w).1 ≠ .ok () := by
  obtain ⟨num, hfd⟩ := hfd
  obtain ⟨num', hfdr⟩ := hfdr
  set im := (w.fs.data i).image with him
  have hread : im.read 0 offsetSize = im.toList := by
    rw [Image.read_eq, List.drop_zero, List.take_of_length_le]
    rw [Image.length_toList, offsetSize]
    omega
  have hne : im.toList ≠ [] := by
    rw [← List.length_pos_iff_ne_nil, Image.length_toList]
    omega
  have hend : im.read (0 + im.toList.length) sizeSize = [] :=
    Image.read_end (by rw [Image.length_toList]; omega) _
  have hcalm : ∀ ns, World.Calm { w with closed := ns } := fun _ => hw
  unfold finish reconstructIndexAndGetLastOffset
  rw [hfd, World.lseek_calm hw, decide_eq_true le_rfl]
  dsimp only
  rw [reconstructLoop, hfd, World.read_calm hw, ← him, hread]
  dsimp only
  rw [if_neg hne, World.read_calm hw, ← him, hend]
  dsimp only
  rw [if_pos rfl, Option.getD_some]
  dsimp only [Utils.err]
  unfold abandon
  rw [World.close_calm hw]
  dsimp only
  rw [hfdr, World.close_calm (hcalm _)]
  simp

theorem reconstructLoop_renewed (hw : w.Calm) (hfd : ∃ num, s.fd = .live num i)
    (hsize : 8 ≤ (w.fs.data i).image.size) (n : ℤ) (fuel : ℕ) :
    reconstructLoop (fuel + 1) { s with nextOffset := n } 0 w =
      reconstructLoop (fuel + 1) s 0 w := by
  obtain ⟨num, hfd⟩ := hfd
  have hlen : ((w.fs.data i).image.read 0 offsetSize).length = offsetSize := by
    rw [Image.read_eq, List.drop_zero, List.length_take, Image.length_toList, offsetSize]
    omega
  have hne : (w.fs.data i).image.read 0 offsetSize ≠ [] := by
    rw [← List.length_pos_iff_ne_nil, hlen]
    decide
  rw [reconstructLoop, reconstructLoop, hfd, World.read_calm hw]
  dsimp only
  rw [if_neg hne, if_neg hne, overlay_full hlen, overlay_full hlen]

/-- The first record sets the next offset, whatever it was. -/
theorem finish_renewed (hw : w.Calm) (hfd : ∃ num, s.fd = .live num i)
    (hsize : 8 ≤ (w.fs.data i).image.size) (n : ℤ) :
    { s with nextOffset := n }.finish w = s.finish w := by
  have hloop := reconstructLoop_renewed hw hfd hsize n (room s.index)
  have hsome := reconstructLoop_isSome (room s.index + 1) s 0 w (Nat.lt_succ_self _)
  obtain ⟨r, hr⟩ := Option.isSome_iff_exists.mp hsome
  obtain ⟨num, hfd⟩ := hfd
  have hseek : w.lseek s.fd 0 = (true, w) := by
    rw [hfd, World.lseek_calm hw, decide_eq_true le_rfl]
  unfold finish reconstructIndexAndGetLastOffset
  dsimp only
  rw [hseek]
  dsimp only
  rw [hloop, hr]
  rfl

/-- The next offset after the rebuild of a log of complete records. -/
theorem finish_counts {log : FileData} (R : Ready w path dir base maxSize log s w' i j)
    (hok : (s.finish w').1 = .ok ()) {ms : List Payload} (hlog : log.image.toList = encode base ms)
    (hms : ∀ m ∈ ms, m.length < 2 ^ 31) (h0 : -2 ^ 63 ≤ base) (h1 : base + ms.length < 2 ^ 63) :
    (s.finish w').2.1.nextOffset - (s.finish w').2.1.baseOffset = ms.length := by
  have hbase := R.baseOffset
  have hnext := R.nextOffset.trans hbase.symm
  by_cases hroom : ms.length ≤ 1310720
  · obtain ⟨d, x, hrec, -, hx, -⟩ := reconstruct_spec R.calm R.ne R.fd R.holds hroom
      (by rw [hbase]; exact h0) (by rw [hbase]; exact h1) hnext R.position hms
      (by rw [R.data, hlog, hbase])
    rw [finish, hrec]
    show s.index.baseOffset + ms.length - x.baseOffset = _
    rw [hx]
    omega
  · -- the records that the index has no room for
    have hlen : (ms.take 1310720).length = 1310720 := by
      rw [List.length_take]
      omega
    have hsplit : encode base ms = encode base (ms.take 1310720) ++
        encode (base + (1310720 : ℕ)) (ms.drop 1310720) := by
      have h := encode_append base (ms.take 1310720) (ms.drop 1310720)
      rwa [hlen, List.take_append_drop] at h
    have hrest : encode (base + (1310720 : ℕ)) (ms.drop 1310720) ≠ [] := by
      rw [← List.length_pos_iff_ne_nil, length_encode]
      cases hd : ms.drop 1310720 with
      | nil =>
          rw [List.drop_eq_nil_iff] at hd
          omega
      | cons m rest =>
          rw [logSize]
          omega
    obtain ⟨e, s', d, hrec, -, hfd, hfdr⟩ := reconstruct_spoiled R.calm R.ne R.fd R.holds hlen
      (by rw [hbase]; exact h0) (by rw [hbase, hlen]; omega) hnext R.position
      (fun m hm => hms m (List.mem_of_mem_take hm)) (by rw [R.data, hlog, hbase, hsplit]) hrest
    obtain ⟨num, hnum⟩ := R.fd
    obtain ⟨num', hnum'⟩ := R.fdRead
    rw [hnum] at hfd
    rw [hnum'] at hfdr
    have hcalm : ∀ fs ns, World.Calm { w' with fs := fs, closed := ns } := fun _ _ => R.calm
    exfalso
    revert hok
    rw [finish, hrec]
    dsimp only
    rw [abandon, hfd, World.close_calm (hcalm _ _)]
    dsimp only
    rw [hfdr, World.close_calm (hcalm _ _)]
    simp

/-! ## Opening -/

/-- The way an `open` that succeeds goes. -/
theorem open_inv (h : (s.open w).1 = .ok ()) :
    ∃ x w₁, s.index.open w = (.ok (), x, w₁) ∧ x.sanityCheck w₁ = .ok () := by
  unfold Segment.open at h
  split at h
  · cases h
  · next x w₁ he =>
      refine ⟨x, w₁, he, ?_⟩
      split at h
      · cases h
      · next hcheck => exact hcheck

theorem index_open_inv {x : Index} (h : (x.open w).1 = .ok ()) :
    (w.openCreate x.filename).1 ≠ .closed := by
  intro hclosed
  unfold Index.open at h
  split at h
  · cases h
  · next fd w₁ hfd he =>
      rw [he] at hclosed
      exact hfd hclosed

theorem openLog_inv (h : (s.openLog w).1 = .ok ()) : (w.openCreate s.filename).1 ≠ .closed := by
  intro hclosed
  unfold openLog at h
  split at h
  · cases h
  · next fd w₁ hfd he =>
      rw [he] at hclosed
      exact hfd hclosed

theorem openable_of_open (hw : w.Calm) (hp : FileSystem.At w.fs path dir)
    (hs : AsNew path base maxSize s) (hok : (s.open w).1 = .ok ()) : Openable w dir base := by
  obtain ⟨x, w₁, hopen, hcheck⟩ := open_inv hok
  have hx : ¬ w.fs.IsDir (dir ++ [indexName base]) := by
    intro hdir
    apply index_open_inv (congrArg Prod.fst hopen)
    rw [hs.indexFilename]
    exact World.openCreate_dir w (hp.child (plain_indexName base)) hdir
  obtain ⟨j, fs, ho, -, hdata, -, -⟩ := FileSystem.openCreate_spec
    (hp.child (plain_indexName base)) (by simp) hx (by simpa using hp.isDir) w.now
  have hsane : Index.Sane (w.fs.contents (dir ++ [indexName base]) w.now).image := by
    have hcalm := Index.open_calm hw hs.indexSize (by rw [hs.indexFilename]; exact ho)
    rw [hopen, Prod.mk.injEq, Prod.mk.injEq] at hcalm
    obtain ⟨-, rfl, rfl⟩ := hcalm
    rw [← hdata]
    refine @Index.sane_of_check _ j _ _ w.now ?_ ?_ ?_ ?_ hcheck
    · rfl
    · exact hs.indexSize
    · rfl
    · exact FileSystem.data_setData_same _ _ _
  refine ⟨?_, hx, hsane⟩
  intro hdir
  obtain ⟨x', w₂, j', hlog, -, -, -, hnode, hother, -⟩ := open_index maxSize hw hp hx hsane
  have hne : dir ++ [logName base] ≠ dir ++ [indexName base] := by
    intro h
    exact logName_ne_indexName base base (by simpa using h)
  have hp₂ := hp.congr (isDir_of_file hnode hx hother)
  have hdir₂ : w₂.fs.IsDir (dir ++ [logName base]) := (hother _ hne).trans hdir
  rw [hlog s hs] at hok
  apply openLog_inv hok
  show (w₂.openCreate s.filename).1 = .closed
  rw [hs.filename]
  exact World.openCreate_dir w₂ (hp₂.child (plain_logName base)) hdir₂

/-- The two objects fare alike at the same two files. -/
theorem reopens_iff_renewed {h : SegmentHost} (hw : h.world.Calm)
    (hp : FileSystem.At h.world.fs path dir) (hs : AsNew path base maxSize h.segment) :
    ReopensAsNew path dir base maxSize h ↔ Renewed dir base h := by
  by_cases hopenable : Openable h.world dir base
  · obtain ⟨u, w', i, j, hopen, R⟩ := reopen_ready hw hp maxSize hopenable.logName
      hopenable.indexName hopenable.sane
    have hnew : (Segment.new path base maxSize).open h.world = u.finish w' := by
      rw [hopen _ (AsNew.new path base maxSize)]
      exact congrArg (fun n => { u with nextOffset := n }.finish w') R.nextOffset.symm
    have hold := hopen _ hs
    have hdata : (w'.fs.data i).image.size = _ := congrArg (fun d => d.image.size) R.data
    by_cases hsize : (w'.fs.data i).image.size = 0
    · -- nothing is read from the log: the object keeps its next offset
      rw [finish_empty R.calm R.fd hsize] at hnew
      rw [finish_empty (s := { u with nextOffset := h.segment.nextOffset }) R.calm R.fd hsize] at hold
      constructor
      · intro hsame _
        right
        have hnext := (hsame.alike (by rw [hold])).nextOffset
        rw [hold, hnew] at hnext
        exact hnext.trans R.nextOffset
      · intro hrenewed
        have hnext : h.segment.nextOffset = base :=
          (hrenewed hopenable).resolve_left (fun hne => hne (hdata.symm.trans hsize))
        rw [hnext, ← R.nextOffset] at hold
        have hok : (u.finish w').1 = .ok () := by rw [finish_empty R.calm R.fd hsize]
        refine ⟨by rw [hold, hnew], fun _ => ?_, fun _ => ?_⟩
        · rw [hold, hnew]
          exact Alike.refl u w'
        · rw [hold]
          intro ms hlog hms h0 h1
          have hcounts := finish_counts R hok hlog hms h0 h1
          rwa [finish_empty R.calm R.fd hsize] at hcounts
    · have hrenewed : Renewed dir base h := fun _ => Or.inl (by rw [← hdata]; exact hsize)
      refine iff_of_true ?_ hrenewed
      by_cases hshort : (w'.fs.data i).image.size < 8
      · have hcut := finish_cut (s := u) R.calm R.fd R.fdRead hsize hshort
        have hcut' := finish_cut (s := { u with nextOffset := h.segment.nextOffset }) R.calm R.fd
          R.fdRead hsize hshort
        rw [← hnew] at hcut
        rw [← hold] at hcut'
        exact ⟨iff_of_false hcut' hcut, fun hok => absurd hok hcut', fun hok => absurd hok hcut'⟩
      · have hsame : h.segment.open h.world = (Segment.new path base maxSize).open h.world := by
          rw [hold, hnew, finish_renewed R.calm R.fd (by omega)]
        refine ⟨by rw [hsame], fun _ => ?_, ?_⟩
        · rw [hsame]
          exact Alike.refl _ _
        · rw [hsame, hnew]
          exact fun hok ms hlog hms h0 h1 => finish_counts R hok hlog hms h0 h1
  · -- neither object opens
    have hfail : ∀ {s : Segment}, AsNew path base maxSize s → (s.open h.world).1 ≠ .ok () :=
      fun hs hok => hopenable (openable_of_open hw hp hs hok)
    refine iff_of_true ⟨iff_of_false (hfail hs) (hfail (AsNew.new path base maxSize)),
      fun hok => absurd hok (hfail hs), fun hok => absurd hok (hfail hs)⟩ ?_
    exact fun hopen => absurd hopen hopenable

end Segment

/-! ## Runs -/

/-- What holds of an object and its world whenever the object is called. -/
structure Reusable (path : RawPath) (dir : Path) (base maxSize : ℤ) (w₀ : World) (h : SegmentHost) :
    Prop where
  frame : Frame (ownNames dir base) (FileSystem.Named (ownNames dir base) w₀.fs) w₀ h.world
  confined : h.segment.Confined (ownNames dir base) (FileSystem.Named (ownNames dir base) w₀.fs)
    w₀.fs
  make : (Segment.new path base maxSize).SameMake h.segment
  rewound : h.segment.Rewound

variable {w₀ : World} {path : RawPath} {dir : Path} {base maxSize : ℤ} {h : SegmentHost}

theorem Reusable.create (hat : FileSystem.At w₀.fs path dir) (base maxSize : ℤ) :
    Reusable path dir base maxSize w₀ (.create path base maxSize w₀) where
  frame := Frame.refl (fun _ => id)
  confined := Segment.Confined.new (hat.inside (plain_logName _) (Or.inl rfl))
    (hat.inside (plain_indexName _) (Or.inr rfl)) maxSize
  make := .refl _
  rewound _ := rfl

theorem Reusable.call (hr : Reusable path dir base maxSize w₀ h) {c : SegmentCall}
    (hc : c = .open → h.segment.fd = .closed) :
    Reusable path dir base maxSize w₀ (h.call c).2 := by
  obtain ⟨hframe, hconfined⟩ := SegmentHost.call_frame hr.frame hr.confined c
  exact ⟨hframe, hconfined, hr.make.trans (h.call_make c), SegmentHost.call_rewound hr.rewound hc⟩

theorem Reusable.asNew (hr : Reusable path dir base maxSize w₀ h) (hfd : h.segment.fd = .closed) :
    Segment.AsNew path base maxSize h.segment :=
  ⟨hr.rewound hfd, hr.make.maxSize, hr.make.filename, hr.make.index.filename, hr.make.index.size,
    hr.make.index.baseOffset⟩

theorem Reusable.atDir (hr : Reusable path dir base maxSize w₀ h)
    (hat : FileSystem.At w₀.fs path dir) : FileSystem.At h.world.fs path dir := by
  apply hr.frame.atDir hat
  rintro q (rfl | rfl) hq
  · simpa using hq.length_le
  · simpa using hq.length_le

/-- In a run that only opens the object when it is not open, it comes up like a new one at every
open if and only if each open finds a log that is not empty or the first offset in the object. -/
theorem reopened_as_new_iff (hw : w₀.Calm) (hat : FileSystem.At w₀.fs path dir)
    {calls : List SegmentCall}
    (hshut : Runs.Always SegmentHost.call (fun h c => c = .open → h.segment.fd = .closed)
      (.create path base maxSize w₀) calls) :
    Runs.Always SegmentHost.call (fun h c => c = .open → ReopensAsNew path dir base maxSize h)
        (.create path base maxSize w₀) calls ↔
      Runs.Always SegmentHost.call (fun h c => c = .open → Renewed dir base h)
        (.create path base maxSize w₀) calls := by
  refine Runs.always_congr ?_ ?_ (Reusable.create hat base maxSize) hshut
  · intro h c hr hc
    apply forall_congr'
    intro hopen
    exact Segment.reopens_iff_renewed (hr.frame.calm hw) (hr.atDir hat) (hr.asNew (hc hopen))
  · intro h c hr hc _
    exact hr.call hc

/-- The object of a log that holds a record is closed and opened again. -/
theorem reopened_as_new_iff_close :
    let h := SegmentHost.create ⟨[], []⟩ 0 100 (World.blank 0)
    Runs.Always SegmentHost.call (fun h c => c = .open → ReopensAsNew ⟨[], []⟩ [] 0 100 h) h
      [.open, .write [1], .close, .open] := by
  intro h
  have hshut : Runs.Always SegmentHost.call (fun h c => c = .open → h.segment.fd = .closed) h
      [.open, .write [1], .close, .open] := by decide +kernel
  have hused : Runs.Always SegmentHost.call (fun h c => c = .open →
      (h.world.fs.contents [logName 0] h.world.now).image.size ≠ 0 ∨ h.segment.nextOffset = 0) h
      [.open, .write [1], .close, .open] := by decide +kernel
  have hblank := CompleteLog.blank 0
  apply (reopened_as_new_iff hblank.calm hblank.atDir hshut).mpr
  exact Runs.always_mono (fun h c hc hopen _ => hc hopen) hused

/-- The object of a log that was deleted assigns its next offset to the first message. -/
theorem deleted_log_keeps_offset :
    let calls : List SegmentCall := [.open, .write [1], .deleteSegment, .open]
    let h := SegmentHost.create ⟨[], []⟩ 0 100 (World.blank 0)
    Runs.Always SegmentHost.call (fun h c => c = .open → h.segment.fd = .closed) h calls ∧
      ¬ Runs.Always SegmentHost.call (fun h c => c = .open → ReopensAsNew ⟨[], []⟩ [] 0 100 h) h
        calls := by
  intro calls h
  refine ⟨by decide +kernel, ?_⟩
  intro hall
  have hnew := hall.2.2.2.1 rfl
  have hnext := (hnew.alike (eq_ok_of_isOk (by decide +kernel))).nextOffset
  revert hnext
  decide +kernel

end MyKafka
