import MyKafka.PartitionStep

/-!
# A partition whose last log is longer than its index

A write to a segment whose index is full leaves its bytes in the log. Such a segment cannot be
opened again, so a restart fails there, and so does every later one: the partition keeps the segments
before it open and has no active one.
-/

namespace MyKafka

open Posix LittleEndian Log MyKafka.Partition

variable {w : World} {path : RawPath} {dir : Path} {c : Chunk} {i j : ℕ}

namespace Segment

theorem open_spoiled (hw : w.Calm) (hp : FileSystem.At w.fs path dir) (maxSize : ℤ)
    (hd : OnDisk w.fs dir i j c) (hsane : Index.Sane (w.fs.data j).image)
    (hfull : c.msgs.length = 1310720) (hjunk : c.junk ≠ []) :
    ∃ e s w', (Segment.new path c.base maxSize).open w = (.error e, s, w') ∧
      (∃ i' j', OnDisk (s.destroy w').fs dir i' j' c ∧
        Index.Sane ((s.destroy w').fs.data j').image) ∧
      Frame (ownNames dir c.base) (FileSystem.Named (ownNames dir c.base) w.fs) w
        (s.destroy w') := by
  have hnd := hd.not_isDir
  obtain ⟨s, w₁, i', j', hopen, R⟩ := open_ready hw hp maxSize
    (show ¬ w.fs.IsDir (dir ++ [logName c.base]) from hnd _ (Or.inl rfl)) (hnd _ (Or.inr rfl)) (by rwa [FileSystem.contents_file hd.index])
  rw [FileSystem.contents_file hd.log] at R
  have hnext : s.index.baseOffset + c.msgs.length < 2 ^ 63 := by
    have := hd.fits.next_lt
    rw [R.baseOffset]
    unfold Chunk.next at this
    omega
  obtain ⟨e, s', d, hrec, H, hfd', hfr'⟩ := reconstruct_spoiled R.calm R.ne R.fd R.holds hfull
    (by rw [R.baseOffset]; omega) hnext (R.nextOffset.trans R.baseOffset.symm) R.position
    hd.fits.payload (by rw [R.data, hd.bytes, R.baseOffset]) hjunk
  obtain ⟨n₁, hn₁⟩ := R.fd
  obtain ⟨n₂, hn₂⟩ := R.fdRead
  rw [hn₁] at hfd'
  rw [hn₂] at hfr'
  have hij := R.ne
  have hcalm : ∀ (fs : FileSystem) (ns : List ℕ), World.Calm { w₁ with fs := fs, closed := ns } :=
    fun _ _ => R.calm
  let w₂ : World := { w₁ with fs := w₁.fs.setData j' d, closed := n₂ :: n₁ :: w₁.closed }
  let s₂ : Segment := { s' with fd := .stale n₁, fdRead := .stale n₂ }
  have hfail : (Segment.new path c.base maxSize).open w = (.error e, s₂, w₂) := by
    rw [hopen, finish, hrec]
    dsimp only
    rw [abandon, hfd', World.close_calm (hcalm _ _)]
    dsimp only
    rw [hfr', World.close_calm (hcalm _ _)]
    rfl
  obtain ⟨im, n₃, him, hclose⟩ := Index.close_calm (w := { w₂ with closed := n₁ :: w₂.closed })
    (x := s₂.index) (hcalm _ _) H
  have hdestroy : s₂.destroy w₂ = { w₂ with
      fs := (w₁.fs.setData j' d).setData j' ⟨im, w₁.now⟩
      closed := n₃ :: n₁ :: w₂.closed } := by
    have hstale : w₂.close s₂.fd = (false, { w₂ with closed := n₁ :: w₂.closed }) := by
      simp only [s₂, World.close, World.served_calm (show w₂.Calm from R.calm)]
    rw [destroy, Segment.close, if_neg (by simp [s₂]), hstale]
    dsimp only
    rw [hclose]
  refine ⟨e, s₂, w₂, hfail, ⟨i', j', ?_, ?_⟩, ?_⟩
  · rw [hdestroy]
    refine ⟨R.logNode, R.indexNode, ?_, ?_, hd.fits⟩
    · show (((w₁.fs.setData j' d).setData j' _).data i').image.toList = _
      rw [FileSystem.data_setData_ne _ _ hij, FileSystem.data_setData_ne _ _ hij, R.data, hd.bytes]
    · show (((w₁.fs.setData j' d).setData j' _).data i').mtime = _
      rw [FileSystem.data_setData_ne _ _ hij, FileSystem.data_setData_ne _ _ hij, R.data, hd.mtime]
  · rw [hdestroy]
    show Index.Sane (((w₁.fs.setData j' d).setData j' _).data j').image
    rw [FileSystem.data_setData_same]
    exact him
  · have hfr := Segment.open_frame (Frame.refl (fun _ => id)) (Segment.Confined.new
      (S := ownNames dir c.base) (I := FileSystem.Named (ownNames dir c.base) w.fs)
      (hp.inside (plain_logName _) (Or.inl rfl))
      (hp.inside (plain_indexName _) (Or.inr rfl)) maxSize)
    rw [hfail] at hfr
    exact Segment.destroy_frame hfr.1 hfr.2

end Segment

variable {cs : List Chunk} {log : List Payload} {p : Partition} {h : Host}

/-- Opening got through the chunks `cs` and failed at the last one, `c`. -/
structure Stuck (w : World) (dir : Path) (p : Partition) (cs : List Chunk) (c : Chunk)
    (log : List Payload) : Prop where
  opened : p.cancel = false
  inactive : p.activeSegment = none
  stands : List.Forall₂ (Stands w.fs p.path dir p.maxSegmentSize) p.older cs
  stored : Stored w p.path dir (cs ++ [c]) log
  full : c.msgs.length = 1310720
  spoiled : c.junk ≠ []

namespace Partition

theorem openSegments_append {bases : List ℤ} {p₁ : Partition} {w₁ : World}
    (h : openSegments bases p w = (.ok (), p₁, w₁)) (rest : List ℤ) :
    openSegments (bases ++ rest) p w = openSegments rest p₁ w₁ := by
  induction bases generalizing p w with
  | nil =>
      rw [openSegments] at h
      cases h
      rfl
  | cons base bases ih =>
      rw [openSegments] at h
      rw [List.cons_append, openSegments]
      rcases hopen : (Segment.new p.path base p.maxSegmentSize).open w with ⟨_ | _, s, w₂⟩
      · rw [hopen] at h
        cases h
      · rw [hopen] at h
        exact ih h

theorem open_stuck (hw : w.Calm) (hp : p.Fresh) (h : Stored w p.path dir (cs ++ [c]) log)
    (hfull : c.msgs.length = 1310720) (hjunk : c.junk ≠ []) (hlog : log.length < 2 ^ 63) :
    ∃ e p' w', p.open w = (.error e, p', w') ∧ Stuck w' dir p' cs c log ∧
      p'.settings = p.settings ∧ w'.Calm ∧ w'.now = w.now := by
  have hbase : ∀ d ∈ cs ++ [c], d.base < 2 ^ 63 := by
    intro d hd
    have := h.represents.next_le hd
    unfold Blocks.next at this
    omega
  have hquiet := h.quiet
  rw [List.dropLast_concat] at hquiet
  have hopening : Opening w p.path dir p.maxSegmentSize p.older [] (cs ++ [c]) := by
    rw [hp.older]
    exact ⟨h.atDir, .nil, h.files, Blocks.pairwise_base h.represents.chain⟩
  obtain ⟨ss, size, w₁, hsegs, hopen, hw₁, hnow, hnode⟩ := openSegments_spec hw hopening hquiet
  rw [hp.older, List.nil_append, List.nil_append] at hopen
  obtain ⟨i, j, hd, hsane⟩ := hopen.files c (List.mem_singleton_self c)
  obtain ⟨e, s, w₂, hfail, ⟨i', j', hd', hsane'⟩, hfr⟩ := Segment.open_spoiled hw₁ hopen.atDir
    p.maxSegmentSize hd hsane hfull hjunk
  have hne : ∀ d ∈ cs, d.base ≠ c.base := fun d hd => h.toLaid.base_ne hd
  have hstands : List.Forall₂ (Stands w₁.fs p.path dir p.maxSegmentSize) ss cs :=
    forall₂_imp_mem hopen.stands (fun _ _ _ hs => hs.1)
  have hstands' := forall₂_frame hstands hne hfr.within
  have hnow' : (s.destroy w₂).now = w.now := hfr.now.trans hnow
  refine ⟨e, { p with physicalSize := size, older := ss }, s.destroy w₂, ?_,
    ⟨hp.opened, hp.active, hstands', ⟨⟨h.represents, h.quiet, h.mtimes, ?_, ?_⟩, ?_, ?_⟩, hfull,
      hjunk⟩, rfl, hfr.calm hw₁, hnow'⟩
  · rw [open_at hw h.atDir, openFiles, fillFilesList_eq h.atDir h.toLaid h.files hbase,
      List.map_append, openSegments_append hsegs, List.map_singleton, openSegments, hfail, hp.older,
      List.nil_append]
  · intro d hd
    rw [hnow']
    exact h.past d hd
  · intro n hn
    by_contra hno
    push Not at hno
    rw [hfr.within.node _ (hno c (by simp)),
      hnode n (fun d hd => hno d (List.mem_append_left _ hd))] at hn
    obtain ⟨d, hd, hdn⟩ := h.only n hn
    exact hno d hd hdn
  · exact at_of_within hopen.atDir hfr.within hd.not_isDir hd'.not_isDir
  · intro d hd
    rcases List.mem_append.mp hd with hd | hd
    · exact files_of_stands hstands' d hd
    · rw [List.mem_singleton.mp hd]
      exact ⟨i', j', hd', hsane'⟩

end Partition

namespace Host

/-- Both ways of leaving such a partition keep what is in its directory. -/
theorem leave_stuck (hw : h.world.Calm) (hs : Stuck h.world dir h.partition cs c log)
    (closing : Bool) :
    Stored (h.leave closing) h.partition.path dir (cs ++ [c]) log ∧ (h.leave closing).Calm ∧
      (h.leave closing).now = h.world.now := by
  cases closing with
  | false => exact ⟨hs.stored, hw, rfl⟩
  | true =>
      have hbases := Blocks.pairwise_base hs.stored.represents.chain
      rw [List.pairwise_append] at hbases
      obtain ⟨ss', w', hclose, h', hw', hnow, hnode, hkept⟩ := closeSegments_spec hw
        ⟨hs.stored.atDir, hs.stands, fun c hc => absurd hc List.not_mem_nil, hbases.1⟩
      have hsegs : h.partition.segments = h.partition.older := by
        rw [segments, hs.inactive]
        exact List.append_nil _
      have hleave : h.leave true = w' := by
        rw [leave, if_pos rfl, Partition.close, hsegs, hclose]
        dsimp only
        obtain ⟨p'', hagain, -⟩ := close_closed (p := { h.partition with
          cancel := true, activeSegment := none, physicalSize := 0, older := [] }) ⟨rfl, rfl, rfl⟩ w'
        rw [destroy, hagain]
      rw [hleave]
      have hstored := hs.stored
      refine ⟨⟨⟨hstored.represents, hstored.quiet, hstored.mtimes, ?_, ?_⟩, h'.atDir, ?_⟩, hw', hnow⟩
      · intro d hd
        rw [hnow]
        exact hstored.past d hd
      · intro n hn
        by_contra hno
        push Not at hno
        rw [hnode n (fun d hd => hno d (List.mem_append_left _ hd))] at hn
        obtain ⟨d, hd, hdn⟩ := hstored.only n hn
        exact hno d hd hdn
      · intro d hd
        rcases List.mem_append.mp hd with hd | hd
        · exact h'.files d hd
        · have hne : ∀ e ∈ cs, c.base ≠ e.base := fun e he => (hstored.toLaid.base_ne he).symm
          refine hkept c hne ?_ d hd
          exact fun e he => hstored.files e (List.mem_append_right _ he)

/-- A restart on such a directory fails. -/
theorem restart_stuck {closing : Bool} (hw : (h.leave closing).Calm)
    (hstored : Stored (h.leave closing) h.partition.path dir (cs ++ [c]) log)
    (hfull : c.msgs.length = 1310720) (hjunk : c.junk ≠ []) (hlog : log.length < 2 ^ 63) :
    ∃ e h', h.restart closing = (.error e, h') ∧ Stuck h'.world dir h'.partition cs c log ∧
      h'.partition.settings = h.partition.settings ∧ h'.world.Calm := by
  obtain ⟨e, p', w', hopen, hstuck, hset, hw', -⟩ := open_stuck
    (p := Partition.new h.partition.path h.partition.maxSegmentSize h.partition.maxPartitionSize
      h.partition.segmentTtl) hw (Fresh.new _ _ _ _) hstored hfull hjunk hlog
  refine ⟨e, ⟨p', w'⟩, ?_, hstuck, hset, hw'⟩
  rw [restart, boot, hopen]

end Host

theorem Stuck.write (hs : Stuck w dir p cs c log) (m : Payload) :
    p.write m w = (assertFailure, p, w) := by
  unfold Partition.write
  rw [hs.opened, if_neg (by simp), hs.inactive]

theorem Stuck.tick (hs : Stuck w dir p cs c log) (seconds : ℕ) :
    Stuck { w with now := w.now + seconds } dir p cs c log := by
  obtain ⟨hopened, hinactive, hstands, ⟨⟨hrep, hquiet, hmtimes, hpast, honly⟩, hat, hfiles⟩, hfull,
    hspoiled⟩ := hs
  refine ⟨hopened, hinactive, hstands, ⟨⟨hrep, hquiet, hmtimes, ?_, honly⟩, hat, hfiles⟩, hfull,
    hspoiled⟩
  intro d hd
  have := hpast d hd
  show d.mtime ≤ w.now + seconds
  omega

end MyKafka
