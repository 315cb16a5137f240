import MyKafka.PartitionFrame
import MyKafka.PartitionSize
import MyKafka.SegmentDescriptors

/-!
# Segments that can be closed

A segment that an `open` left without an error can be closed, and stays so whatever is written to
it. The segments a partition lists are all of this kind as long as no close is refused, so the
partition can be closed and deleted.
-/

namespace MyKafka

open Posix LittleEndian

variable {w w' w₀ : World}

namespace Index

/-- The index is mapped, on a descriptor it holds. -/
structure IsOpen (x : Index) : Prop where
  fd : ∃ num i, x.fd = .live num i
  addr : x.addr ≠ .failed
  position : 0 ≤ x.position

variable {x y : Index}

theorem open_isOpen (h : x.open w = (.ok (), y, w')) : y.IsOpen := by
  have hlive := w.openCreate_live x.filename
  unfold Index.open at h
  rcases he : w.openCreate x.filename with ⟨fd, w₁⟩
  rw [he] at hlive h
  dsimp only at hlive
  rcases hlive with rfl | ⟨num, i, rfl⟩
  · cases h
  · dsimp only at h
    split at h
    · exact absurd h (abandon_fails _ _ _ _ _ _)
    · split at h
      · exact absurd h (abandon_fails _ _ _ _ _ _)
      · split at h
        · exact absurd h (abandon_fails _ _ _ _ _ _)
        · split_ifs at h
          · exact absurd h (abandon_fails _ _ _ _ _ _)
          · split at h
            · exact absurd h (abandon_fails _ _ _ _ _ _)
            · next hfailed _ =>
                cases h
                exact ⟨⟨num, i, rfl⟩, hfailed, Int.natCast_nonneg _⟩

theorem IsOpen.write (h : x.IsOpen) (offset position : ℤ) (w : World) :
    (x.write offset position w).2.1.IsOpen := by
  have hpos := h.position
  unfold Index.write
  dsimp only
  split_ifs
  · exact h
  · exact ⟨h.fd, h.addr, by simp only [offsetWidth, positionWidth]; omega⟩

theorem IsOpen.truncateEntries (h : x.IsOpen) {res : Result Unit}
    (he : x.truncateEntries 0 = (res, y)) : y.IsOpen := by
  unfold Index.truncateEntries at he
  split_ifs at he
  · cases he
    exact h
  · cases he
    exact ⟨h.fd, h.addr, by simp⟩

theorem IsOpen.close (h : x.IsOpen) (hw : w.Obliging) :
    ∃ y w', x.close w = (.ok (), y, w') ∧ y.fd = .closed ∧ w'.Obliging := by
  obtain ⟨num, i, hfd⟩ := h.fd
  unfold Index.close
  rw [if_neg (by simp [hfd]), World.munmap_serving (hw.serving 1) h.addr]
  dsimp only
  rw [hfd, World.ftruncate_serving (hw.rest.serving 1) num i h.position]
  dsimp only
  set im := (w.rest.fs.data i).image.truncate x.position.toNat
  have hserve : (w.rest.rest.setImage i im).Serving 1 := hw.rest.rest.serving 1
  rw [World.close_serving hserve]
  exact ⟨_, _, rfl, rfl, hw.rest.rest.rest⟩

end Index

namespace Segment

/-- The segment holds its descriptors and its index is open. -/
structure AllOpen (s : Segment) : Prop where
  fd : ∃ num i, s.fd = .live num i
  fdRead : ∃ num i, s.fdRead = .live num i
  index : s.index.IsOpen

/-- A segment that `close` closes, or has closed. -/
def Closable (s : Segment) : Prop := s.Shut ∨ s.AllOpen

variable {s t : Segment}

theorem AllOpen.with_index {x : Index} (h : s.AllOpen) (hx : x.IsOpen) :
    { s with index := x }.AllOpen := ⟨h.fd, h.fdRead, hx⟩

theorem reconstructLoop_allOpen {fuel cursor : ℕ} {res : Result Unit} (h : s.AllOpen)
    (hr : reconstructLoop fuel s cursor w = some (res, t, w')) : t.AllOpen := by
  induction fuel generalizing s cursor w with
  | zero => cases hr
  | succ fuel ih =>
      unfold reconstructLoop at hr
      split at hr
      · cases hr
        exact h
      · split_ifs at hr
        · cases hr
          exact h
        · next bytes w₁ _ _ =>
            dsimp only at hr
            have h₁ : { s with nextOffset := overlay offsetSize s.nextOffset bytes }.AllOpen :=
              ⟨h.fd, h.fdRead, h.index⟩
            split at hr
            · cases hr
              exact h₁
            · split_ifs at hr
              · cases hr
                exact h₁
              · next bytes' w₂ _ _ =>
                  have hx := h.index.write (overlay offsetSize s.nextOffset bytes) s.position w₂
                  split at hr
                  · next e x w₃ he =>
                      rw [he] at hx
                      cases hr
                      exact h₁.with_index hx
                  · next x w₃ he =>
                      rw [he] at hx
                      dsimp only at hx
                      split at hr
                      · cases hr
                        exact ⟨h.fd, h.fdRead, hx⟩
                      · apply ih _ hr
                        exact ⟨h.fd, h.fdRead, hx⟩

theorem AllOpen.reconstruct (h : s.AllOpen) (w : World) :
    (s.reconstructIndexAndGetLastOffset w).2.1.AllOpen := by
  unfold reconstructIndexAndGetLastOffset
  split
  · exact h
  · next w₁ _ =>
      cases hr : reconstructLoop (room s.index + 1) s 0 w₁ with
      | none => exact h
      | some r => exact reconstructLoop_allOpen h hr

theorem abandon_error (s : Segment) (w : World) (e : Error) :
    ∃ e', (s.abandon w e).1 = .error e' := by
  unfold abandon
  rcases w.close s.fd with ⟨_ | _, w₁⟩
  · exact ⟨_, rfl⟩
  · dsimp only
    rcases w₁.close s.fdRead with ⟨_ | _, w₂⟩ <;> exact ⟨_, rfl⟩

theorem openLog_allOpen (hx : s.index.IsOpen) (h : s.openLog w = (.ok (), t, w')) : t.AllOpen := by
  have hlive := w.openCreate_live s.filename
  unfold openLog at h
  rcases he : w.openCreate s.filename with ⟨fd, w₁⟩
  rw [he] at hlive h
  dsimp only at hlive
  rcases hlive with rfl | ⟨num, i, rfl⟩
  · cases h
  · dsimp only at h
    rcases hstat : w₁.fstat (.live num i) with ⟨_ | buf, w₂⟩
    · rw [hstat] at h
      cases h
    · rw [hstat] at h
      dsimp only at h
      have hread := w₂.openRead_live s.filename
      rcases he' : w₂.openRead s.filename with ⟨fdRead, w₃⟩
      rw [he'] at hread h
      dsimp only at hread
      rcases hread with rfl | ⟨num', j, rfl⟩
      · dsimp only [closeOnError] at h
        split at h <;> cases h
      · dsimp only at h
        have hs : { s with
            fd := .live num i
            physicalSize := buf.size
            mtime := buf.mtime
            fdRead := .live num' j }.AllOpen := ⟨⟨num, i, rfl⟩, ⟨num', j, rfl⟩, hx⟩
        have hrec := hs.reconstruct w₃
        split at h
        · next e s₁ w₄ _ =>
            obtain ⟨e', herr⟩ := s₁.abandon_error w₄ e
            rw [h] at herr
            cases herr
        · next s₁ w₄ hs₁ =>
            rw [hs₁] at hrec
            cases h
            exact hrec

/-- An `open` that succeeds leaves everything open. -/
theorem open_allOpen (h : s.open w = (.ok (), t, w')) : t.AllOpen := by
  unfold Segment.open at h
  rcases hx : s.index.open w with ⟨_ | _, x, w₁⟩
  · rw [hx] at h
    cases h
  · rw [hx] at h
    dsimp only at h
    split at h
    · cases h
    · rcases htr : x.truncateEntries 0 with ⟨_ | _, y⟩
      · rw [htr] at h
        cases h
      · rw [htr] at h
        exact openLog_allOpen ((Index.open_isOpen hx).truncateEntries htr) h

theorem AllOpen.writeBuffer (h : s.AllOpen) (payload : Payload) (payloadSize : ℤ) (w : World) :
    (s.writeBuffer payload payloadSize w).2.1.AllOpen := by
  have hx := h.index.write s.nextOffset s.position (appendPayload (w.append s.fd
    (toLE offsetSize s.nextOffset ++ toLE sizeSize payloadSize)).2 s.fd payload payloadSize).2
  unfold Segment.writeBuffer
  dsimp only
  split_ifs
  · exact h
  · exact h
  · split
    · next e x w₁ he =>
        rw [he] at hx
        exact h.with_index hx
    · next x w₁ he =>
        rw [he] at hx
        exact ⟨h.fd, h.fdRead, hx⟩

theorem AllOpen.write (h : s.AllOpen) (payload : Payload) (w : World) :
    (s.write payload w).2.1.AllOpen := h.writeBuffer payload _ w

theorem Shut.writeBuffer (h : s.Shut) (payload : Payload) (payloadSize : ℤ) (w : World) :
    (s.writeBuffer payload payloadSize w).2.1 = s := by
  have hfails : ∀ bs, (w.append s.fd bs).1 = -1 := by
    intro bs
    rw [h.1]
    unfold World.append
    split <;> simp_all
  unfold Segment.writeBuffer
  dsimp only
  rw [hfails, if_pos (by decide)]

theorem Closable.write (h : s.Closable) (payload : Payload) (w : World) :
    (s.write payload w).2.1.Closable := by
  rcases h with h | h
  · rw [Segment.write, Shut.writeBuffer h]
    exact Or.inl h
  · exact Or.inr (h.write payload w)

theorem Closable.close (h : s.Closable) (hw : w.Obliging) :
    ∃ t w', s.close w = (.ok (), t, w') ∧ t.Shut ∧ w'.Obliging := by
  rcases h with h | h
  · refine ⟨s, w, ?_, h, hw⟩
    rw [Segment.close, if_pos h.1]
  · obtain ⟨num, i, hfd⟩ := h.fd
    obtain ⟨num', j, hfdr⟩ := h.fdRead
    unfold Segment.close
    rw [if_neg (by simp [hfd]), hfd, World.close_serving (hw.serving 1)]
    dsimp only
    have hw₁ : World.Obliging { w.rest with closed := num :: w.closed } := hw.rest
    rw [hfdr, World.close_serving (hw₁.serving 1)]
    dsimp only
    obtain ⟨x, w₂, hclose, hx, hw₂⟩ := h.index.close (w := { World.rest
      { w.rest with closed := num :: w.closed } with closed := num' :: num :: w.closed }) hw₁.rest
    rw [hclose]
    exact ⟨_, _, rfl, ⟨rfl, hx⟩, hw₂⟩

/-- Deleting the files may fail, but the segment is closed. -/
theorem Closable.deleteSegment (h : s.Closable) (hw : w.Obliging) :
    (s.deleteSegment w).2.1.Shut ∧ (s.deleteSegment w).2.2.Obliging := by
  have hunlink : ∀ {w : World} (r : RawPath), w.Obliging → (w.unlink r).2.Obliging := by
    intro w r hw
    unfold World.unlink
    rw [World.served_serving (hw.serving 1)]
    dsimp only
    split
    · exact hw.rest
    · split <;> exact hw.rest
  obtain ⟨t, w₁, hclose, ht, hw₁⟩ := h.close hw
  have hw₂ := hunlink t.filename hw₁
  unfold Segment.deleteSegment
  rw [hclose]
  dsimp only
  split
  · next w₂ he =>
      rw [he] at hw₂
      exact ⟨ht, hw₂⟩
  · next w₂ he =>
      rw [he] at hw₂
      have hw₃ := hunlink t.index.filename hw₂
      unfold Index.deleteIndex
      rcases he' : w₂.unlink t.index.filename with ⟨_ | _, w₃⟩
      all_goals
        rw [he'] at hw₃
        exact ⟨ht, hw₃⟩

end Segment

namespace Partition

/-- All segments that are listed can be closed. -/
def Closable (p : Partition) : Prop := ∀ s ∈ p.segments, s.Closable

variable {dir : Path} {I : ℕ → Prop} {p p' : Partition} {ss : List Segment} {s active : Segment}
  {res : Result Unit}

theorem closable_iff : p.Closable ↔
    (∀ s ∈ p.older, s.Closable) ∧ ∀ s ∈ p.activeSegment, s.Closable := by
  simp only [Closable, segments, List.forall_mem_append, Option.mem_toList, Option.mem_def]

theorem cleanSegments_closable (hw : w.Obliging) (hp : ∀ s ∈ p.older, s.Closable)
    (hss : ∀ s ∈ ss, s.Closable) (h : cleanSegments ss p w = (res, p', w')) :
    ∀ s ∈ p'.older, s.Closable := by
  induction ss generalizing p w res with
  | nil =>
      cases h
      exact hp
  | cons s ss ih =>
      have hrest : ∀ t ∈ ss, t.Closable := fun t ht => hss t (List.mem_cons_of_mem s ht)
      have hs := hss s List.mem_cons_self
      obtain ⟨hshut, hw₁⟩ := hs.deleteSegment hw
      have hpush : ∀ u : Segment, u.Closable → ∀ t ∈ p.older ++ [u], t.Closable := by
        intro u hu t ht
        rcases List.mem_append.mp ht with ht | ht
        · exact hp t ht
        · exact List.mem_singleton.mp ht ▸ hu
      rcases cleanSegments_turn h with ⟨res₁, e, -, hr⟩ | ⟨-, hr⟩ | ⟨-, hr⟩
      · exact ih hw₁ (hpush _ (Or.inl hshut)) hrest hr
      · rw [Segment.destroy_shut hshut] at hr
        exact ih (p := { p with physicalSize := p.physicalSize - s.size }) hw₁ hp hrest hr
      · exact ih hw (hpush s hs) hrest hr

theorem Closable.cleanOldSegments (hp : p.Closable) (hw : w.Obliging) :
    (p.cleanOldSegments w).2.1.Closable := by
  rcases hpass : p.cleanOldSegments w with ⟨res, p', w'⟩
  rw [Partition.cleanOldSegments] at hpass
  have hactive := cleanSegments_active hpass
  have holder := cleanSegments_closable hw (by simp)
    (fun s hs => hp s (List.mem_append_left _ hs)) hpass
  intro s hs
  rcases List.mem_append.mp hs with hs | hs
  · exact holder s hs
  · rw [hactive] at hs
    exact hp s (List.mem_append_right _ hs)

theorem Closable.roll (hp : p.Closable) (hfr : Frame (Under dir) I w₀ w) (hw : w₀.Obliging)
    (hconf : p.Confined dir I w₀.fs) (ha : active ∈ p.activeSegment) :
    (p.roll active w).2.1.Closable := by
  have hopen := Segment.open_frame hfr (hconf.home.segment active.nextOffset p.maxSegmentSize)
  unfold Partition.roll
  split_ifs
  · rcases he : (Segment.new p.path active.nextOffset p.maxSegmentSize).open w with ⟨_ | _, t, w₁⟩
    · exact hp
    · rw [he] at hopen
      dsimp only
      have hp₁ : { p with older := p.older ++ [active], activeSegment := some t }.Closable := by
        rw [closable_iff, List.forall_mem_append, List.forall_mem_singleton]
        refine ⟨⟨fun s hs => hp s (List.mem_append_left _ hs), ?_⟩, ?_⟩
        · exact hp active (List.mem_append_right _ (Option.mem_toList.mpr ha))
        · rintro s ⟨⟩
          exact Or.inr (Segment.open_allOpen he)
      split_ifs
      · exact hp₁.cleanOldSegments (hopen.1.obliging hw)
      · exact hp₁
  · exact hp

theorem Closable.write (hp : p.Closable) (hfr : Frame (Under dir) I w₀ w) (hw : w₀.Obliging)
    (hconf : p.Confined dir I w₀.fs) (payload : Payload) : (p.write payload w).2.1.Closable := by
  unfold Partition.write
  split_ifs
  · exact hp
  · split
    · exact hp
    · next active ha =>
        have hroll := hp.roll hfr hw hconf ha
        rcases hr : p.roll active w with ⟨_ | _, p₁, w₁⟩
        · rw [hr] at hroll
          exact hroll
        · rw [hr] at hroll
          dsimp only at hroll ⊢
          split
          · exact hroll
          · next active₁ ha₁ =>
              have hmem : active₁ ∈ p₁.segments :=
                List.mem_append_right _ (Option.mem_toList.mpr ha₁)
              have hwritten := (hroll active₁ hmem).write payload w₁
              have holder : ∀ s ∈ p₁.older, s.Closable :=
                fun s hs => hroll s (List.mem_append_left _ hs)
              rcases he : active₁.write payload w₁ with ⟨_ | _, t, w₂⟩
              all_goals
                rw [he] at hwritten
                intro s hs
                rcases List.mem_append.mp hs with hs | hs
                · exact holder s hs
                · exact List.mem_singleton.mp hs ▸ hwritten

theorem openSegments_closable (bases : List ℤ) : ∀ {p : Partition} {w : World},
    p.Closable → (openSegments bases p w).2.1.Closable := by
  induction bases with
  | nil => exact fun hp => hp
  | cons base bases ih =>
      intro p w hp
      rw [openSegments]
      rcases he : (Segment.new p.path base p.maxSegmentSize).open w with ⟨_ | _, t, w₁⟩
      · exact hp
      · apply ih
        rw [closable_iff, List.forall_mem_append, List.forall_mem_singleton]
        refine ⟨⟨fun s hs => hp s (List.mem_append_left _ hs), ?_⟩, fun s hs => ?_⟩
        · exact Or.inr (Segment.open_allOpen he)
        · exact hp s (List.mem_append_right _ (Option.mem_toList.mpr hs))

theorem openFiles_closable (hp : p.Closable) (hfr : Frame (Under dir) I w₀ w) (hw : w₀.Obliging)
    (hconf : p.Confined dir I w₀.fs) : (p.openFiles w).2.1.Closable := by
  have hsegs := openSegments_closable (w := w) (fillFilesList w p.path) hp
  have hframe := openSegments_frame (fillFilesList w p.path) hfr hconf
  unfold openFiles
  rcases he : openSegments (fillFilesList w p.path) p w with ⟨_ | _, p₁, w₁⟩
  · rw [he] at hsegs
    exact hsegs
  · rw [he] at hsegs hframe
    dsimp only at hsegs hframe ⊢
    split
    · next s hs =>
        have hp₁ : { p₁ with older := p₁.older.dropLast, activeSegment := some s }.Closable := by
          rw [closable_iff]
          refine ⟨fun t ht => ?_, ?_⟩
          · exact hsegs t (List.mem_append_left _ (List.mem_of_mem_dropLast ht))
          · rintro t ⟨⟩
            exact hsegs s (List.mem_append_left _ (List.mem_of_getLast? hs))
        exact hp₁.cleanOldSegments (hframe.1.obliging hw)
    · have hopen := Segment.open_frame hframe.1 (hframe.2.home.segment 0 p₁.maxSegmentSize)
      rcases he' : (Segment.new p₁.path 0 p₁.maxSegmentSize).open w₁ with ⟨_ | _, s, w₂⟩
      · exact hsegs
      · rw [he'] at hopen
        have hp₂ : { p₁ with activeSegment := some s }.Closable := by
          rw [closable_iff]
          refine ⟨fun t ht => hsegs t (List.mem_append_left _ ht), ?_⟩
          rintro t ⟨⟩
          exact Or.inr (Segment.open_allOpen he')
        exact hp₂.cleanOldSegments (hopen.1.obliging hw)

theorem Closable.open (hp : p.Closable) (hfr : Frame (Under dir) I w₀ w) (hw : w₀.Obliging)
    (hconf : p.Confined dir I w₀.fs) : (p.open w).2.1.Closable := by
  have hdir := hconf.home.createDirectories hfr
  unfold Partition.open
  rcases he : w.createDirectories p.path with ⟨_ | _, w₁⟩
  · exact hp
  · rw [he] at hdir
    exact openFiles_closable hp hdir hw hconf

theorem Closable.new (path : RawPath) (maxSegmentSize maxPartitionSize segmentTtl : ℤ) :
    (Partition.new path maxSegmentSize maxPartitionSize segmentTtl).Closable := by
  simp [Closable, Partition.new, segments]

theorem closeSegments_closable (hw : w.Obliging) (hss : ∀ s ∈ ss, s.Closable) :
    ∃ ts w', closeSegments ss w = (.ok (), ts, w') ∧ w'.Obliging := by
  induction ss generalizing w with
  | nil => exact ⟨[], w, rfl, hw⟩
  | cons s ss ih =>
      obtain ⟨t, w₁, hclose, hshut, hw₁⟩ := (hss s List.mem_cons_self).close hw
      obtain ⟨ts, w', hrest, hw'⟩ := ih hw₁ (fun u hu => hss u (List.mem_cons_of_mem s hu))
      refine ⟨t :: ts, w', ?_, hw'⟩
      rw [closeSegments, hclose]
      dsimp only
      rw [Segment.destroy_shut hshut, hrest]

theorem Closable.close (hp : p.Closable) (hw : w.Obliging) :
    ∃ p' w', p.close w = (.ok (), p', w') ∧ p'.segments = [] ∧ p'.path = p.path ∧ w'.Obliging := by
  obtain ⟨ts, w', hclose, hw'⟩ := closeSegments_closable hw hp
  unfold Partition.close
  rw [hclose]
  exact ⟨_, w', rfl, rfl, rfl, hw'⟩

theorem Closable.deletePartition (hp : p.Closable) (hw : w.Obliging) :
    ∃ p' w', p.deletePartition w = (.ok (), p', w'.removeAll p.path) ∧ p'.segments = [] ∧
      w' = (p.close w).2.2 ∧ w'.Obliging := by
  obtain ⟨p', w', hclose, hsegs, hpath, hw'⟩ := hp.close hw
  refine ⟨p', w', ?_, hsegs, by rw [hclose], hw'⟩
  rw [Partition.deletePartition, hclose]
  dsimp only
  rw [hpath]

end Partition

end MyKafka
