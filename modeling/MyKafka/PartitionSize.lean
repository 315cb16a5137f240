import MyKafka.PartitionStep

/-!
# Retention by size

A partition counts its bytes in `physicalSize`. The counter is the sum of the sizes of its segments,
and after retention the segments that are not active keep to the limit: either none is left, or the
whole partition was within the limit when the pass ended.
-/

namespace MyKafka

open Posix MyKafka.Partition

def sizes (ss : List Segment) : ℤ := (ss.map Segment.size).sum

@[simp] theorem sizes_nil : sizes [] = 0 := rfl

@[simp] theorem sizes_cons (s : Segment) (ss : List Segment) :
    sizes (s :: ss) = s.size + sizes ss := by
  rw [sizes, List.map_cons, List.sum_cons]
  rfl

@[simp] theorem sizes_append (ss ts : List Segment) : sizes (ss ++ ts) = sizes ss + sizes ts := by
  rw [sizes, List.map_append, List.sum_append]
  rfl

/-- The counter is right, and what is not active keeps to the limit of the partition. -/
structure Sized (p : Partition) : Prop where
  counted : p.physicalSize = sizes p.segments
  older_le : sizes p.older ≤ p.maxPartitionSize

/-- `Sized` where the size of the partition may be unlimited. -/
structure Tallied (p : Partition) : Prop where
  counted : p.physicalSize = sizes p.segments
  older_le : 0 < p.maxPartitionSize → sizes p.older ≤ p.maxPartitionSize

theorem Tallied.sized {p : Partition} (h : Tallied p) (hM : 0 < p.maxPartitionSize) : Sized p :=
  ⟨h.counted, h.older_le hM⟩

theorem Sized.tallied {p : Partition} (h : Sized p) : Tallied p := ⟨h.counted, fun _ => h.older_le⟩

variable {w w' : World} {dir : Path} {h h' : Host} {p p' : Partition} {cs cs' : List Chunk}
  {c : Chunk} {log : List Payload} {op : PartitionOp} {m : Payload} {ss : List Segment}

/-! ## The pass of retention -/

/-- One turn of a pass: the deletion fails and the pass with it, the segment goes, or it is kept. -/
theorem cleanSegments_turn {s : Segment} {res : Result Unit}
    (h : cleanSegments (s :: ss) p w = (res, p', w')) :
    (∃ res₁ e, res = .error e ∧ cleanSegments ss
      { p with older := p.older ++ [(s.deleteSegment w).2.1] } (s.deleteSegment w).2.2 =
        (res₁, p', w')) ∨
    (p.outdated s w.now ∧ cleanSegments ss { p with physicalSize := p.physicalSize - s.size }
      ((s.deleteSegment w).2.1.destroy (s.deleteSegment w).2.2) = (res, p', w')) ∨
    (¬ p.outdated s w.now ∧
      cleanSegments ss { p with older := p.older ++ [s] } w = (res, p', w')) := by
  rw [cleanSegments] at h
  split_ifs at h with hout
  · rcases hdel : s.deleteSegment w with ⟨_ | _, t, w₁⟩
    · rw [hdel] at h
      dsimp only at h
      rcases hrest : cleanSegments ss { p with older := p.older ++ [t] } w₁ with ⟨_ | _, p₂, w₂⟩
      all_goals
        rw [hrest] at h
        cases h
        exact Or.inl ⟨_, _, rfl, rfl⟩
    · rw [hdel] at h
      exact Or.inr (Or.inl ⟨hout, h⟩)
  · exact Or.inr (Or.inr ⟨hout, h⟩)

/-- One turn of a pass that deletes all it selects. -/
theorem cleanSegments_cons {s : Segment} (h : cleanSegments (s :: ss) p w = (.ok (), p', w')) :
    (∃ w₁, p.outdated s w.now ∧
      cleanSegments ss { p with physicalSize := p.physicalSize - s.size } w₁ = (.ok (), p', w')) ∨
    (¬ p.outdated s w.now ∧
      cleanSegments ss { p with older := p.older ++ [s] } w = (.ok (), p', w')) := by
  rcases cleanSegments_turn h with ⟨_, e, he, -⟩ | ⟨hout, hrest⟩ | hkept
  · cases he
  · exact Or.inl ⟨_, hout, hrest⟩
  · exact Or.inr hkept

theorem cleanSegments_active {res : Result Unit} (h : cleanSegments ss p w = (res, p', w')) :
    p'.activeSegment = p.activeSegment := by
  induction ss generalizing p w res with
  | nil =>
      cases h
      rfl
  | cons s ss ih =>
      rcases cleanSegments_turn h with ⟨res₁, e, -, hr⟩ | ⟨-, hr⟩ | ⟨-, hr⟩
      all_goals exact (ih hr).trans rfl

/-- Deleting a segment takes its size off the counter, keeping it leaves the counter. -/
theorem cleanSegments_counted (h : cleanSegments ss p w = (.ok (), p', w')) :
    p'.physicalSize + (sizes p.older + sizes ss) = p.physicalSize + sizes p'.older := by
  induction ss generalizing p w with
  | nil =>
      rw [cleanSegments] at h
      cases h
      simp
  | cons s ss ih =>
      rcases cleanSegments_cons h with ⟨w₁, -, hrest⟩ | ⟨-, hrest⟩
      · have := ih hrest
        simp only [sizes_cons] at this ⊢
        omega
      · have := ih hrest
        simp only [sizes_append, sizes_cons, sizes_nil] at this ⊢
        omega

/-- A segment is only kept while the partition is within its limit, and the counter never grows. -/
theorem cleanSegments_limit (hM : p.maxPartitionSize ≠ 0) (hsize : ∀ s ∈ ss, 0 ≤ s.size)
    (h : cleanSegments ss p w = (.ok (), p', w'))
    (h0 : p.older = [] ∨ p.physicalSize ≤ p.maxPartitionSize) :
    p'.older = [] ∨ p'.physicalSize ≤ p.maxPartitionSize := by
  induction ss generalizing p w with
  | nil =>
      rw [cleanSegments] at h
      cases h
      exact h0
  | cons s ss ih =>
      have hss : ∀ t ∈ ss, 0 ≤ t.size := fun t ht => hsize t (List.mem_cons_of_mem s ht)
      have hs := hsize s List.mem_cons_self
      rcases cleanSegments_cons h with ⟨w₁, -, hrest⟩ | ⟨hin, hrest⟩
      · refine ih (p := { p with physicalSize := p.physicalSize - s.size }) hM hss hrest ?_
        exact h0.imp_right (fun hle => by show p.physicalSize - s.size ≤ p.maxPartitionSize; omega)
      · refine ih (p := { p with older := p.older ++ [s] }) hM hss hrest (Or.inr ?_)
        by_contra hlarge
        exact hin (Or.inr ⟨hM, not_le.mp hlarge⟩)

/-! ## Segments and chunks -/

theorem map_size {path : RawPath} {maxSize : ℤ}
    (h : List.Forall₂ (Stands w.fs path dir maxSize) ss cs) :
    ss.map Segment.size = cs.map (fun c => (c.size : ℤ)) := by
  induction h with
  | nil => rfl
  | cons hs _ ih =>
      obtain ⟨i, j, ho⟩ := hs.opened
      rw [List.map_cons, List.map_cons, ih, Segment.size, ho.physicalSize]

theorem Partition.Rep.size_nonneg (hrep : Rep w dir p cs log) {s : Segment}
    (hs : s ∈ p.segments) : 0 ≤ s.size := by
  have hmem : s.size ∈ p.segments.map Segment.size := List.mem_map_of_mem hs
  rw [map_size hrep.live.stands] at hmem
  obtain ⟨c, -, hc⟩ := List.mem_map.mp hmem
  omega

/-- Retention keeps the counter and enforces the limit, if there is one. -/
theorem cleanOldSegments_tallied (hw : w.Calm) (hrep : Rep w dir p cs log)
    (hcounted : p.physicalSize = sizes p.segments) : Tallied (p.cleanOldSegments w).2.1 := by
  obtain ⟨s, hs⟩ := hrep.active
  obtain ⟨k, size, w', hpass, -⟩ := cleanOldSegments_spec hw hrep
  rw [hpass]
  rw [cleanOldSegments] at hpass
  have hcount := cleanSegments_counted hpass
  have hactive : 0 ≤ s.size := hrep.size_nonneg (by rw [segments_eq hs]; simp)
  rw [segments_eq hs] at hcounted
  simp only [sizes_append, sizes_cons, sizes_nil] at hcounted hcount
  refine ⟨?_, fun hM => ?_⟩
  · rw [segments_eq (p := { p with physicalSize := size, older := p.older.drop k }) hs]
    simp only [sizes_append, sizes_cons, sizes_nil]
    omega
  · have hlimit := cleanSegments_limit (p := { p with older := [] }) (ne_of_gt hM)
      (fun t ht => hrep.size_nonneg (List.mem_append_left _ ht)) hpass (Or.inl rfl)
    show sizes (p.older.drop k) ≤ p.maxPartitionSize
    dsimp only at hM hlimit
    rcases hlimit with hnil | hle
    · rw [hnil, sizes_nil]
      exact hM.le
    · omega

/-! ## Opening, rolling and writing -/

theorem openSegments_counted {bases : List ℤ} (h : openSegments bases p w = (.ok (), p', w')) :
    p'.physicalSize + sizes p.older = p.physicalSize + sizes p'.older := by
  induction bases generalizing p w with
  | nil =>
      rw [openSegments] at h
      cases h
      rfl
  | cons base bases ih =>
      rw [openSegments] at h
      rcases hopen : (Segment.new p.path base p.maxSegmentSize).open w with ⟨_ | _, s, w₁⟩
      · rw [hopen] at h
        cases h
      · rw [hopen] at h
        have := ih h
        simp only [sizes_append, sizes_cons, sizes_nil] at this
        omega

/-- A partition that has just been opened. -/
theorem open_tallied (hw : w.Calm) (hp : p.Fresh) (h0 : p.physicalSize = 0)
    (hstored : Stored w p.path dir cs log) (hset : Settled cs) (hlog : log.length < 2 ^ 63) :
    Tallied (p.open w).2.1 := by
  obtain ⟨size, init, s, w₁, hsegs, hrep, -, hw₁, -⟩ :=
    openSegments_stored hw hp hstored.atDir hstored.toLaid hstored.files hset hlog
  rw [open_at hw hstored.atDir, openFiles_eq hsegs rfl]
  have hcount := openSegments_counted hsegs
  rw [hp.older, h0] at hcount
  apply cleanOldSegments_tallied hw₁ hrep
  rw [segments_eq (p := { p with physicalSize := size, older := init, activeSegment := some s }) rfl]
  simpa using hcount

theorem open_empty_tallied (hw : w.Calm) (hp : p.Fresh) (h0 : p.physicalSize = 0)
    (hat : FileSystem.At w.fs p.path dir) (hempty : ∀ n, w.fs.node? (dir ++ [n]) = none) :
    Tallied (p.open w).2.1 := by
  obtain ⟨s, w₁, -, hopen, hrep, -, hw₁, -⟩ := openSegments_empty hw hp hat hempty
  rw [open_at hw hat, hopen]
  apply cleanOldSegments_tallied hw₁ hrep
  rw [sizes, map_size hrep.live.stands]
  simpa [Chunk.size, emptyChunk, Log.logSize] using h0

theorem Segment.write_size {s s' : Segment} {n : ℤ} (hm : m.length < 2 ^ 31)
    (h : s.write m w = (.ok n, s', w')) : s'.size = s.size + (12 + m.length) := by
  have hnarrow : toInt32 (m.length : ℤ) = m.length :=
    Index.toInt32_of_range (by omega) (by exact_mod_cast hm)
  rw [Segment.write, Segment.writeBuffer, hnarrow] at h
  dsimp only at h
  split_ifs at h with hheader hpayload
  · cases h
  · cases h
  · generalize (appendPayload _ _ _ _).2 = w₁ at h
    rcases hx : s.index.write s.nextOffset s.position w₁ with ⟨_ | _, x, w₂⟩
    · rw [hx] at h
      cases h
    · rw [hx] at h
      cases h
      rfl

/-- A write that is acknowledged rolls, if it has to, and then adds a record to the active
segment. -/
theorem write_inv {n : ℤ} (h : p.write m w = (.ok n, p', w')) :
    ∃ s p₁ w₁ s₁ s', p.activeSegment = some s ∧ p.roll s w = (.ok (), p₁, w₁) ∧
      p₁.activeSegment = some s₁ ∧ s₁.write m w₁ = (.ok n, s', w') ∧
      p' = { p₁ with
        activeSegment := some s'
        physicalSize := p₁.physicalSize + (m.length + Segment.headerSize) } := by
  unfold Partition.write at h
  split_ifs at h with hcancel
  · cases h
  · rcases hs : p.activeSegment with _ | s
    · rw [hs] at h
      cases h
    · rw [hs] at h
      dsimp only at h
      rcases hroll : p.roll s w with ⟨_ | _, p₁, w₁⟩
      · rw [hroll] at h
        cases h
      · rw [hroll] at h
        dsimp only at h
        rcases hs₁ : p₁.activeSegment with _ | s₁
        · rw [hs₁] at h
          cases h
        · rw [hs₁] at h
          dsimp only at h
          rcases hwrite : s₁.write m w₁ with ⟨_ | _, s', w₂⟩
          · rw [hwrite] at h
            cases h
          · rw [hwrite] at h
            cases h
            exact ⟨s, p₁, w₁, s₁, s', rfl, hroll, hs₁, hwrite, rfl⟩

theorem roll_tallied {s : Segment} {res : Result Unit} (hw : w.Calm) (hrep : Rep w dir p cs log)
    (hset : Settled cs) (hready : p.Ready) (hlog : log.length < 2 ^ 63)
    (hs : p.activeSegment = some s) (hp : Tallied p) (h : p.roll s w = (res, p', w')) :
    Tallied p' := by
  obtain ⟨init, c, rfl⟩ := hrep.exists_last
  obtain ⟨s', hs', -, hst⟩ := hrep.last
  obtain rfl : s = s' := by simpa [hs] using hs'
  unfold roll at h
  split_ifs at h with hfull
  · have hne : c.msgs ≠ [] := by
      rw [ready_iff hrep, if_pos ((isFull_iff hst).mp hfull)] at hready
      exact hready
    obtain ⟨t, w₁, hopen, hrep₁, -, hw₁, -⟩ :=
      roll_opens hw hrep hne (hset c (by simp)) hlog hs
    -- the new segment is empty, so the counter is still right
    obtain ⟨t', ht', -, hstt⟩ := hrep₁.last
    obtain ⟨i, j, ho⟩ := hstt.opened
    have hempty : t.size = 0 := by
      obtain rfl := Option.some.inj ht'
      exact ho.physicalSize
    have hcounted := hp.counted
    rw [segments_eq hs] at hcounted
    rw [hopen] at h
    dsimp only at h
    have hcounted₁ : p.physicalSize =
        sizes { p with older := p.older ++ [s], activeSegment := some t }.segments := by
      rw [segments_eq (p := { p with older := p.older ++ [s], activeSegment := some t }) rfl]
      simp only [sizes_append, sizes_cons, sizes_nil, hempty] at hcounted ⊢
      omega
    split_ifs at h with hretain
    · cases h
      exact cleanOldSegments_tallied hw₁ hrep₁ hcounted₁
    · cases h
      refine ⟨hcounted₁, fun hM => ?_⟩
      dsimp only at hM
      exact absurd (Or.inr hM.ne') hretain
  · cases h
    exact hp

theorem write_tallied {n : ℤ} (hw : w.Calm) (hrep : Rep w dir p cs log) (hset : Settled cs)
    (hready : p.Ready) (hlog : log.length < 2 ^ 63) (hm : m.length < 2 ^ 31) (hp : Tallied p)
    (h : p.write m w = (.ok n, p', w')) : Tallied p' := by
  obtain ⟨s, p₁, w₁, s₁, s', hs, hroll, hs₁, hwrite, rfl⟩ := write_inv h
  have hp₁ := roll_tallied hw hrep hset hready hlog hs hp hroll
  have hsize := Segment.write_size hm hwrite
  have hcounted := hp₁.counted
  refine ⟨?_, hp₁.older_le⟩
  rw [segments_eq hs₁] at hcounted
  rw [segments_eq (p := { p₁ with
    activeSegment := some s'
    physicalSize := p₁.physicalSize + (m.length + Segment.headerSize) }) rfl]
  simp only [sizes_append, sizes_cons, sizes_nil, hsize] at hcounted ⊢
  rw [show Segment.headerSize = 12 from rfl]
  omega

/-! ## Runs -/

theorem boot_tallied {path : RawPath} {S M ttl : ℤ} (hv : Vacant w path dir)
    (hboot : Host.boot path S M ttl w = (.ok (), h)) : Tallied h.partition := by
  rw [← show _ = h.partition from congrArg (fun x => x.2.partition) hboot]
  exact open_empty_tallied (p := Partition.new path S M ttl) hv.calm (Fresh.new _ _ _ _) rfl
    hv.atDir hv.empty

theorem restart_tallied {closing : Bool} (hw : h.world.Calm)
    (hrep : Rep h.world dir h.partition cs log) (hset : Settled cs) (hlog : log.length < 2 ^ 63)
    (hrestart : h.restart closing = (.ok (), h')) : Tallied h'.partition := by
  obtain ⟨hstored, hw', -⟩ := Host.leave_spec hw hrep closing
  rw [← show _ = h'.partition from congrArg (fun x => x.2.partition) hrestart]
  exact open_tallied (p := Partition.new h.partition.path h.partition.maxSegmentSize
    h.partition.maxPartitionSize h.partition.segmentTtl) hw' (Fresh.new _ _ _ _) rfl hstored hset hlog

/-- A partition whose segments hold at most `S + R` bytes. -/
structure Bounded (R : ℕ) (h : Host) (cs : List Chunk) : Prop where
  limit_pos : 0 < h.partition.maxPartitionSize
  sized : Sized h.partition
  chunks : ∀ c ∈ cs, (c.size : ℤ) ≤ h.partition.maxSegmentSize + R

/-- Only the last chunk grows, and only while it is not over the size of a segment. -/
theorem Partition.Written.size_le {R : ℕ} {now : ℤ} (h0 : 0 ≤ p.maxSegmentSize)
    (h : Written p now m p' cs cs') (hm : 12 + m.length ≤ R)
    (hcs : ∀ c ∈ cs, (c.size : ℤ) ≤ p.maxSegmentSize + R) (hc : c ∈ cs') :
    (c.size : ℤ) ≤ p.maxSegmentSize + R := by
  cases h with
  | append hfits =>
      rcases List.mem_append.mp hc with hc | hc
      · exact hcs c (List.mem_append_left _ hc)
      · rw [List.mem_singleton.mp hc, Chunk.size_push]
        omega
  | roll =>
      rcases List.mem_append.mp hc with hc | hc
      · exact hcs c (List.mem_of_mem_drop hc)
      · rw [List.mem_singleton.mp hc, Chunk.size_push]
        simp only [Chunk.size, emptyChunk, Log.logSize]
        omega

theorem Bounded.moved {R : ℕ} (hh : Holding dir h cs log) (hm : Moved dir h log cs op h' cs')
    (hpay : Payloads [op]) (hlog : log.length < 2 ^ 63) (hR : ∀ m ∈ writes [op], 12 + m.length ≤ R)
    (hb : Bounded R h cs) : Bounded R h' cs' := by
  obtain ⟨hM, hsized, hchunks⟩ := hb
  have hset := hm.settings
  have hmax : h'.partition.maxPartitionSize = h.partition.maxPartitionSize :=
    congrArg (fun x => x.2.2.1) hset
  refine ⟨hmax ▸ hM, ?_, ?_⟩
  · cases hm with
    | tick seconds => exact hsized
    | write hwrite _ _ =>
        have hm := hpay _ List.mem_cons_self
        have hready := ready_of_ok hh.calm hh.rep hh.size_nonneg hh.size_lt hm hwrite
        exact (write_tallied hh.calm hh.rep hh.settled hready hlog hm hsized.tallied hwrite).sized
          (hmax ▸ hM)
    | readAt o => exact hsized
    | @restart closing k h' hrestart hre =>
        exact (restart_tallied hh.calm hh.rep hh.settled hlog hrestart).sized (hmax ▸ hM)
  · rw [maxSegmentSize_eq hset]
    cases hm with
    | tick seconds => exact hchunks
    | write _ hwr _ =>
        exact fun c hc => hwr.size_le hh.size_nonneg (hR _ (by simp [writes])) hchunks hc
    | readAt o => exact hchunks
    | restart _ _ => exact fun c hc => hchunks c (List.mem_of_mem_drop hc)

end MyKafka
