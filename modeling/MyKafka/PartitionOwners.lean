import MyKafka.OpenFiles
import MyKafka.PartitionStuck

/-!
# Every file has one owner

A roll names the new segment by the next offset of the active one, so the two segments have
different files only if the active one is not empty. Any segment size that is not negative ensures
this; a negative one makes an empty segment full.
-/

namespace MyKafka

open Posix MyKafka.Partition

/-- Two segments on different files. -/
structure Apart (s t : Segment) : Prop where
  filename : s.filename ≠ t.filename
  indexFilename : s.index.filename ≠ t.index.filename
  inodes : ∀ i, s.Uses i → ¬ t.Uses i

/-- The files the segment has open are the ones its names lead to. -/
def Linked (w : World) (s : Segment) : Prop :=
  ∃ i j, (∃ num, s.fd = .live num i) ∧ w.fs.fileAt s.filename = some i ∧
    (∃ num, s.index.fd = .live num j) ∧ w.fs.fileAt s.index.filename = some j

/-- Segments that follow each other, each on its own files. -/
structure Owned (w : World) (ss : List Segment) : Prop where
  sorted : ss.Pairwise (fun s t => s.baseOffset < t.baseOffset)
  chained : ss.IsChain (fun s t => s.nextOffset = t.baseOffset)
  apart : ss.Pairwise Apart
  linked : ∀ s ∈ ss, Linked w s

variable {w : World} {path : RawPath} {dir : Path} {maxSize : ℤ} {ss : List Segment}
  {cs : List Chunk} {c : Chunk} {log : List Payload} {s t : Segment} {i j : ℕ} {h : Host}

/-! ## Segments that stand for chunks -/

theorem OpenAs.uses (ho : OpenAs w.fs path dir i j s c) {k : ℕ} (hk : s.Uses k) :
    ∃ q, ownNames dir c.base q ∧ w.fs.node? q = some (.file k) := by
  obtain ⟨n₁, h₁⟩ := ho.fd
  obtain ⟨n₂, h₂⟩ := ho.fdRead
  obtain ⟨n₃, h₃⟩ := ho.holds.fd
  have h₄ := ho.holds.addr
  have hij : k = i ∨ k = j := by
    rcases hk with ⟨n, hn⟩ | ⟨n, hn⟩ | ⟨n, hn⟩ | hn
    · rw [h₁] at hn
      exact Or.inl (Desc.live.inj hn).2.symm
    · rw [h₂] at hn
      exact Or.inl (Desc.live.inj hn).2.symm
    · rw [h₃] at hn
      exact Or.inr (Desc.live.inj hn).2.symm
    · rw [h₄] at hn
      exact Or.inr (Addr.mapped.inj hn).symm
  rcases hij with rfl | rfl
  · exact ⟨_, Or.inl rfl, ho.log⟩
  · exact ⟨_, Or.inr rfl, ho.index⟩

theorem child_inj {r : RawPath} {n n' : Name} (h : r.child n = r.child n') : n = n' := by
  have hc := congrArg RawPath.comps h
  simpa [RawPath.child] using hc

/-- No inode has two names. -/
theorem apart_of_base_ne {d : Chunk} (hs : Stands w.fs path dir maxSize s c)
    (ht : Stands w.fs path dir maxSize t d) (hne : c.base ≠ d.base) : Apart s t := by
  obtain ⟨i, j, ho⟩ := hs.opened
  obtain ⟨i', j', ho'⟩ := ht.opened
  refine ⟨?_, ?_, fun k hk hk' => ?_⟩
  · rw [ho.filename, ho'.filename, getLogFilename_eq, getLogFilename_eq]
    intro he
    have := logName_inj (by omega) (by omega) (child_inj he)
    omega
  · rw [ho.indexFilename, ho'.indexFilename, getIndexFilename_eq, getIndexFilename_eq]
    intro he
    have := indexName_inj (by omega) (by omega) (child_inj he)
    omega
  · obtain ⟨q, hq, hn⟩ := ho.uses hk
    obtain ⟨q', hq', hn'⟩ := ho'.uses hk'
    obtain rfl := FileSystem.node?_inj hn hn'
    exact ownNames_disjoint hne hq hq'

theorem linked_of_stands (hp : FileSystem.At w.fs path dir)
    (hs : Stands w.fs path dir maxSize s c) : Linked w s := by
  obtain ⟨i, j, ho⟩ := hs.opened
  refine ⟨i, j, ho.fd, ?_, ho.holds.fd, ?_⟩
  · rw [ho.filename]
    exact FileSystem.fileAt_eq (hp.child (plain_logName _)) ho.log
  · rw [ho.indexFilename]
    exact FileSystem.fileAt_eq (hp.child (plain_indexName _)) ho.index

theorem owned_of_stands (hp : FileSystem.At w.fs path dir)
    (h : List.Forall₂ (Stands w.fs path dir maxSize) ss cs)
    (hchain : cs.IsChain (Blocks.Follows Chunk.base Chunk.msgs)) : Owned w ss := by
  have hbase := Blocks.pairwise_base hchain
  refine ⟨?_, ?_, ?_, ?_⟩
  · refine forall₂_pairwise h hbase (fun hs ht hlt => ?_)
    obtain ⟨i, j, ho⟩ := hs.opened
    obtain ⟨i', j', ho'⟩ := ht.opened
    rw [Segment.baseOffset, Segment.baseOffset, ho.baseOffset, ho'.baseOffset]
    omega
  · refine forall₂_isChain h hchain (fun hs ht hf => ?_)
    obtain ⟨i, j, ho⟩ := hs.opened
    obtain ⟨i', j', ho'⟩ := ht.opened
    rw [Segment.baseOffset, ho.nextOffset, ho'.baseOffset, hf.2]
    rfl
  · exact forall₂_pairwise h hbase (fun hs ht hlt => apart_of_base_ne hs ht hlt.ne)
  · intro s hs
    obtain ⟨c, -, hst⟩ := forall₂_mem h hs
    exact linked_of_stands hp hst

/-! ## Runs -/

/-- A partition that is open, or that a restart failed to open because of a log that is longer than
its index. -/
structure Kept (dir : Path) (h : Host) (log : List Payload) : Prop where
  calm : h.world.Calm
  size_nonneg : 0 ≤ h.partition.maxSegmentSize
  chunks : (∃ cs, Rep h.world dir h.partition cs log ∧
      ∀ c ∈ cs, h.partition.maxSegmentSize < c.size → c.junk = []) ∨
    ∃ cs c, Stuck h.world dir h.partition cs c log

theorem Kept.owned (hk : Kept dir h log) : Owned h.world h.partition.segments := by
  rcases hk.chunks with ⟨cs, hrep, -⟩ | ⟨cs, c, hstuck⟩
  · exact owned_of_stands hrep.live.atDir hrep.live.stands hrep.live.represents.chain
  · have hsegs : h.partition.segments = h.partition.older := by
      rw [segments, hstuck.inactive]
      exact List.append_nil _
    rw [hsegs]
    exact owned_of_stands hstuck.stored.atDir hstuck.stands
      (List.isChain_append.mp hstuck.stored.represents.chain).1

/-- A write is acknowledged, or the index is full, or there is no active segment. -/
theorem Kept.write (hk : Kept dir h log) {m : Payload} (hm : m.length < 2 ^ 31)
    (hlog : log.length + 1 < 2 ^ 63) :
    Kept dir (Host.step h (.write m)).2 log ∨ Kept dir (Host.step h (.write m)).2 (log ++ [m]) := by
  obtain ⟨hw, h0, ⟨cs, hrep, hjunk⟩ | ⟨cs, c, hstuck⟩⟩ := hk
  · obtain ⟨init, c, rfl⟩ := hrep.exists_last
    by_cases hfull : h.partition.maxSegmentSize < c.size
    · have hne : c.msgs ≠ [] := by
        intro hnil
        rw [Chunk.size, hnil, Log.logSize] at hfull
        omega
      obtain ⟨k, p', w', hwrite, hk, hrep', hset, -, -, hw', -⟩ :=
        write_roll hw hrep hfull hne (hjunk c (by simp) hfull) hm hlog
      have hsize := maxSegmentSize_eq hset
      right
      rw [show (Host.step h (.write m)).2 = ⟨p', w'⟩ by simp only [Host.step, hwrite]]
      refine ⟨hw', hsize ▸ h0, Or.inl ⟨_, hrep', fun d hd hlt => ?_⟩⟩
      dsimp only at hlt
      rw [hsize] at hlt
      rcases List.mem_append.mp hd with hd | hd
      · exact hjunk d (List.mem_of_mem_drop hd) hlt
      · rw [List.mem_singleton.mp hd]
        rfl
    · obtain ⟨s, -, -, hst⟩ := hrep.last
      obtain ⟨i, j, ho⟩ := hst.opened
      by_cases hroom : c.msgs.length < 1310720
      · obtain ⟨p', w', hwrite, hrep', hset, -, hw', -⟩ :=
          write_append hw hrep (not_lt.mp hfull) hroom hm hlog
        have hsize := maxSegmentSize_eq hset
        right
        rw [show (Host.step h (.write m)).2 = ⟨p', w'⟩ by simp only [Host.step, hwrite]]
        refine ⟨hw', hsize ▸ h0, Or.inl ⟨_, hrep', fun d hd hlt => ?_⟩⟩
        dsimp only at hlt
        rw [hsize] at hlt
        rcases List.mem_append.mp hd with hd | hd
        · exact hjunk d (List.mem_append_left _ hd) hlt
        · rw [List.mem_singleton.mp hd]
          exact ho.junk.resolve_right hroom.ne
      · have hcap : c.msgs.length = 1310720 := le_antisymm ho.fits.room (not_lt.mp hroom)
        obtain ⟨e, p', w', c', hwrite, hrep', hset, -, hmsgs, hw', -⟩ :=
          write_wedged hw hrep (not_lt.mp hfull) hcap hm
        have hsize := maxSegmentSize_eq hset
        left
        rw [show (Host.step h (.write m)).2 = ⟨p', w'⟩ by simp only [Host.step, hwrite]]
        refine ⟨hw', hsize ▸ h0, Or.inl ⟨_, hrep', fun d hd hlt => ?_⟩⟩
        dsimp only at hlt
        rw [hsize] at hlt
        rcases List.mem_append.mp hd with hd | hd
        · exact hjunk d (List.mem_append_left _ hd) hlt
        · rw [List.mem_singleton.mp hd, Chunk.size, hmsgs] at hlt
          exact absurd hlt hfull
  · left
    rw [show (Host.step h (.write m)).2 = h by simp only [Host.step, hstuck.write m]]
    exact ⟨hw, h0, Or.inr ⟨cs, c, hstuck⟩⟩

theorem Kept.restart (hk : Kept dir h log) (hlog : log.length < 2 ^ 63) (closing : Bool) :
    Kept dir (Host.step h (.restart closing)).2 log := by
  obtain ⟨hw, h0, ⟨cs, hrep, hjunk⟩ | ⟨cs, c, hstuck⟩⟩ := hk
  · obtain ⟨init, c, rfl⟩ := hrep.exists_last
    by_cases hc : c.junk = []
    · have hset : Settled (init ++ [c]) := by
        intro d hd
        rcases List.mem_append.mp hd with hd | hd
        · exact hrep.live.quiet d (by rwa [List.dropLast_concat])
        · rwa [List.mem_singleton.mp hd]
      obtain ⟨k, h', hrestart, hre⟩ := Host.restart_spec hw hrep hset hlog closing
      have hsize := maxSegmentSize_eq hre.settings
      rw [show (Host.step h (.restart closing)).2 = h' by simp only [Host.step, hrestart]]
      exact ⟨hre.calm, hsize ▸ h0, Or.inl ⟨_, hre.rep,
        fun d hd _ => hset d (List.mem_of_mem_drop hd)⟩⟩
    · obtain ⟨s, -, -, hst⟩ := hrep.last
      obtain ⟨i, j, ho⟩ := hst.opened
      obtain ⟨hstored, hw', -⟩ := Host.leave_spec hw hrep closing
      obtain ⟨e, h', hrestart, hstuck, hset, hw''⟩ :=
        Host.restart_stuck hw' hstored (ho.junk.resolve_left hc) hc hlog
      have hsize := maxSegmentSize_eq hset
      rw [show (Host.step h (.restart closing)).2 = h' by simp only [Host.step, hrestart]]
      exact ⟨hw'', hsize ▸ h0, Or.inr ⟨_, _, hstuck⟩⟩
  · obtain ⟨hstored, hw', -⟩ := Host.leave_stuck hw hstuck closing
    obtain ⟨e, h', hrestart, hstuck', hset, hw''⟩ :=
      Host.restart_stuck hw' hstored hstuck.full hstuck.spoiled hlog
    have hsize := maxSegmentSize_eq hset
    rw [show (Host.step h (.restart closing)).2 = h' by simp only [Host.step, hrestart]]
    exact ⟨hw'', hsize ▸ h0, Or.inr ⟨_, _, hstuck'⟩⟩

theorem Kept.step (hk : Kept dir h log) {op : PartitionOp} (hpay : Payloads [op])
    (hroom : log.length + (writes [op]).length < 2 ^ 63) :
    Kept dir (Host.step h op).2 log ∨ Kept dir (Host.step h op).2 (log ++ writes [op]) := by
  cases op with
  | tick seconds =>
      left
      refine ⟨hk.calm, hk.size_nonneg, hk.chunks.imp ?_ ?_⟩
      · exact fun ⟨cs, hrep, hjunk⟩ => ⟨cs, hrep.tick seconds, hjunk⟩
      · exact fun ⟨cs, c, hstuck⟩ => ⟨cs, c, hstuck.tick seconds⟩
  | write m => exact hk.write (hpay m (by simp [writes])) hroom
  | readAt o =>
      left
      have hsame : (Host.step h (.readAt o)).2 = h := by
        simp only [Host.step, h.partition.readAt_calm hk.calm o]
      rwa [hsame]
  | restart closing => exact Or.inl (hk.restart hroom closing)

theorem Kept.run {ops : List PartitionOp} (hk : Kept dir h log) (hpay : Payloads ops)
    (hcount : log.length + (writes ops).length < 2 ^ 63) : ∃ log', Kept dir (h.final ops) log' := by
  induction ops generalizing h log with
  | nil => exact ⟨log, hk⟩
  | cons op ops ih =>
      have hsplit : writes (op :: ops) = writes [op] ++ writes ops := writes_append [op] ops
      rw [Payloads, hsplit] at hpay
      rw [hsplit, List.length_append] at hcount
      have hpay' : Payloads ops := fun m hm => hpay m (List.mem_append_right _ hm)
      rcases hk.step (fun m hm => hpay m (List.mem_append_left _ hm)) (by omega) with hk' | hk'
      · exact ih hk' hpay' (by omega)
      · exact ih hk' hpay' (by rw [List.length_append]; omega)

/-! ## A negative segment size -/

/-- A roll of an empty segment opens its own files again. -/
theorem roll_empty {p : Partition} {base : ℕ} {mtime : ℤ} (hw : w.Calm)
    (hrep : Rep w dir p [emptyChunk base mtime] log) (hneg : p.maxSegmentSize < 0)
    (httl : p.segmentTtl = 0) (hmax : p.maxPartitionSize = 0) (hlog : log.length + 1 < 2 ^ 63)
    {m : Payload} (hm : m.length < 2 ^ 31) :
    ∃ n p' w', p.write m w = (.ok n, p', w') ∧
      ∃ s t, p'.segments = [s, t] ∧ s.baseOffset = base ∧ t.baseOffset = base := by
  obtain ⟨s, hs, hlive, hst⟩ := (show Rep w dir p ([] ++ [emptyChunk base mtime]) log from hrep).last
  obtain ⟨i, j, ho⟩ := hst.opened
  have hnext : base ≤ log.length := by
    have := hrep.live.represents.next_le (List.mem_singleton_self _)
    unfold Blocks.next at this
    exact (Nat.le_add_right _ _).trans this
  have holder : p.older = [] := by
    have hlen := hlive.stands.length_eq
    simpa using hlen
  have hnd := ho.not_isDir
  obtain ⟨t, w₁, i', j', hopen, ho', -⟩ :
      ∃ t w₁ i' j', (Segment.new p.path base p.maxSegmentSize).open w = (.ok (), t, w₁) ∧
        OpenAs w₁.fs p.path dir i' j' t (emptyChunk base mtime) ∧ _ :=
    Segment.open_spec (c := emptyChunk base mtime) hw hlive.atDir (hnd _ (Or.inl rfl))
      (hnd _ (Or.inr rfl)) (by rw [FileSystem.contents_file ho.log, ho.bytes]; rfl)
      (by rw [FileSystem.contents_file ho.log, ho.mtime])
      (by rw [FileSystem.contents_file ho.index]; exact ho.holds.sane)
      (emptyChunk_fits (by omega) _) rfl
  have hw₁ : w₁.Calm := by
    have hfr := Segment.open_frame (Frame.refl (fun _ => id)) (Segment.Confined.new
      (S := ownNames dir base) (I := FileSystem.Named (ownNames dir base) w.fs)
      (hlive.atDir.inside (plain_logName _) (Or.inl rfl))
      (hlive.atDir.inside (plain_indexName _) (Or.inr rfl)) p.maxSegmentSize)
    rw [hopen] at hfr
    exact hfr.1.calm hw
  obtain ⟨t', w', hwrite, ho'', -⟩ := Segment.write_ok hw₁ ho' (by simp [emptyChunk]) hm
    (by simp only [Chunk.next, emptyChunk, List.length_nil]; omega)
  have hsnext : s.nextOffset = base := by
    rw [ho.nextOffset]
    simp [Chunk.next, emptyChunk]
  have hfull : s.isFull := by
    rw [isFull_iff hst]
    simpa [Chunk.size, emptyChunk, Log.logSize] using hneg
  refine ⟨(emptyChunk base mtime).next, { p with
      older := [s]
      activeSegment := some t'
      physicalSize := p.physicalSize + (m.length + Segment.headerSize) }, w', ?_, s, t', rfl,
    ho.baseOffset, ho''.baseOffset⟩
  unfold Partition.write roll
  rw [hrep.opened, if_neg (by simp), hs]
  dsimp only
  rw [if_pos hfull, hsnext, hopen]
  dsimp only
  rw [if_neg (by simp [httl, hmax])]
  dsimp only
  rw [hwrite, holder]
  rfl

/-- An empty segment is full at once, and rolls to its own name. -/
theorem not_owned_of_neg {S : ℤ} (hv : Vacant w path dir) (hS : S < 0) :
    ¬ Owned ((Host.boot path S 0 0 w).2.final [.write []]).world
      ((Host.boot path S 0 0 w).2.final [.write []]).partition.segments := by
  obtain ⟨h, hboot, hre⟩ : ∃ h, Host.boot path S 0 0 w = (.ok (), h) ∧ _ := Host.boot_spec hv
  have hset := hre.settings
  have hsize : h.partition.maxSegmentSize = S := maxSegmentSize_eq hset
  obtain ⟨n, p', w', hwrite, s, t, hsegs, hs, ht⟩ := roll_empty (m := []) hre.calm hre.rep
    (by rwa [hsize]) (congrArg (fun x => x.2.2.2) hset) (congrArg (fun x => x.2.2.1) hset)
    (by simp) (by simp)
  have hfinal : h.final [.write []] = ⟨p', w'⟩ := by
    simp only [Host.final, Runs.final, Host.step, hwrite]
  intro howned
  rw [hboot, hfinal] at howned
  have hsorted := howned.sorted
  rw [hsegs] at hsorted
  have := (List.pairwise_cons.mp hsorted).1 t (List.mem_singleton_self t)
  omega

theorem rolls_onto_itself :
    ¬ Owned ((Host.boot ⟨[], []⟩ (-1) 0 0 (World.blank 0)).2.final [.write []]).world
      ((Host.boot ⟨[], []⟩ (-1) 0 0 (World.blank 0)).2.final [.write []]).partition.segments :=
  not_owned_of_neg (Vacant.blank 0) (by decide)

/-- The segments of a partition follow each other on files of their own, in every run and at every
retention setting, exactly if the segment size is not negative. -/
theorem owned_iff {S : ℤ} (hv : Vacant w path dir) :
    (∀ (maxPartitionSize segmentTtl : ℤ) (ops : List PartitionOp), Payloads ops →
      (writes ops).length < 2 ^ 63 →
      let h := (Host.boot path S maxPartitionSize segmentTtl w).2.final ops
      Owned h.world h.partition.segments) ↔ 0 ≤ S := by
  constructor
  · intro hall
    by_contra hS
    exact not_owned_of_neg hv (not_le.mp hS) (hall 0 0 [.write []] (by simp [Payloads, writes])
      (by simp [writes]))
  · intro hS M ttl ops hpay hcount
    obtain ⟨h, hboot, hre⟩ : ∃ h, Host.boot path S M ttl w = (.ok (), h) ∧ _ := Host.boot_spec hv
    have hsize : h.partition.maxSegmentSize = S := maxSegmentSize_eq hre.settings
    have hk : Kept dir h [] := ⟨hre.calm, hsize ▸ hS, Or.inl ⟨_, hre.rep, fun c hc _ => by
      rw [List.mem_singleton.mp hc]
      rfl⟩⟩
    rw [hboot]
    obtain ⟨log, hk'⟩ := hk.run hpay (by simpa using hcount)
    exact hk'.owned

theorem owned_iff_blank :
    (∀ (maxPartitionSize segmentTtl : ℤ) (ops : List PartitionOp), Payloads ops →
      (writes ops).length < 2 ^ 63 →
      let h := (Host.boot ⟨[], []⟩ 0 maxPartitionSize segmentTtl (World.blank 0)).2.final ops
      Owned h.world h.partition.segments) ↔ (0 : ℤ) ≤ 0 :=
  owned_iff (Vacant.blank 0)

end MyKafka
