import MyKafka.PartitionRefinement

/-!
# How much a segment may hold

Whether a segment is full is decided by the size of its log, but its index takes a fixed number of
entries, and narrows positions to 32 bits. Both limits are kept exactly when the maximal segment
size is small enough.
-/

namespace MyKafka

open Posix MyKafka.Partition

variable {w : World} {dir : Path} {h : Host}

/-! ## The room of the index -/

/-- One segment that was written `n` empty messages. -/
structure Filled (dir : Path) (h : Host) (n : ℕ) : Prop where
  calm : h.world.Calm
  segment : ∃ c log, Rep h.world dir h.partition [c] log ∧ c.msgs.length = n ∧ c.size = 12 * n ∧
    log.length = n

theorem Filled.step {n : ℕ} (hf : Filled dir h n)
    (hS : (12 * n : ℤ) ≤ h.partition.maxSegmentSize) (hn : n < 1310720) :
    Filled dir (Host.step h (.write [])).2 (n + 1) ∧
      (Host.step h (.write [])).2.partition.settings = h.partition.settings := by
  obtain ⟨c, log, hrep, hlen, hsize, hlog⟩ := hf.segment
  obtain ⟨p', w', hwrite, hrep', hset, -, hw', -⟩ := write_append (m := []) hf.calm
    (show Rep _ _ _ ([] ++ [c]) _ from hrep)
    (by rw [hsize]; exact_mod_cast hS) (by omega) (by simp) (by omega)
  have hstep : Host.step h (.write []) = (.wrote (.ok (log.length : ℤ)), ⟨p', w'⟩) := by
    simp only [Host.step, hwrite]
  rw [hstep]
  refine ⟨⟨hw', _, _, hrep', ?_, ?_, ?_⟩, hset⟩
  · rw [Chunk.push, List.length_append, hlen]
    rfl
  · rw [Chunk.size_push, hsize, List.length_nil]
    omega
  · rw [List.length_append, hlog]
    rfl

/-- A segment size that is large enough lets the first segment fill up to its index. -/
theorem Filled.run {n : ℕ} (hf : Filled dir h 0) (hS : 15728640 ≤ h.partition.maxSegmentSize)
    (hn : n ≤ 1310720) :
    Filled dir (h.final (List.replicate n (.write []))) n ∧
      (h.final (List.replicate n (.write []))).partition.settings = h.partition.settings := by
  induction n with
  | zero => exact ⟨hf, rfl⟩
  | succ n ih =>
      obtain ⟨hfn, hset⟩ := ih (by omega)
      have hsize := maxSegmentSize_eq hset
      obtain ⟨hstep, hset'⟩ := hfn.step (by omega) (by omega)
      rw [List.replicate_succ', Host.final, Runs.final_append]
      exact ⟨hstep, hset'.trans hset⟩

theorem Filled.wedged (hf : Filled dir h 1310720) (hS : 15728640 ≤ h.partition.maxSegmentSize) :
    ∃ e, (Host.step h (.write [])).1 = .wrote (.error e) := by
  obtain ⟨c, log, hrep, hlen, hsize, -⟩ := hf.segment
  obtain ⟨e, p', w', c', hwrite, -⟩ := write_wedged (m := []) hf.calm
    (show Rep _ _ _ ([] ++ [c]) _ from hrep)
    (by rw [hsize]; exact_mod_cast hS) hlen (by simp)
  exact ⟨e, by simp only [Host.step, hwrite]⟩

/-- Every write and every restart of a run is served. -/
def Served (es : List (PartitionOp × PartitionAnswer)) : Prop := Acknowledged es ∧ Reopens es

theorem wedges {path : RawPath} {maxSegmentSize maxPartitionSize segmentTtl : ℤ}
    (hv : Vacant w path dir) (hS : 15728640 ≤ maxSegmentSize) :
    ¬ Acknowledged ((Host.boot path maxSegmentSize maxPartitionSize segmentTtl w).2.trace
      (List.replicate 1310721 (.write []))) := by
  obtain ⟨h, hboot, hre⟩ := Host.boot_spec
    hv
  rw [hboot]
  have hsize : h.partition.maxSegmentSize = maxSegmentSize := maxSegmentSize_eq hre.settings
  have hf : Filled dir h 0 := ⟨hre.calm, _, _, hre.rep, rfl, rfl, rfl⟩
  obtain ⟨hfull, hset⟩ := hf.run (by omega) le_rfl
  obtain ⟨e, he⟩ := hfull.wedged (by rw [maxSegmentSize_eq hset]; omega)
  intro hack
  refine hack (.write [], .wrote (.error e)) ?_ e rfl
  rw [Host.trace, List.replicate_succ', Runs.trace_append]
  refine List.mem_append_right _ ?_
  rw [Runs.trace, Runs.trace, List.mem_singleton, Prod.mk.injEq]
  exact ⟨rfl, he.symm⟩

theorem wedges_at_capacity :
    ¬ Acknowledged ((Host.boot ⟨[], []⟩ 15728640 0 0 (World.blank 0)).2.trace
      (List.replicate 1310721 (.write []))) := wedges (Vacant.blank 0) le_rfl

/-- A partition never wedges on its index exactly when a segment that is not full by its size has
fewer records than its index takes. -/
theorem never_wedges_iff {path : RawPath} {maxSegmentSize maxPartitionSize segmentTtl : ℤ}
    (hv : Vacant w path dir) (h0 : 0 ≤ maxSegmentSize) :
    ((Host.boot path maxSegmentSize maxPartitionSize segmentTtl w).1 = .ok () ∧
      ∀ ops, Payloads ops → (writes ops).length < 2 ^ 63 →
        Served ((Host.boot path maxSegmentSize maxPartitionSize segmentTtl w).2.trace ops)) ↔
    maxSegmentSize < Segment.headerSize * Index.capacity := by
  rw [show (Segment.headerSize * Index.capacity : ℤ) = 15728640 from rfl]
  constructor
  · rintro ⟨-, hall⟩
    by_contra hS
    refine wedges hv (not_lt.mp hS) (hall _ ?_ ?_).1
    · intro m hm
      rw [writes_replicate] at hm
      rw [List.eq_of_mem_replicate hm]
      simp
    · rw [writes_replicate, List.length_replicate]
      norm_num
  · intro hS
    obtain ⟨h, hboot, hset, href⟩ := boot_refines
      hv h0 (by omega)
    have hsize : h.partition.maxSegmentSize = maxSegmentSize := congrArg (fun x => x.2.1) hset
    rw [hboot]
    refine ⟨rfl, fun ops hpay hcount => ?_⟩
    have hack := acknowledged_of_small href (by omega) hpay (by simpa using hcount)
    obtain ⟨t, htr, -⟩ := href.run hpay (by simpa using hcount) hack
    exact ⟨hack, reopens htr⟩

theorem never_wedges_iff_blank :
    ((Host.boot ⟨[], []⟩ 100 0 0 (World.blank 0)).1 = .ok () ∧
      ∀ ops, Payloads ops → (writes ops).length < 2 ^ 63 →
        Served ((Host.boot ⟨[], []⟩ 100 0 0 (World.blank 0)).2.trace ops)) ↔
    (100 : ℤ) < Segment.headerSize * Index.capacity :=
  never_wedges_iff (Vacant.blank 0) (by decide)

/-! ## The width of a position -/

/-- The index entry of a message gives its offset and the position of its record, which lies in the
log behind the records before it. -/
def Indexed (h : Host) (o : ℤ) (m : Payload) : Prop :=
  ∃ s num i before after, h.partition.findSegment o = some s ∧ s.fdRead = .live num i ∧
    o = s.baseOffset + (before.length : ℕ) ∧
    (h.world.fs.data i).image.toList =
      Log.encode s.baseOffset before ++ (Log.record o m ++ after) ∧
    s.index.read (before.length * Index.entryWidth) h.world =
      .ok (o, (Log.encode s.baseOffset before).length)

/-- What every acknowledged write of a run is owed at its end. -/
def Faithful (h : Host) (es : List (PartitionOp × PartitionAnswer)) : Prop :=
  ∀ n m, (PartitionOp.write m, PartitionAnswer.wrote (.ok n)) ∈ es →
    Indexed h n m ∧ h.partition.readAt n h.world = (.ok (), m, h.world)

/-- A partition that retains all its messages. -/
structure Steady (dir : Path) (h : Host) (log : List Payload) : Prop where
  calm : h.world.Calm
  size_nonneg : 0 ≤ h.partition.maxSegmentSize
  size_lt : h.partition.maxSegmentSize < 2 ^ 31
  ttl : h.partition.segmentTtl = 0
  maxSize : h.partition.maxPartitionSize = 0
  chunks : ∃ cs, Rep h.world dir h.partition cs log ∧ Addressable cs ∧
    (∀ c ∈ cs, h.partition.maxSegmentSize < c.size → c.junk = []) ∧ firstBase cs = 0

theorem Steady.settings {log log' : List Payload} {p : Partition} {w' : World}
    (hst : Steady dir h log) (hset : p.settings = h.partition.settings) (hw' : w'.Calm)
    (hch : ∃ cs, Rep w' dir p cs log' ∧ Addressable cs ∧
      (∀ c ∈ cs, p.maxSegmentSize < c.size → c.junk = []) ∧ firstBase cs = 0) :
    Steady dir ⟨p, w'⟩ log' := by
  have hsize := maxSegmentSize_eq hset
  have hmax : p.maxPartitionSize = h.partition.maxPartitionSize :=
    congrArg (fun x => x.2.2.1) hset
  have httl : p.segmentTtl = h.partition.segmentTtl := congrArg (fun x => x.2.2.2) hset
  exact ⟨hw', hsize ▸ hst.size_nonneg, hsize ▸ hst.size_lt, httl.trans hst.ttl,
    hmax.trans hst.maxSize, hch⟩

theorem Steady.write {log : List Payload} {m : Payload} (hst : Steady dir h log)
    (hm : m.length < 2 ^ 31) (hlog : log.length + 1 < 2 ^ 63) :
    (∃ h', Host.step h (.write m) = (.wrote (.ok (log.length : ℤ)), h') ∧
      Steady dir h' (log ++ [m])) ∨
    ∃ e h', Host.step h (.write m) = (.wrote (.error e), h') ∧ Steady dir h' log := by
  obtain ⟨cs, hrep, haddr, hjunk, hfirst⟩ := hst.chunks
  by_cases hready : h.partition.Ready
  · left
    obtain ⟨p', w', cs', hwrite, hrep', hwr, hset, hw', -⟩ :=
      write_ready hst.calm hrep hready hjunk hm hlog
    refine ⟨⟨p', w'⟩, by simp only [Host.step, hwrite], hst.settings hset hw' ⟨cs', hrep',
      hwr.addressable haddr, ?_, ?_⟩⟩
    · intro c hc hfull
      rw [maxSegmentSize_eq hset] at hfull
      exact (hwr.junk hc).elim (fun hc => hjunk c hc hfull) id
    · rw [hwr.firstBase_eq hrep hst.ttl hst.maxSize, hfirst]
  · right
    obtain ⟨init, c, rfl⟩ := hrep.exists_last
    rw [ready_iff hrep] at hready
    obtain ⟨s, -, -, hstand⟩ := hrep.last
    obtain ⟨i, j, ho⟩ := hstand.opened
    have hroom := ho.fits.room
    have h0 := hst.size_nonneg
    have h1 := hst.size_lt
    split_ifs at hready with hfull
    · rw [Chunk.size, not_not.mp hready, Log.logSize] at hfull
      omega
    · obtain ⟨e, p', w', c', hwrite, hrep', hset, hbase, hmsgs, hw', -⟩ :=
        write_wedged hst.calm hrep (not_lt.mp hfull) (by omega) hm
      refine ⟨e, ⟨p', w'⟩, by simp only [Host.step, hwrite], hst.settings hset hw' ⟨init ++ [c'],
        hrep', ?_, ?_, ?_⟩⟩
      · intro d hd
        rcases List.mem_append.mp hd with hd | hd
        · exact haddr d (List.mem_append_left _ hd)
        · rw [List.mem_singleton.mp hd, hmsgs]
          exact haddr c (by simp)
      · intro d hd hlt
        rw [maxSegmentSize_eq hset] at hlt
        rcases List.mem_append.mp hd with hd | hd
        · exact hjunk d (List.mem_append_left _ hd) hlt
        · rw [List.mem_singleton.mp hd, Chunk.size, hmsgs] at hlt
          exact absurd hlt hfull
      · cases init with
        | nil => exact hbase.trans hfirst
        | cons d ds => exact hfirst

/-- Only writes. -/
def OnlyWrites (ops : List PartitionOp) : Prop := ∀ op ∈ ops, ∃ m, op = .write m

/-- Every acknowledged offset is that of its message in the history. -/
theorem Steady.run {ops : List PartitionOp} : ∀ {h : Host} {log : List Payload},
    Steady dir h log → OnlyWrites ops → Payloads ops → log.length + (writes ops).length < 2 ^ 63 →
    ∃ ext, Steady dir (h.final ops) (log ++ ext) ∧
      ∀ n m, (PartitionOp.write m, PartitionAnswer.wrote (.ok n)) ∈ h.trace ops →
        ∃ k : ℕ, n = k ∧ (log ++ ext)[k]? = some m := by
  induction ops with
  | nil =>
      intro h log hst _ _ _
      exact ⟨[], by simpa [Host.final, Runs.final] using hst, by simp [Host.trace, Runs.trace]⟩
  | cons op ops ih =>
      intro h log hst honly hpay hcount
      obtain ⟨m, rfl⟩ := honly op List.mem_cons_self
      rw [writes, List.length_cons] at hcount
      have honly' : OnlyWrites ops := fun o ho => honly o (List.mem_cons_of_mem _ ho)
      have hpay' : Payloads ops := fun m' hm' => hpay m' (List.mem_cons_of_mem m hm')
      rcases hst.write (hpay m (by simp [writes])) (by omega) with
        ⟨h', hstep, hst'⟩ | ⟨e, h', hstep, hst'⟩
      · obtain ⟨ext, hst'', hacks⟩ := ih hst' honly' hpay' (by
          rw [List.length_append, List.length_singleton]
          omega)
        rw [List.append_assoc] at hst'' hacks
        refine ⟨[m] ++ ext, ?_, ?_⟩
        · rwa [Host.final, Runs.final, hstep]
        · intro n m' hmem
          rw [Host.trace, Runs.trace, hstep] at hmem
          rcases List.mem_cons.mp hmem with heq | hmem
          · simp only [Prod.mk.injEq, PartitionOp.write.injEq, PartitionAnswer.wrote.injEq,
              Except.ok.injEq] at heq
            obtain ⟨rfl, rfl⟩ := heq
            exact ⟨log.length, rfl, by simp⟩
          · exact hacks n m' hmem
      · obtain ⟨ext, hst'', hacks⟩ := ih hst' honly' hpay' (by omega)
        refine ⟨ext, ?_, ?_⟩
        · rwa [Host.final, Runs.final, hstep]
        · intro n m' hmem
          rw [Host.trace, Runs.trace, hstep] at hmem
          rcases List.mem_cons.mp hmem with heq | hmem
          · simp at heq
          · exact hacks n m' hmem

theorem Steady.faithful {log : List Payload} (hst : Steady dir h log) {k : ℕ} {m : Payload}
    (hk : log[k]? = some m) :
    Indexed h k m ∧ h.partition.readAt k h.world = (.ok (), m, h.world) := by
  obtain ⟨cs, hrep, haddr, hjunk, hfirst⟩ := hst.chunks
  have hold := hrep.oldest
  rw [hfirst] at hold
  refine ⟨?_, readAt_ok hst.calm hrep haddr hk (by omega)⟩
  cases cs with
  | nil => exact absurd rfl hrep.live.represents.ne_nil
  | cons c cs =>
      have hc : c.base = 0 := hfirst
      obtain ⟨s, d, hfind, hd, hstand, hbase, hle, hlast⟩ := (hrep.find k).2 (by omega)
      have hlt := (List.getElem?_eq_some_iff.mp hk).1
      have hin := (hlast.entry hrep.live.represents).1 (by omega)
      obtain ⟨r, rfl⟩ : ∃ r : ℕ, k = d.base + r := ⟨k - d.base, by omega⟩
      have hmsg : d.msgs[r]? = some m := by
        rw [← hrep.live.represents.getElem? hd (by omega), hk]
      have hr : r < d.msgs.length := (List.getElem?_eq_some_iff.mp hmsg).1
      obtain ⟨i, j, ho⟩ := hstand.opened
      obtain ⟨num, hfd⟩ := ho.fdRead
      have hpos := haddr d hd r hr
      refine ⟨s, num, i, d.msgs.take r, Log.encode (d.base + r + 1) (d.msgs.drop (r + 1)) ++ d.junk,
        hfind, hfd, ?_, ?_, ?_⟩
      · rw [hbase, List.length_take_of_le hr.le]
        push_cast
        rfl
      · rw [ho.bytes, hbase, Log.encode_at d.base hmsg]
        push_cast
        simp only [List.append_assoc]
      · have hread := Index.read_entry ho.holds (Log.startsFrom_getElem? 0 hr)
        rw [zero_add, Index.toInt32_of_range (by omega) (by exact_mod_cast hpos)] at hread
        rw [List.length_take_of_le hr.le, hread, Log.length_encode, ho.baseOffset]
        push_cast
        rw [add_comm]

/-- The message whose record starts at 2³¹ is lost to readers. -/
theorem readAt_narrowed {p : Partition} {cs : List Chunk} {c : Chunk} {log : List Payload}
    (hw : w.Calm) (hrep : Rep w dir p (cs ++ [c]) log) {k : ℕ} (hk : k < c.msgs.length)
    (hpos : Log.logSize (c.msgs.take k) = 2 ^ 31) :
    ∃ e, p.readAt (c.base + k : ℕ) w = (.error e, [], w) := by
  have hfirst := firstBase_le_base hrep.live.represents (c := c) (by simp)
  have hnext := hrep.live.next_last
  rw [Chunk.next] at hnext
  obtain ⟨d, ds, hcons⟩ := List.exists_cons_of_ne_nil (l := cs ++ [c]) (by simp)
  rw [hcons] at hrep hfirst
  obtain ⟨s, e, hfind, he, hstand, hbase, hle, hlast⟩ := (hrep.find (c.base + k : ℕ)).2
    (by exact_mod_cast hfirst.trans (Nat.le_add_right _ _))
  -- the last chunk is the one that is found
  obtain rfl : e = c := by
    obtain ⟨l, hl, -, hafter⟩ := hlast
    have hlen : (d :: ds)[cs.length]? = some c := by rw [← hcons]; simp
    rcases Nat.lt_trichotomy l cs.length with hlt | rfl | hgt
    · have := hafter cs.length c hlt hlen
      omega
    · rw [hlen] at hl
      exact (Option.some.inj hl).symm
    · have := (List.getElem?_eq_some_iff.mp hl).1
      have hn := congrArg List.length hcons
      rw [List.length_append, List.length_singleton] at hn
      omega
  obtain ⟨i, j, ho⟩ := hstand.opened
  unfold Partition.readAt
  rw [hrep.opened, if_neg (by simp), hfind]
  dsimp only
  rw [hbase, show ((e.base + k : ℕ) : ℤ) - e.base = k by omega]
  exact Segment.readAt_narrowed hw ho hk hpos

/-- A payload whose record has 2³⁰ bytes: two of them fill the first 2³¹ bytes of a log. -/
def longPayload : Payload := List.replicate (2 ^ 30 - 12) 0

theorem length_longPayload : longPayload.length = 2 ^ 30 - 12 := List.length_replicate

theorem narrows {path : RawPath} {maxSegmentSize maxPartitionSize segmentTtl : ℤ}
    (hv : Vacant w path dir) (hS : 2 ^ 31 ≤ maxSegmentSize) :
    let h := (Host.boot path maxSegmentSize maxPartitionSize segmentTtl w).2
    ¬ Faithful (h.final [.write longPayload, .write longPayload, .write []])
      (h.trace [.write longPayload, .write longPayload, .write []]) := by
  obtain ⟨h, hboot, hre⟩ := Host.boot_spec
    hv
  rw [hboot]
  have hsize : h.partition.maxSegmentSize = maxSegmentSize := maxSegmentSize_eq hre.settings
  have hl := length_longPayload
  obtain ⟨p₁, w₁, hwrite₁, hrep₁, hset₁, -, hw₁, -⟩ := write_append (m := longPayload)
    hre.calm (show Rep _ _ _ ([] ++ [_]) _ from hre.rep) (by rw [hsize, Chunk.size, emptyChunk, Log.logSize]; omega)
    (by simp [emptyChunk]) (by omega) (by simp)
  have hsize₁ : ((emptyChunk 0 w.now).push longPayload h.world.now).size = 2 ^ 30 := by
    rw [Chunk.size_push, Chunk.size, emptyChunk, Log.logSize]
    omega
  obtain ⟨p₂, w₂, hwrite₂, hrep₂, hset₂, -, hw₂, -⟩ := write_append (m := longPayload) hw₁ hrep₁
    (by rw [hsize₁, maxSegmentSize_eq hset₁, hsize]; omega)
    (by simp [emptyChunk, Chunk.push]) (by omega) (by simp)
  have hsize₂ : (((emptyChunk 0 w.now).push longPayload h.world.now).push longPayload w₁.now).size =
      2 ^ 31 := by
    rw [Chunk.size_push, hsize₁]
    omega
  obtain ⟨p₃, w₃, hwrite₃, hrep₃, -, -, hw₃, -⟩ := write_append (m := []) hw₂ hrep₂
    (by rw [hsize₂, maxSegmentSize_eq hset₂, maxSegmentSize_eq hset₁, hsize]; exact_mod_cast hS)
    (by simp [emptyChunk, Chunk.push]) (by simp) (by simp)
  have hstep₁ : Host.step h (.write longPayload) = (.wrote (.ok 0), ⟨p₁, w₁⟩) := by
    simp only [Host.step, hwrite₁]
    rfl
  have hstep₂ : Host.step ⟨p₁, w₁⟩ (.write longPayload) = (.wrote (.ok 1), ⟨p₂, w₂⟩) := by
    simp only [Host.step, hwrite₂]
    rfl
  have hstep₃ : Host.step ⟨p₂, w₂⟩ (.write []) = (.wrote (.ok 2), ⟨p₃, w₃⟩) := by
    simp only [Host.step, hwrite₃]
    rfl
  have hmsgs : (((emptyChunk 0 w.now).push longPayload h.world.now).push longPayload w₁.now |>.push
      [] w₂.now).msgs = [longPayload, longPayload, []] := rfl
  obtain ⟨e, hread⟩ := readAt_narrowed (k := 2) hw₃ hrep₃ (by rw [hmsgs]; decide)
    (by rw [hmsgs]; exact hsize₂)
  intro _ hf
  have htrace : (PartitionOp.write [], PartitionAnswer.wrote (.ok 2)) ∈
      h.trace [.write longPayload, .write longPayload, .write []] := by
    rw [Host.trace, Runs.trace, hstep₁, Runs.trace, hstep₂, Runs.trace, hstep₃]
    simp
  have hfinal : h.final [.write longPayload, .write longPayload, .write []] = ⟨p₃, w₃⟩ := by
    rw [Host.final, Runs.final, hstep₁, Runs.final, hstep₂, Runs.final, hstep₃, Runs.final]
  have hread' := (hf 2 [] htrace).2
  rw [hfinal] at hread'
  have heq := hread.symm.trans hread'
  cases congrArg Prod.fst heq

theorem narrows_at_limit :
    let h := (Host.boot ⟨[], []⟩ (2 ^ 31) 0 0 (World.blank 0)).2
    ¬ Faithful (h.final [.write longPayload, .write longPayload, .write []])
      (h.trace [.write longPayload, .write longPayload, .write []]) :=
  narrows (Vacant.blank 0) le_rfl

/-- Without retention, the index keeps the offset and the position of every acknowledged message,
and the partition reads it, exactly when no record of a segment can start at 2³¹. -/
theorem faithful_iff {path : RawPath} {maxSegmentSize : ℤ} (hv : Vacant w path dir)
    (h0 : 0 ≤ maxSegmentSize) :
    (∀ ops, OnlyWrites ops → Payloads ops → (writes ops).length < 2 ^ 63 →
      let h := (Host.boot path maxSegmentSize 0 0 w).2
      Faithful (h.final ops) (h.trace ops)) ↔
    maxSegmentSize < 2 ^ 31 := by
  constructor
  · intro hall
    by_contra hS
    refine narrows hv (not_lt.mp hS) (hall _ ?_ ?_ ?_)
    · simp [OnlyWrites]
    · intro m hm
      simp only [writes, List.mem_cons, List.not_mem_nil, or_false] at hm
      have hl := length_longPayload
      rcases hm with rfl | rfl | rfl
      · omega
      · omega
      · simp
    · simp [writes]
  · intro hS ops honly hpay hcount
    obtain ⟨h, hboot, hre⟩ := Host.boot_spec
      hv
    have hsize : h.partition.maxSegmentSize = maxSegmentSize := maxSegmentSize_eq hre.settings
    have hst : Steady dir h [] := ⟨hre.calm, hsize ▸ h0, hsize ▸ hS,
      congrArg (fun x => x.2.2.2) hre.settings, congrArg (fun x => x.2.2.1) hre.settings, _, hre.rep,
      addressable_empty _ _, by simp [emptyChunk], rfl⟩
    rw [hboot]
    obtain ⟨ext, hst', hacks⟩ := hst.run honly hpay (by simpa using hcount)
    intro _ n m hmem
    obtain ⟨k, rfl, hk⟩ := hacks n m hmem
    exact hst'.faithful hk

theorem faithful_iff_blank :
    (∀ ops, OnlyWrites ops → Payloads ops → (writes ops).length < 2 ^ 63 →
      let h := (Host.boot ⟨[], []⟩ 1024 0 0 (World.blank 0)).2
      Faithful (h.final ops) (h.trace ops)) ↔
    (1024 : ℤ) < 2 ^ 31 := faithful_iff (Vacant.blank 0) (by decide)

end MyKafka
