import MyKafka.PartitionStep

/-!
# Retention by age

Retention compares the clock with the modification time that a segment cached when it was opened.
As long as every write that does not roll falls in the second of that time, the cached time is the
one of the file, and retention by age never drops a message before its time.
-/

namespace MyKafka

open Posix MyKafka.Partition

/-- The next step, if it is a write, can be served, and a segment that it adds to was opened in the
same second. -/
def Timely (h : Host) : PartitionOp → Prop
  | .write _ => h.partition.Ready ∧
      ∀ s ∈ h.partition.activeSegment, ¬ s.isFull → s.mtime = h.world.now
  | .tick _ | .readAt _ | .restart _ => True

instance (h : Host) : (op : PartitionOp) → Decidable (Timely h op)
  | .write _ => inferInstanceAs (Decidable (h.partition.Ready ∧
      ∀ s ∈ h.partition.activeSegment, ¬ s.isFull → s.mtime = h.world.now))
  | .tick _ | .readAt _ | .restart _ => inferInstanceAs (Decidable True)

/-- Segments know when their files were last modified, a step deletes no log that was modified less
than the time to live before it, and a message is read until it has lived that long. -/
structure KeepsRecent (dir : Path) (h : Host) (ops : List PartitionOp) : Prop where
  modified : ∀ s ∈ (h.final ops).partition.segments, ∃ i,
    (h.final ops).world.fs.fileAt s.filename = some i ∧
      ((h.final ops).world.fs.data i).mtime = s.mtime
  kept : ∀ ops₁ op ops₂, ops = ops₁ ++ op :: ops₂ → ∀ n i, extension n = logExtension →
    (h.final ops₁).world.fs.node? (dir ++ [n]) = some (.file i) →
    (h.final ops₁).world.now - ((h.final ops₁).world.fs.data i).mtime ≤ h.partition.segmentTtl →
    ∃ i', (Host.step (h.final ops₁) op).2.world.fs.node? (dir ++ [n]) = some (.file i')
  readable : ∀ ops₁ m ops₂ n, ops = ops₁ ++ .write m :: ops₂ →
    (Host.step (h.final ops₁) (.write m)).1 = .wrote (.ok n) →
    (h.final ops).world.now ≤ (h.final ops₁).world.now + h.partition.segmentTtl →
    (h.final ops).partition.readAt n (h.final ops).world = (.ok (), m, (h.final ops).world)

/-- The chunks of a partition that was written the messages of `log` at `times`: those up to the end
of a chunk were written before it was last modified, and those that are gone have lived. -/
structure Dated (now ttl : ℤ) (cs : List Chunk) (times : List ℤ) : Prop where
  past : ∀ t ∈ times, t ≤ now
  chunk : ∀ c ∈ cs, ∀ k < c.next, ∀ t, times[k]? = some t → t ≤ c.mtime
  gone : ∀ k < firstBase cs, ∀ t, times[k]? = some t → t + ttl < now

/-- The state of a partition between the steps of a run that keeps its segments dated. -/
structure Aged (dir : Path) (ttl : ℤ) (h : Host) (log : List Payload) (times : List ℤ) :
    Prop where
  calm : h.world.Calm
  maxSize : h.partition.maxPartitionSize = 0
  ttl_eq : h.partition.segmentTtl = ttl
  length : times.length = log.length
  chunks : ∃ cs, Rep h.world dir h.partition cs log ∧ Settled cs ∧ Addressable cs ∧
    h.partition.segments.map Segment.mtime = cs.map Chunk.mtime ∧ Dated h.world.now ttl cs times

variable {w : World} {dir : Path} {h : Host} {ttl : ℤ} {log : List Payload} {times : List ℤ}
  {cs : List Chunk}

/-- The first chunk that is left starts where the last one that is gone ends. -/
theorem firstBase_drop_succ {k : ℕ} (hrep : Blocks.Represents Chunk.base Chunk.msgs cs log)
    (hk : k + 1 < cs.length) : firstBase (cs.drop (k + 1)) = (cs[k]).next := by
  rw [List.drop_eq_getElem_cons hk]
  exact hrep.base_succ hk

theorem Dated.later {now now' : ℤ} (hd : Dated now ttl cs times) (hle : now ≤ now') :
    Dated now' ttl cs times :=
  ⟨fun t ht => (hd.past t ht).trans hle, hd.chunk,
    fun k hk t ht => (hd.gone k hk t ht).trans_le hle⟩

theorem Dated.drop {now : ℤ} {k : ℕ} (hd : Dated now ttl cs times)
    (hrep : Blocks.Represents Chunk.base Chunk.msgs cs log) (hk : k < cs.length)
    (hexp : ∀ c ∈ cs.take k, ttl < now - c.mtime) : Dated now ttl (cs.drop k) times := by
  refine ⟨hd.past, fun c hc => hd.chunk c (List.mem_of_mem_drop hc), ?_⟩
  intro l hl t ht
  cases k with
  | zero => exact hd.gone l hl t ht
  | succ k =>
      rw [firstBase_drop_succ hrep hk] at hl
      have hle := hd.chunk cs[k] (List.getElem_mem _) l hl t ht
      have := hexp cs[k] (List.mem_take_iff_getElem.mpr ⟨k, by omega, rfl⟩)
      omega

theorem Partition.Rep.chunk_of {p : Partition} (hrep : Rep w dir p cs log)
    (hm : p.segments.map Segment.mtime = cs.map Chunk.mtime) {k : ℕ} {s : Segment}
    (hs : p.segments[k]? = some s) :
    ∃ c, cs[k]? = some c ∧ Stands w.fs p.path dir p.maxSegmentSize s c ∧ s.mtime = c.mtime := by
  obtain ⟨c, hc, hst⟩ := forall₂_getElem? hrep.live.stands hs
  refine ⟨c, hc, hst, ?_⟩
  have heq := congrArg (·[k]?) hm
  simpa [hs, hc] using heq

theorem Aged.modified (ha : Aged dir ttl h log times) (s : Segment)
    (hs : s ∈ h.partition.segments) :
    ∃ i, h.world.fs.fileAt s.filename = some i ∧ (h.world.fs.data i).mtime = s.mtime := by
  obtain ⟨cs, hrep, -, -, hm, -⟩ := ha.chunks
  obtain ⟨k, hk⟩ := List.getElem?_of_mem hs
  obtain ⟨c, -, hst, hmt⟩ := hrep.chunk_of hm hk
  obtain ⟨i, j, ho⟩ := hst.opened
  refine ⟨i, ?_, ho.mtime.trans hmt.symm⟩
  rw [ho.filename]
  exact FileSystem.fileAt_eq (hrep.live.atDir.child (plain_logName _)) ho.log

/-- The chunks of expired segments have outlived their time. -/
theorem expired_chunks {p : Partition} {now : ℤ} {k : ℕ} (hmax : p.maxPartitionSize = 0)
    (hm : p.segments.map Segment.mtime = cs.map Chunk.mtime)
    (hexp : ∀ s ∈ p.segments.take k, p.Expired now s) :
    ∀ c ∈ cs.take k, p.segmentTtl < now - c.mtime := by
  intro c hc
  have hmem : c.mtime ∈ (cs.map Chunk.mtime).take k := by
    rw [← List.map_take]
    exact List.mem_map_of_mem hc
  rw [← hm, ← List.map_take, List.mem_map] at hmem
  obtain ⟨s, hs, hsc⟩ := hmem
  rw [← hsc]
  exact (hexp s hs).elim And.right (fun h => absurd hmax h)

/-- A log that was modified recently is still there when only old chunks went. -/
theorem kept_of {w' : World} {p p' : Partition} {cs' : List Chunk} {log' : List Payload}
    (hrep : Rep w dir p cs log) (hrep' : Rep w' dir p' cs' log')
    (hkeep : ∀ c ∈ cs, (∃ c' ∈ cs', c'.base = c.base) ∨ ttl < w.now - c.mtime) {n : Name} {i : ℕ}
    (hext : extension n = logExtension) (hn : w.fs.node? (dir ++ [n]) = some (.file i))
    (hrecent : w.now - (w.fs.data i).mtime ≤ ttl) :
    ∃ i', w'.fs.node? (dir ++ [n]) = some (.file i') := by
  obtain ⟨c, hc, hown⟩ := hrep.live.only n (by rw [hn]; simp)
  obtain ⟨i₀, j, hdisk, -⟩ := hrep.live.files c hc
  rcases hown with hown | hown
  · obtain rfl : n = logName c.base := by simpa using hown
    rcases hkeep c hc with ⟨c', hc', hbase⟩ | hold
    · obtain ⟨i', j', hdisk', -⟩ := hrep'.live.files c' hc'
      exact ⟨i', hbase ▸ hdisk'.log⟩
    · obtain rfl : i₀ = i := by simpa [hdisk.log] using hn
      rw [hdisk.mtime] at hrecent
      omega
  · obtain rfl : n = indexName c.base := by simpa using hown
    rw [extension_indexName] at hext
    exact absurd hext (by decide)

theorem Partition.Written.keeps {p p' : Partition} {now : ℤ} {m : Payload} {cs' : List Chunk}
    (hwr : Written p now m p' cs cs') (hmax : p.maxPartitionSize = 0)
    (hm : p.segments.map Segment.mtime = cs.map Chunk.mtime) :
    ∀ c ∈ cs, (∃ c' ∈ cs', c'.base = c.base) ∨ p.segmentTtl < now - c.mtime := by
  intro d hd
  cases hwr with
  | @append init c =>
      left
      rcases List.mem_append.mp hd with hd | hd
      · exact ⟨d, List.mem_append_left _ hd, rfl⟩
      · rw [List.mem_singleton.mp hd]
        exact ⟨c.push m now, by simp, rfl⟩
  | @roll _ next k _ _ _ hexpired =>
      rw [← List.take_append_drop k cs] at hd
      rcases List.mem_append.mp hd with hd | hd
      · exact Or.inr (expired_chunks hmax hm hexpired d hd)
      · exact Or.inl ⟨d, List.mem_append_left _ hd, rfl⟩

theorem getElem?_times {t now : ℤ} {k : ℕ} (hk : k < times.length)
    (ht : (times ++ [now])[k]? = some t) : times[k]? = some t := by
  rwa [List.getElem?_append_left hk] at ht

theorem Dated.write {p p' : Partition} {m : Payload} {cs' : List Chunk} {w' : World}
    (hd : Dated w.now p.segmentTtl cs times) (hwr : Written p w.now m p' cs cs')
    (hrep : Rep w dir p cs log) (hrep' : Rep w' dir p' cs' (log ++ [m]))
    (hlen : times.length = log.length) (hmax : p.maxPartitionSize = 0)
    (hm : p.segments.map Segment.mtime = cs.map Chunk.mtime) :
    Dated w.now p.segmentTtl cs' (times ++ [w.now]) := by
  have hpast : ∀ t ∈ times ++ [w.now], t ≤ w.now := by
    intro t ht
    rcases List.mem_append.mp ht with ht | ht
    · exact hd.past t ht
    · exact (List.mem_singleton.mp ht).le
  have hnext : ∀ c ∈ cs, c.next ≤ log.length := fun c hc => hrep.live.represents.next_le hc
  have hfirst := hwr.firstBase_le hrep hrep'
  have hblocks := hrep.live.represents
  cases hwr with
  | @append init c =>
      refine ⟨hpast, ?_, ?_⟩
      · intro d hd' k hk t ht
        rcases List.mem_append.mp hd' with hd' | hd'
        · have hle := hnext d (List.mem_append_left _ hd')
          exact hd.chunk d (List.mem_append_left _ hd') k hk t (getElem?_times (by omega) ht)
        · rw [List.mem_singleton.mp hd']
          exact hpast t (List.mem_of_getElem? ht)
      · intro k hk t ht
        have heq : firstBase (init ++ [c.push m w.now]) = firstBase (init ++ [c]) := by
          cases init <;> rfl
        exact hd.gone k (heq ▸ hk) t (getElem?_times (by omega) ht)
  | @roll _ next k _ hk _ hexpired =>
      have hexp := expired_chunks hmax hm hexpired
      refine ⟨hpast, ?_, ?_⟩
      · intro d hd' l hl t ht
        rcases List.mem_append.mp hd' with hd' | hd'
        · have hmem := List.mem_of_mem_drop hd'
          have hle := hnext d hmem
          exact hd.chunk d hmem l hl t (getElem?_times (by omega) ht)
        · rw [List.mem_singleton.mp hd']
          exact hpast t (List.mem_of_getElem? ht)
      · intro l hl t ht
        have ht' := getElem?_times (by omega) ht
        rcases Nat.lt_or_eq_of_le hk with hk | rfl
        · refine (hd.drop hblocks hk hexp).gone l ?_ t ht'
          rw [List.drop_eq_getElem_cons hk] at hl ⊢
          exact hl
        · -- every chunk went, so the message is in one that has outlived its time
          obtain ⟨init, c, rfl⟩ := hrep.exists_last
          have hlast : c.next = log.length := hblocks.next_last
          have hle := hd.chunk c (by simp) l (by omega) t ht'
          have := hexp c (by rw [List.take_length]; simp)
          omega

/-- A write that does not roll leaves cached times right if its segment was opened just now. -/
theorem Partition.Written.mtimes {p p' : Partition} {m : Payload} {cs' : List Chunk}
    (hwr : Written p w.now m p' cs cs') (hrep : Rep w dir p cs log)
    (hm : p.segments.map Segment.mtime = cs.map Chunk.mtime)
    (htimely : ∀ s ∈ p.activeSegment, ¬ s.isFull → s.mtime = w.now) :
    p'.segments.map Segment.mtime = cs'.map Chunk.mtime := by
  cases hwr with
  | @append init c hsize _ _ hmtimes =>
      obtain ⟨s, hs, -, hst⟩ := hrep.last
      have hnow := htimely s hs (fun hfull => absurd ((isFull_iff hst).mp hfull) (not_lt.mpr hsize))
      rw [segments_eq hs, List.map_append, List.map_append, List.map_singleton,
        List.map_singleton] at hm
      have hc := (List.append_inj' hm rfl).2
      rw [hmtimes, segments_eq hs, List.map_append, List.map_append, (List.append_inj' hm rfl).1]
      simp only [List.map_singleton, Chunk.push, hnow]
  | roll _ _ hmtimes =>
      rw [hmtimes, hm, List.map_append, List.map_drop]
      rfl

/-- What one step does: it keeps the invariant, dating what it writes, and the logs that were
modified recently. -/
structure Advances (dir : Path) (ttl : ℤ) (h h' : Host) (log' : List Payload) (times' : List ℤ) :
    Prop where
  aged : Aged dir ttl h' log' times'
  kept : ∀ n i, extension n = logExtension → h.world.fs.node? (dir ++ [n]) = some (.file i) →
    h.world.now - (h.world.fs.data i).mtime ≤ ttl →
    ∃ i', h'.world.fs.node? (dir ++ [n]) = some (.file i')

theorem Aged.write (ha : Aged dir ttl h log times) {m : Payload} (htimely : Timely h (.write m))
    (hm : m.length < 2 ^ 31) (hroom : log.length + 1 < 2 ^ 63) :
    ∃ h', Host.step h (.write m) = (.wrote (.ok (log.length : ℤ)), h') ∧
      Advances dir ttl h h' (log ++ [m]) (times ++ [h.world.now]) := by
  obtain ⟨cs, hrep, hset, haddr, hmt, hd⟩ := ha.chunks
  obtain ⟨hready, hactive⟩ := htimely
  obtain ⟨p', w', cs', hwrite, hrep', hwr, hsettings, hw', hnow⟩ :=
    write_ready ha.calm hrep hready (fun c hc _ => hset c hc) hm hroom
  have hmax : p'.maxPartitionSize = h.partition.maxPartitionSize :=
    congrArg (fun x => x.2.2.1) hsettings
  have httl : p'.segmentTtl = h.partition.segmentTtl := congrArg (fun x => x.2.2.2) hsettings
  have hkeep := hwr.keeps ha.maxSize hmt
  rw [ha.ttl_eq] at hkeep
  refine ⟨⟨p', w'⟩, by simp only [Host.step, hwrite], ⟨hw', hmax.trans ha.maxSize,
    httl.trans ha.ttl_eq, by simp [ha.length], cs', hrep', hwr.settled hset,
    hwr.addressable haddr, hwr.mtimes hrep hmt hactive, ?_⟩,
    fun n i hext hn hrecent => kept_of hrep hrep' hkeep hext hn hrecent⟩
  have hd' := Dated.write (ha.ttl_eq ▸ hd) hwr hrep hrep' ha.length ha.maxSize hmt
  rw [ha.ttl_eq] at hd'
  show Dated w'.now ttl cs' _
  rwa [hnow]

theorem Aged.restart (ha : Aged dir ttl h log times) (hlog : log.length < 2 ^ 63)
    (closing : Bool) :
    Advances dir ttl h (Host.step h (.restart closing)).2 log times := by
  obtain ⟨cs, hrep, hset, haddr, hmt, hd⟩ := ha.chunks
  obtain ⟨k, h', hrestart, hre⟩ := Host.restart_spec ha.calm hrep hset hlog closing
  have hstep : (Host.step h (.restart closing)).2 = h' := by
    simp only [Host.step, hrestart]
  have hmax : h'.partition.maxPartitionSize = h.partition.maxPartitionSize :=
    congrArg (fun x => x.2.2.1) hre.settings
  have httl' : h'.partition.segmentTtl = h.partition.segmentTtl :=
    congrArg (fun x => x.2.2.2) hre.settings
  have hexp : ∀ c ∈ cs.take k, ttl < h.world.now - c.mtime := by
    intro c hc
    rcases hre.expired c hc with ⟨-, hold⟩ | hlarge
    · rwa [ha.ttl_eq] at hold
    · exact absurd ha.maxSize hlarge
  have hkeep : ∀ c ∈ cs, (∃ c' ∈ cs.drop k, c'.base = c.base) ∨ ttl < h.world.now - c.mtime := by
    intro c hc
    rw [← List.take_append_drop k cs] at hc
    exact (List.mem_append.mp hc).elim (fun hc => Or.inr (hexp c hc)) (fun hc => Or.inl ⟨c, hc, rfl⟩)
  rw [hstep]
  refine ⟨⟨hre.calm, hmax.trans ha.maxSize, httl'.trans ha.ttl_eq, ha.length, cs.drop k, hre.rep,
    fun c hc => hset c (List.mem_of_mem_drop hc), fun c hc => haddr c (List.mem_of_mem_drop hc),
    hre.mtimes, ?_⟩, fun n i hext hn hrecent => kept_of hrep hre.rep hkeep hext hn hrecent⟩
  rw [hre.now_eq]
  exact hd.drop hrep.live.represents hre.lt hexp

theorem Aged.tick (ha : Aged dir ttl h log times) (seconds : ℕ) :
    Advances dir ttl h (Host.step h (.tick seconds)).2 log times := by
  obtain ⟨cs, hrep, hset, haddr, hmt, hd⟩ := ha.chunks
  exact ⟨⟨ha.calm, ha.maxSize, ha.ttl_eq, ha.length, cs, hrep.tick seconds, hset, haddr, hmt,
    hd.later (by simp [Host.step])⟩, fun n i _ hn _ => ⟨i, hn⟩⟩

theorem Aged.readAt (ha : Aged dir ttl h log times) (o : ℤ) :
    Advances dir ttl h (Host.step h (.readAt o)).2 log times := by
  obtain ⟨cs, hrep, hset, haddr, hmt, hd⟩ := ha.chunks
  have hsame : (Host.step h (.readAt o)).2 = h := by
    simp only [Host.step, h.partition.readAt_calm ha.calm o]
  rw [hsame]
  exact ⟨ha, fun n i _ hn _ => ⟨i, hn⟩⟩

theorem Aged.step (ha : Aged dir ttl h log times) {op : PartitionOp} (htimely : Timely h op)
    (hpay : Payloads [op]) (hroom : log.length + (writes [op]).length < 2 ^ 63) :
    Advances dir ttl h (Host.step h op).2 (log ++ writes [op])
      (times ++ (writes [op]).map (fun _ => h.world.now)) := by
  cases op with
  | tick seconds => simpa [writes] using ha.tick seconds
  | write m =>
      obtain ⟨h', hstep, hadv⟩ := ha.write htimely (hpay m (by simp [writes])) hroom
      rw [hstep]
      exact hadv
  | readAt o => simpa [writes] using ha.readAt o
  | restart closing => simpa [writes] using ha.restart hroom closing

theorem Aged.run {ops : List PartitionOp} : ∀ {h : Host} {log : List Payload}
    {times : List ℤ}, Aged dir ttl h log times → Runs.Always Host.step Timely h ops →
    Payloads ops → log.length + (writes ops).length < 2 ^ 63 →
    ∃ ext, Aged dir ttl (h.final ops) (log ++ writes ops) (times ++ ext) := by
  induction ops with
  | nil =>
      intro h log times ha _ _ _
      exact ⟨[], by simpa [writes, Host.final, Runs.final] using ha⟩
  | cons op ops ih =>
      intro h log times ha halways hpay hcount
      have hw : writes (op :: ops) = writes [op] ++ writes ops := writes_append [op] ops
      rw [hw, List.length_append] at hcount
      have hadv := ha.step halways.1 (fun m hm => hpay m (by rw [hw]; simp [hm])) (by omega)
      obtain ⟨ext, ha'⟩ := ih hadv.aged halways.2 (fun m hm => hpay m (by rw [hw]; simp [hm])) (by
        rw [List.length_append]
        omega)
      rw [List.append_assoc, List.append_assoc, ← hw] at ha'
      exact ⟨_, ha'⟩

/-- A message that has not outlived its time is read. -/
theorem Aged.readable (ha : Aged dir ttl h log times) {k : ℕ} {m : Payload} {t : ℤ}
    (hk : log[k]? = some m) (ht : times[k]? = some t) (hnow : h.world.now ≤ t + ttl) :
    h.partition.readAt k h.world = (.ok (), m, h.world) := by
  obtain ⟨cs, hrep, -, haddr, -, hd⟩ := ha.chunks
  refine readAt_ok ha.calm hrep haddr hk ?_
  rw [hrep.oldest]
  by_contra hlost
  have := hd.gone k (by omega) t ht
  omega

/-- When every write is timely, retention by age never drops a recent segment or message. -/
theorem keeps_recent {path : RawPath} {maxSegmentSize segmentTtl : ℤ} {ops : List PartitionOp}
    (hv : Vacant w path dir) (hpay : Payloads ops)
    (hcount : (writes ops).length < 2 ^ 63)
    (htimely : Runs.Always Host.step Timely
      (Host.boot path maxSegmentSize 0 segmentTtl w).2 ops) :
    KeepsRecent dir (Host.boot path maxSegmentSize 0 segmentTtl w).2 ops := by
  obtain ⟨h, hboot, hre⟩ := Host.boot_spec hv
  rw [hboot] at htimely ⊢
  dsimp only at htimely ⊢
  have httl' : h.partition.segmentTtl = segmentTtl := congrArg (fun x => x.2.2.2) hre.settings
  have ha : Aged dir segmentTtl h [] [] := ⟨hre.calm, congrArg (fun x => x.2.2.1) hre.settings,
    httl', rfl, _, hre.rep, settled_empty _ _, addressable_empty _ _,
    hre.mtimes, by simp, by simp, by simp⟩
  -- every prefix of the run keeps the invariant
  have hprefix : ∀ ops₁ ops₂, ops = ops₁ ++ ops₂ → ∃ times₁,
      Aged dir segmentTtl (h.final ops₁) (writes ops₁) times₁ ∧
      Runs.Always Host.step Timely (h.final ops₁) ops₂ ∧ Payloads ops₂ ∧
      (writes ops₁).length + (writes ops₂).length < 2 ^ 63 := by
    rintro ops₁ ops₂ rfl
    rw [Runs.always_append] at htimely
    rw [writes_append, List.length_append] at hcount
    obtain ⟨ext, ha₁⟩ := ha.run htimely.1 (fun m hm => hpay m (by simp [hm]))
      (by simp only [List.length_nil]; omega)
    exact ⟨_, ha₁, htimely.2, fun m hm => hpay m (by simp [hm]), hcount⟩
  refine ⟨?_, ?_, ?_⟩
  · obtain ⟨times, ha', -⟩ := hprefix ops [] (by simp)
    exact ha'.modified
  · intro ops₁ op ops₂ hops n i hext hn hrecent
    obtain ⟨times₁, ha₁, hal, hpay', hcount'⟩ := hprefix ops₁ (op :: ops₂) hops
    rw [show op :: ops₂ = [op] ++ ops₂ from rfl, writes_append, List.length_append] at hcount'
    have hadv := ha₁.step hal.1 (fun m hm => hpay' m (by
      rw [show op :: ops₂ = [op] ++ ops₂ from rfl, writes_append]
      simp [hm])) (by omega)
    exact hadv.kept n i hext hn (httl' ▸ hrecent)
  · intro ops₁ m ops₂ n hops hok hnow
    obtain ⟨times₁, ha₁, hal, hpay', hcount'⟩ := hprefix ops₁ (.write m :: ops₂) hops
    rw [writes, List.length_cons] at hcount'
    obtain ⟨h₂, hstep, hadv⟩ := ha₁.write hal.1 (hpay' m (by simp [writes])) (by omega)
    have hal₂ := hal.2
    rw [hstep] at hok hal₂
    obtain rfl : ((writes ops₁).length : ℤ) = n := by simpa using hok
    obtain ⟨ext, ha'⟩ := hadv.aged.run hal₂ (fun m' hm' => hpay' m' (by simp [writes, hm']))
      (by rw [List.length_append, List.length_singleton]; omega)
    have hfinal : h.final ops = h₂.final ops₂ := by
      rw [hops, Host.final, Runs.final_append, Runs.final]
      exact congrArg (fun x => Runs.final Host.step x.2 ops₂) hstep
    rw [hfinal] at hnow ⊢
    refine ha'.readable (t := (h.final ops₁).world.now) ?_ ?_ (httl' ▸ hnow)
    · simp
    · rw [← ha₁.length]
      simp

theorem keeps_recent_rolling :
    KeepsRecent [] (Host.boot ⟨[], []⟩ 5 0 10 (World.blank 0)).2
      [.write [1], .tick 20, .write [2]] := by
  refine keeps_recent (Vacant.blank 0) ?_ (by decide) ?_
  · simp [Payloads, writes]
  · exact ⟨by decide +kernel, trivial, by decide +kernel, trivial⟩

/-- A segment that was opened long ago is dropped in the second it is written. -/
theorem drops_recent :
    ¬ KeepsRecent [] (Host.boot ⟨[], []⟩ 5 0 10 (World.blank 0)).2
      [.tick 20, .write [1], .write [2]] := by
  intro hk
  have hread := hk.readable [.tick 20] [1] [.write [2]] 0 rfl (by rfl) (by decide +kernel)
  exact absurd (congrArg (fun r => r.1.isOk) hread) (by decide +kernel)

end MyKafka
