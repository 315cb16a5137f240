import MyKafka.PartitionClean
import MyKafka.PartitionLayout
import MyKafka.Retention

/-!
# A partition is a log in cells

What a partition holds after any run is a function of the operations: the segments, what retention
took away and when, the byte counter, the files, and the answers are those of a log in cells.
-/

namespace MyKafka

open Posix MyKafka.Partition Retention

def Partition.policy (p : Partition) : Policy := ⟨p.maxSegmentSize, p.maxPartitionSize, p.segmentTtl⟩

def Segment.view (s : Segment) : ℤ × ℤ := (s.size, s.mtime)

/-- The log in cells under the names of the partition. -/
def machine (pol : Policy) (t : State Payload) :
    PartitionOp → RetainedLog.Answer Payload × State Payload
  | .tick seconds => (.done, { t with now := t.now + seconds })
  | .write m => (.index (t.append recordSize pol m).1, (t.append recordSize pol m).2)
  | .readAt o =>
    match t.find o with
    | some m => (.entry m, t)
    | none => (.absent, t)
  | .restart _ => (.done, t.reopen recordSize pol)

variable {w w' : World} {dir : Path} {h h' : Host} {p p' : Partition} {cs cs' : List Chunk}
  {c : Chunk} {log : List Payload} {op : PartitionOp} {m : Payload} {ss : List Segment}
  {t : State Payload} {pol : Policy}

/-! ## The pass of retention -/

/-- `swept` counts the shortest prefix that is enough. -/
theorem Partition.enough_swept (now : ℤ) (hage : ByAge ss) :
    p.Enough now ss (swept p.policy now p.physicalSize (ss.map Segment.view)) ∧
      ∀ j < swept p.policy now p.physicalSize (ss.map Segment.view), ¬ p.Enough now ss j := by
  induction ss generalizing p with
  | nil => exact ⟨⟨fun _ s hs => absurd hs List.not_mem_nil, fun _ => Or.inr rfl⟩,
      fun j hj => absurd hj (Nat.not_lt_zero j)⟩
  | cons s ss ih =>
      rw [List.map_cons, swept]
      by_cases hout : p.outdated s now
      · rw [if_pos (show p.policy.Outdated now p.physicalSize s.view.2 from hout)]
        obtain ⟨henough, hleast⟩ := ih (p := { p with physicalSize := p.physicalSize - s.size })
          (List.pairwise_cons.mp hage).2
        refine ⟨enough_succ.mpr henough, fun j hj => ?_⟩
        cases j with
        | zero => exact not_enough_of_outdated hout
        | succ j => exact fun h => hleast j (Nat.lt_of_succ_lt_succ hj) (enough_succ.mp h)
      · rw [if_neg (show ¬ p.policy.Outdated now p.physicalSize s.view.2 from hout)]
        exact ⟨enough_of_not_outdated hage hout, fun j hj => absurd hj (Nat.not_lt_zero j)⟩

/-- A pass that deletes all it selects leaves what the log in cells keeps. -/
theorem Partition.older_cleaned (hage : ByAge p.older)
    (h : p.cleanOldSegments w = (.ok (), p', w')) :
    p'.older = p.older.drop (swept p.policy w.now p.physicalSize (p.older.map Segment.view)) := by
  rw [cleanOldSegments] at h
  obtain ⟨k, -, hpass, henough, hleast⟩ := cleanSegments_prefix (p := { p with older := [] }) hage rfl
    (congrArg Prod.fst h)
  obtain ⟨henough', hleast'⟩ := enough_swept (p := { p with older := [] }) w.now hage
  have hk : k = swept p.policy w.now p.physicalSize (p.older.map Segment.view) :=
    le_antisymm (not_lt.mp fun hlt => hleast _ hlt henough') (not_lt.mp fun hlt => hleast' _ hlt henough)
  rw [← hk, ← show _ = p'.older from congrArg (fun x => x.2.1.older) (hpass.symm.trans h)]

theorem policy_congr (h : p'.settings = p.settings) : p'.policy = p.policy := by
  rw [Partition.policy, Partition.policy, show p'.maxSegmentSize = p.maxSegmentSize from
    congrArg (fun x => x.2.1) h, show p'.maxPartitionSize = p.maxPartitionSize from
    congrArg (fun x => x.2.2.1) h, show p'.segmentTtl = p.segmentTtl from
    congrArg (fun x => x.2.2.2) h]

theorem Partition.Rep.byAge (hrep : Rep w dir p cs log) : ByAge p.older :=
  (List.pairwise_append.mp hrep.live.cached).1

/-! ## What the log in cells has in common with the partition -/

/-- The cells are the chunks, with the dates the segments keep. -/
structure Tracks (h : Host) (cs : List Chunk) (t : State Payload) : Prop where
  now : t.now = h.world.now
  files : t.cells.map (fun c => (c.base, c.items, c.modified)) =
    cs.map (fun c => (c.base, c.msgs, c.mtime))
  seen : t.cells.map Cell.seen = h.partition.segments.map Segment.mtime
  tallied : Tallied h.partition

theorem size_eq (c : Cell Payload) : c.size recordSize = Log.logSize c.items := by
  rw [Cell.size, ← weight_recordSize]
  rfl

namespace Tracks

theorem map_files {β : Type} (ht : Tracks h cs t) (f : ℕ × List Payload × ℤ → β) :
    t.cells.map (fun c => f (c.base, c.items, c.modified)) =
      cs.map (fun c => f (c.base, c.msgs, c.mtime)) := by
  have hf := congrArg (List.map f) ht.files
  rwa [List.map_map, List.map_map] at hf

theorem length_eq (ht : Tracks h cs t) : t.cells.length = cs.length := by
  have hlen := congrArg List.length ht.files
  rwa [List.length_map, List.length_map] at hlen

theorem split {init : List Chunk} (ht : Tracks h (init ++ [c]) t) :
    t.older.map (fun c => (c.base, c.items, c.modified)) =
      init.map (fun c => (c.base, c.msgs, c.mtime)) ∧
      (t.active.base, t.active.items, t.active.modified) = (c.base, c.msgs, c.mtime) := by
  have hf := ht.files
  rw [State.cells, List.map_append, List.map_append, List.map_singleton, List.map_singleton] at hf
  obtain ⟨hinit, hlast⟩ := List.append_inj' hf rfl
  exact ⟨hinit, List.singleton_inj.mp hlast⟩

theorem sizes (ht : Tracks h cs t) (hrep : Rep h.world dir h.partition cs log) :
    t.cells.map (Cell.size recordSize) = h.partition.segments.map Segment.size := by
  rw [map_size hrep.live.stands]
  have hf := ht.map_files (fun c => ((Log.logSize c.2.1 : ℕ) : ℤ))
  rw [show (fun c : Chunk => (c.size : ℤ)) = fun c => ((Log.logSize c.msgs : ℕ) : ℤ) from rfl, ← hf]
  exact List.map_congr_left fun c _ => size_eq c

theorem total (ht : Tracks h cs t) (hrep : Rep h.world dir h.partition cs log) :
    t.total recordSize = h.partition.physicalSize := by
  rw [State.total, ht.sizes hrep, ht.tallied.counted]
  rfl

theorem views (ht : Tracks h cs t) (hrep : Rep h.world dir h.partition cs log) :
    t.cells.map (Cell.view recordSize) = h.partition.segments.map Segment.view := by
  have hzip := congrArg₂ List.zip (ht.sizes hrep) ht.seen
  rwa [List.zip_map', List.zip_map'] at hzip

end Tracks

/-! ## Rolling -/

/-- What a roll makes of the segments that are not active. -/
theorem Partition.older_rolled {init : List Chunk} {s : Segment} (hw : w.Calm)
    (hrep : Rep w dir p (init ++ [c]) log) (hset : Settled (init ++ [c])) (hready : p.Ready)
    (hlog : log.length < 2 ^ 63) (hs : p.activeSegment = some s) (hfull : s.isFull)
    (h : p.roll s w = (.ok (), p', w')) :
    p'.older = p.segments.drop
      (swept p.policy w.now p.physicalSize (p.segments.map Segment.view)) := by
  obtain ⟨s', hs', -, hst⟩ := hrep.last
  obtain rfl : s = s' := by simpa [hs] using hs'
  have hne : c.msgs ≠ [] := by
    rw [ready_iff hrep, if_pos ((isFull_iff hst).mp hfull)] at hready
    exact hready
  obtain ⟨u, w₁, hopen, hrep₁, -, hw₁, hnow⟩ := roll_opens hw hrep hne (hset c (by simp)) hlog hs
  rw [roll, if_pos hfull, hopen] at h
  dsimp only at h
  rw [segments_eq hs]
  split_ifs at h with hretain
  · obtain ⟨k, size, w₂, hclean, -⟩ := cleanOldSegments_spec hw₁ hrep₁
    have holder := older_cleaned hrep₁.byAge hclean
    rw [hclean] at h
    cases h
    rw [hnow] at holder
    exact holder
  · rw [not_or, not_not, not_not] at hretain
    cases h
    rw [swept_idle hretain.1 hretain.2, List.drop_zero]

/-! ## One operation -/

namespace Tracks

/-- Where the partition stands, the log in cells has its next index. -/
theorem next_active (ht : Tracks h cs t) (hrep : Rep h.world dir h.partition cs log) :
    t.active.next = log.length := by
  obtain ⟨init, c, rfl⟩ := hrep.exists_last
  have hlast := hrep.live.represents.next_last
  obtain ⟨hbase, hitems⟩ := Prod.mk.inj ht.split.2
  rw [Cell.next, hbase, (Prod.mk.inj hitems).1]
  exact hlast

theorem size_active {init : List Chunk} (ht : Tracks h (init ++ [c]) t) :
    t.active.size recordSize = c.size := by
  obtain ⟨-, hitems⟩ := Prod.mk.inj ht.split.2
  rw [size_eq, (Prod.mk.inj hitems).1]
  rfl

theorem append {init : List Chunk} (ht : Tracks h (init ++ [c]) t)
    (hsize : c.size ≤ h.partition.maxSegmentSize) (htallied : Tallied h'.partition)
    (hnow : h'.world.now = h.world.now)
    (hmtimes : h'.partition.segments.map Segment.mtime = h.partition.segments.map Segment.mtime) :
    Tracks h' (init ++ [c.push m h.world.now]) (t.append recordSize h.partition.policy m).2 := by
  have hidle : t.roll recordSize h.partition.policy = t := by
    refine State.roll_idle ?_
    rw [ht.size_active]
    exact_mod_cast hsize
  obtain ⟨hinit, hlast⟩ := ht.split
  obtain ⟨hbase, hrest⟩ := Prod.mk.inj hlast
  obtain ⟨hitems, -⟩ := Prod.mk.inj hrest
  have hcells := State.cells_append recordSize h.partition.policy t m
  rw [hidle] at hcells
  refine ⟨?_, ?_, ?_, htallied⟩
  · rw [State.append, hidle, hnow]
    exact ht.now
  · rw [hcells, List.map_append, List.map_append, hinit, List.map_singleton, List.map_singleton,
      Cell.push, Chunk.push, hbase, hitems, ht.now]
  · rw [hcells, hmtimes, ← ht.seen, State.cells, List.map_append, List.map_append]
    rfl

theorem roll {n : ℤ} {next k : ℕ} (ht : Tracks h cs t) (hw : h.world.Calm)
    (hrep : Rep h.world dir h.partition cs log) (hset : Settled cs) (hready : h.partition.Ready)
    (hlog : log.length < 2 ^ 63) (hwrite : h.partition.write m h.world = (.ok n, h'.partition, h'.world))
    (hfull : ∀ s ∈ h.partition.activeSegment, s.isFull) (hk : k ≤ cs.length)
    (hrep' : Rep h'.world dir h'.partition
      (cs.drop k ++ [(emptyChunk next h.world.now).push m h.world.now]) (log ++ [m]))
    (hmtimes : h'.partition.segments.map Segment.mtime =
      (h.partition.segments.map Segment.mtime).drop k ++ [h.world.now])
    (htallied : Tallied h'.partition) (hnow : h'.world.now = h.world.now) :
    Tracks h' (cs.drop k ++ [(emptyChunk next h.world.now).push m h.world.now])
      (t.append recordSize h.partition.policy m).2 := by
  obtain ⟨init, c, rfl⟩ := hrep.exists_last
  obtain ⟨s, hs, -, hst⟩ := hrep.last
  have hsfull := hfull s hs
  have hlarge : h.partition.policy.maxCellSize < t.active.size recordSize := by
    rw [ht.size_active]
    exact (isFull_iff hst).mp hsfull
  -- both retentions count the same segments
  have hswept : swept h.partition.policy t.now
      (State.total recordSize { t with older := t.cells, active := .empty t.active.next t.now })
      (t.cells.map (Cell.view recordSize)) = k := by
    obtain ⟨s₀, p₁, w₁, s₁, s', hs₀, hroll, -, -, hp'⟩ := write_inv hwrite
    obtain rfl := Option.some.inj (hs.symm.trans hs₀)
    have holder := older_rolled hw hrep hset hready hlog hs hsfull hroll
    have htotal : State.total recordSize
        { t with older := t.cells, active := .empty t.active.next t.now } =
          h.partition.physicalSize := by
      rw [← ht.total hrep, State.total, State.total]
      simp [State.cells, Cell.size, Cell.empty]
    rw [htotal, ht.views hrep, ht.now]
    have hlen' := hrep'.live.stands.length_eq
    have hlen := hrep.live.stands.length_eq
    have hle := swept_le h.partition.policy h.world.now h.partition.physicalSize
      (h.partition.segments.map Segment.view)
    obtain ⟨u, hu⟩ := hrep'.active
    rw [segments_eq hu, show h'.partition.older = _ from (congrArg Partition.older hp').trans holder,
      List.length_append, List.length_append, List.length_drop, List.length_drop] at hlen'
    rw [List.length_map] at hle
    simp only [List.length_singleton] at hlen'
    omega
  have hcells : (t.append recordSize h.partition.policy m).2.cells =
      t.cells.drop k ++ [(Cell.empty t.active.next t.now).push m t.now] := by
    rw [State.cells_append, State.roll, if_pos hlarge, State.sweep]
    dsimp only
    rw [show t.older ++ [t.active] = t.cells from rfl, hswept]
  have hnext : next = log.length := by
    have hlast := hrep'.live.represents.next_last
    simpa [Blocks.next, Chunk.push, emptyChunk] using hlast
  refine ⟨?_, ?_, ?_, htallied⟩
  · rw [State.append, State.roll, if_pos hlarge, hnow]
    exact ht.now
  · rw [hcells, List.map_append, List.map_append, List.map_drop, List.map_drop, ht.files,
      ht.next_active hrep, hnext, ht.now]
    rfl
  · rw [hcells, hmtimes, ← ht.seen, List.map_append, List.map_drop, ht.now]
    rfl

end Tracks

/-- What opening makes of the segments that are not active. -/
theorem Partition.older_opened (hw : w.Calm) (hp : p.Fresh) (h0 : p.physicalSize = 0)
    (hstored : Stored w p.path dir cs log) (hset : Settled cs) (hlog : log.length < 2 ^ 63) :
    ∃ init s size, (init ++ [s]).map Segment.view = cs.map (fun c => ((c.size : ℤ), c.mtime)) ∧
      size = sizes (init ++ [s]) ∧
      (p.open w).2.1.older = init.drop (swept p.policy w.now size (init.map Segment.view)) := by
  obtain ⟨size, init, s, w₁, hsegs, hrep, hmtimes, hw₁, hnow⟩ :=
    openSegments_stored hw hp hstored.atDir hstored.toLaid hstored.files hset hlog
  have hcount := openSegments_counted hsegs
  rw [hp.older, h0, sizes_nil, add_zero, zero_add] at hcount
  have hsizes := map_size hrep.live.stands
  rw [segments_eq (p := { p with physicalSize := size, older := init, activeSegment := some s }) rfl]
    at hsizes
  refine ⟨init, s, size, ?_, hcount, ?_⟩
  · have hzip := congrArg₂ List.zip hsizes hmtimes
    rwa [List.zip_map', List.zip_map'] at hzip
  · rw [open_at hw hstored.atDir, openFiles_eq hsegs rfl]
    obtain ⟨k, size', w₂, hclean, -⟩ := cleanOldSegments_spec hw₁ hrep
    have holder := older_cleaned hrep.byAge hclean
    rw [hclean, ← hnow]
    exact holder

namespace Tracks

theorem restart {closing : Bool} {k : ℕ} (ht : Tracks h cs t) (hw : h.world.Calm)
    (hrep : Rep h.world dir h.partition cs log) (hset : Settled cs) (hlog : log.length < 2 ^ 63)
    (hrestart : h.restart closing = (.ok (), h'))
    (hre : Reopened h'.world dir h.partition h'.partition cs k h.world.now log) :
    Tracks h' (cs.drop k) (t.reopen recordSize h.partition.policy) := by
  obtain ⟨hstored, hw', hnow'⟩ := Host.leave_spec hw hrep closing
  obtain ⟨init, s, size, hviews, hsize, holder⟩ := older_opened
    (p := Partition.new h.partition.path h.partition.maxSegmentSize h.partition.maxPartitionSize
      h.partition.segmentTtl) hw' (Fresh.new _ _ _ _) rfl hstored hset hlog
  rw [show ((Partition.new h.partition.path h.partition.maxSegmentSize h.partition.maxPartitionSize
    h.partition.segmentTtl).open (h.leave closing)).2.1 = h'.partition from
      congrArg (fun x => x.2.partition) hrestart, hnow'] at holder
  -- the reopened cells have the sizes and dates of the segments that were opened
  have hcells : ({ t with older := t.older.map Cell.reopen, active := t.active.reopen } :
      State Payload).cells = t.cells.map Cell.reopen := by
    rw [State.cells, State.cells, List.map_append, List.map_singleton]
  have hreopened : (t.cells.map Cell.reopen).map (Cell.view recordSize) =
      (init ++ [s]).map Segment.view := by
    have hf := ht.map_files (fun c => (((Log.logSize c.2.1 : ℕ) : ℤ), c.2.2))
    rw [hviews, show (fun c : Chunk => ((c.size : ℤ), c.mtime)) =
      fun c => (((Log.logSize c.msgs : ℕ) : ℤ), c.mtime) from rfl, ← hf, List.map_map]
    refine List.map_congr_left fun c _ => ?_
    rw [Function.comp_apply, Cell.view, ← size_eq]
    rfl
  have hsplit : (t.older.map Cell.reopen).map (Cell.view recordSize) = init.map Segment.view := by
    rw [← hcells, State.cells, List.map_append, List.map_append, List.map_singleton,
      List.map_singleton] at hreopened
    exact (List.append_inj' hreopened rfl).1
  have htotal : State.total recordSize
      { t with older := t.older.map Cell.reopen, active := t.active.reopen } = size := by
    have hfst := congrArg (List.map Prod.fst) hreopened
    rw [List.map_map, List.map_map, List.map_map] at hfst
    rw [State.total, hcells, hsize, List.map_map]
    exact congrArg List.sum hfst
  have hswept : swept h.partition.policy h.world.now size (init.map Segment.view) = k := by
    have hle := swept_le h.partition.policy h.world.now size (init.map Segment.view)
    have hlen := congrArg List.length hviews
    have hlen' := hre.rep.live.stands.length_eq
    have hlt := hre.lt
    obtain ⟨u, hu⟩ := hre.rep.active
    rw [segments_eq hu, holder, List.length_append, List.length_drop, List.length_drop] at hlen'
    simp only [List.length_map, List.length_append, List.length_singleton] at hle hlen hlen'
    have hpol : (Partition.new h.partition.path h.partition.maxSegmentSize
        h.partition.maxPartitionSize h.partition.segmentTtl).policy = h.partition.policy := rfl
    rw [hpol] at hlen'
    omega
  have hdrop : (t.reopen recordSize h.partition.policy).cells = (t.cells.map Cell.reopen).drop k := by
    rw [State.reopen, State.cells_sweep, hcells, htotal, hsplit, ht.now, hswept]
  refine ⟨ht.now.trans hre.now_eq.symm, ?_, ?_, restart_tallied hw hrep hset hlog hrestart⟩
  · rw [hdrop, List.map_drop, List.map_drop, ← ht.files, List.map_map]
    rfl
  · have hmodified := ht.map_files (fun c => c.2.2)
    rw [hdrop, hre.mtimes, List.map_drop, List.map_drop, List.map_map]
    exact congrArg (List.drop k) hmodified

/-- Whatever a served operation does to the chunks, the log in cells does too. -/
theorem moved (hh : Holding dir h cs log) (hm : Moved dir h log cs op h' cs')
    (hh' : Holding dir h' cs' (log ++ writes [op])) (hpay : Payloads [op])
    (hroom : log.length + (writes [op]).length < 2 ^ 63) (ht : Tracks h cs t) :
    Tracks h' cs' (machine h.partition.policy t op).2 := by
  have hlog : log.length < 2 ^ 63 := (Nat.le_add_right _ _).trans_lt hroom
  cases hm with
  | tick seconds =>
      refine ⟨?_, ht.files, ht.seen, ht.tallied⟩
      show t.now + seconds = h.world.now + seconds
      rw [ht.now]
  | readAt o =>
      rw [machine]
      cases t.find o <;> exact ht
  | restart hrestart hre => exact ht.restart hh.calm hh.rep hh.settled hlog hrestart hre
  | @write m p' w' cs' hwrite hwr hsettings =>
      have hm : m.length < 2 ^ 31 := hpay m (by simp [writes])
      have hready := ready_of_ok hh.calm hh.rep hh.size_nonneg hh.size_lt hm hwrite
      have htallied := write_tallied hh.calm hh.rep hh.settled hready hlog hm ht.tallied hwrite
      obtain ⟨p'', w'', -, hwrite', -, -, -, -, hnow⟩ := write_ready hh.calm hh.rep hready
        (fun c hc _ => hh.settled c hc) hm hroom
      obtain ⟨-, rfl⟩ := Prod.mk.inj (Prod.mk.inj (hwrite.symm.trans hwrite')).2
      cases hwr with
      | append hsize _ _ hmtimes =>
          exact ht.append hsize htallied hnow hmtimes
      | @roll _ next k hfull hk hmtimes _ =>
          exact ht.roll hh.calm hh.rep hh.settled hready hlog hwrite hfull hk
            hh'.rep hmtimes htallied hnow

theorem find (ht : Tracks h cs t) (hrep : Rep h.world dir h.partition cs log) (o : ℤ) :
    RetainedLog.State.find ⟨log, firstBase cs⟩ o = (machine pol t (.readAt o)).1 := by
  have holdest : t.oldest = firstBase cs := by
    have hbases := ht.map_files Prod.fst
    rw [State.oldest, firstBase, ← List.head?_map, ← List.head?_map]
    exact congrArg (fun l => l.head?.getD 0) hbases
  have hitems : t.cells.flatMap Cell.items = cs.flatMap Chunk.msgs := by
    have hlists := ht.map_files (fun c => c.2.1)
    rw [List.flatMap_def, List.flatMap_def]
    exact congrArg List.flatten hlists
  obtain ⟨pre, hlog, hpre⟩ := hrep.live.represents.split
  have hfirst : firstBase cs = pre.length := by
    cases cs with
    | nil => exact absurd rfl hrep.live.represents.ne_nil
    | cons c cs => exact hpre c rfl
  rw [machine, State.find, holdest, hitems]
  by_cases hle : (firstBase cs : ℤ) ≤ o
  · have hget : log[o.toNat]? = (cs.flatMap Chunk.msgs)[(o - firstBase cs).toNat]? := by
      rw [hlog, List.getElem?_append_right (by omega)]
      congr 1
      omega
    rw [if_pos hle, ← hget, RetainedLog.State.find]
    cases log[o.toNat]? with
    | none => rfl
    | some m =>
        dsimp only
        rw [if_pos hle]
  · rw [if_neg hle, RetainedLog.find_absent (Or.inl (not_le.mp hle))]

/-- The message gets the next index, whether it goes to a new cell or not. -/
theorem index_append (ht : Tracks h cs t) (hrep : Rep h.world dir h.partition cs log)
    (pol : Policy) (m : Payload) : (t.append recordSize pol m).1 = log.length := by
  rw [State.append, State.next_roll]
  exact ht.next_active hrep

theorem answer (ht : Tracks h cs t) (hh : Holding dir h cs log)
    (hm : Moved dir h log cs op h' cs') :
    (Host.step h op).1.spec = (machine pol t op).1 := by
  cases hm with
  | tick seconds => rfl
  | readAt o =>
      have href : Refines dir h ⟨log, firstBase cs⟩ :=
        ⟨hh.calm, hh.size_nonneg, hh.size_lt, cs, hh.rep, hh.settled, hh.addressable, rfl⟩
      rw [(href.read o).2]
      exact ht.find hh.rep o
  | restart hrestart hre => simp only [Host.step, hrestart, PartitionAnswer.spec, machine]
  | @write m p' w' cs' hwrite hwr hsettings =>
      simp only [Host.step, hwrite, PartitionAnswer.spec, machine, ht.index_append hh.rep]

theorem boot {path : RawPath} {S M ttl : ℤ} (hv : Vacant w path dir)
    (hboot : Host.boot path S M ttl w = (.ok (), h))
    (hre : Reopened h.world dir (Partition.new path S M ttl) h.partition [emptyChunk 0 w.now] 0
      w.now []) : Tracks h [emptyChunk 0 w.now] (State.start w.now) where
  now := hre.now_eq.symm
  files := rfl
  seen := hre.mtimes.symm
  tallied := boot_tallied hv hboot

theorem run {ops : List PartitionOp} (ht : Tracks h cs t) (hh : Holding dir h cs log)
    (hpol : h.partition.policy = pol) (hpay : Payloads ops)
    (hcount : log.length + (writes ops).length < 2 ^ 63) (hack : Acknowledged (h.trace ops)) :
    (h.trace ops).map (fun e => e.2.spec) =
      (Runs.trace (machine pol) t ops).map Prod.snd ∧
    ∃ cs', Holding dir (h.final ops) cs' (log ++ writes ops) ∧
      Tracks (h.final ops) cs' (Runs.final (machine pol) t ops) := by
  induction ops generalizing h cs log t with
  | nil =>
      rw [writes, List.append_nil]
      exact ⟨rfl, cs, hh, ht⟩
  | cons op ops ih =>
      have hsplit : writes (op :: ops) = writes [op] ++ writes ops := writes_append [op] ops
      rw [hsplit, List.length_append] at hcount
      have hpay' : ∀ m ∈ writes [op] ++ writes ops, m.length < 2 ^ 31 := by
        rw [← hsplit]
        exact hpay
      have hpay₁ : Payloads [op] := fun m hm => hpay' m (List.mem_append_left _ hm)
      obtain ⟨cs₁, hmoved, hh₁⟩ := hh.step hpay₁ (by omega) (fun err => hack _ List.mem_cons_self err)
      have ht₁ := ht.moved hh hmoved hh₁ hpay₁ (by omega)
      rw [hpol] at ht₁
      obtain ⟨htrace, cs', hh', ht'⟩ := ih ht₁ hh₁ ((policy_congr hmoved.settings).trans hpol)
        (fun m hm => hpay' m (List.mem_append_right _ hm)) (by rw [List.length_append]; omega)
        (fun e he => hack e (List.mem_cons_of_mem _ he))
      rw [List.append_assoc, ← hsplit] at hh'
      refine ⟨?_, cs', hh', ht'⟩
      have hanswer : (Host.step h op).1.spec = (machine pol t op).1 := ht.answer hh hmoved
      rw [Runs.trace, List.map_cons, ← htrace, ← hanswer]
      rfl

end Tracks

/-- From an empty directory a partition runs as a log in cells: the answers of a run are the answers
of that log, and the segments with their sizes and dates, the files and the byte counter are the
cells that the operations leave. -/
theorem runs_as_cells {path : RawPath} {S M ttl : ℤ} {ops : List PartitionOp}
    (hv : Vacant w path dir) (h0 : 0 ≤ S) (h1 : S < 2 ^ 31) (hpay : Payloads ops)
    (hcount : (writes ops).length < 2 ^ 63)
    (hack : Acknowledged ((Host.boot path S M ttl w).2.trace ops)) :
    let h := (Host.boot path S M ttl w).2
    let t := Runs.final (machine ⟨S, M, ttl⟩) (State.start w.now) ops
    (h.trace ops).map (fun e => e.2.spec) =
      (Runs.trace (machine ⟨S, M, ttl⟩) (State.start w.now) ops).map Prod.snd ∧
    LaidOut (h.final ops) dir (t.cells.map fun c => (c.base, c.items)) ∧
    (h.final ops).partition.segments.map Segment.view = t.cells.map (Cell.view recordSize) ∧
    (h.final ops).partition.physicalSize = t.total recordSize := by
  obtain ⟨h, hboot, hre⟩ : ∃ h, Host.boot path S M ttl w = (.ok (), h) ∧ _ := Host.boot_spec hv
  have hset := hre.settings
  have hsize : h.partition.maxSegmentSize = S := maxSegmentSize_eq hset
  have hh : Holding dir h [emptyChunk 0 w.now] [] :=
    ⟨hre.calm, hre.rep, settled_empty _ _, addressable_empty _ _, hsize ▸ h0, hsize ▸ h1⟩
  have ht := Tracks.boot hv hboot hre
  rw [hboot] at hack ⊢
  obtain ⟨htrace, cs, hh', ht'⟩ := ht.run hh (policy_congr hset) hpay (by simpa using hcount) hack
  refine ⟨htrace, ?_, (ht'.views hh'.rep).symm, (ht'.total hh'.rep).symm⟩
  have hlaid := hh'.laidOut
  have hblocks := ht'.map_files (fun c => (c.1, c.2.1))
  rw [show cs.map Chunk.block = cs.map (fun c => (c.base, c.msgs)) from rfl, ← hblocks] at hlaid
  exact hlaid

theorem runs_as_cells_retention :
    let h := (Host.boot ⟨[], []⟩ 20 30 10 (World.blank 0)).2.final
      [.write [1], .tick 4, .write [2], .write [3], .tick 8, .restart true, .write [4],
        .write [5]]
    h.partition.segments.map Segment.view = [(26, 4), (13, 12)] ∧ h.partition.physicalSize = 39 := by
  have hv := Vacant.blank 0
  obtain ⟨h, hboot, hset, href⟩ : ∃ h, Host.boot ⟨[], []⟩ 20 30 10 (World.blank 0) = (.ok (), h) ∧ _ :=
    boot_refines hv (by decide) (by decide)
  have hpay : Payloads [.write [1], .tick 4, .write [2], .write [3], .tick 8, .restart true,
      .write [4], .write [5]] := by
    simp [Payloads, writes]
  have hack := acknowledged_of_small href
    (show h.partition.maxSegmentSize < 15728640 by
      rw [show h.partition.maxSegmentSize = 20 from congrArg (fun x => x.2.1) hset]
      decide) hpay (by decide)
  obtain ⟨-, -, hviews, htotal⟩ := runs_as_cells hv (show (0 : ℤ) ≤ 20 by decide) (by decide) hpay
    (by decide) (by rw [hboot]; exact hack)
  dsimp only at hviews htotal ⊢
  rw [hviews, htotal]
  decide

end MyKafka
