import MyKafka.PartitionClose
import MyKafka.Runs

/-!
# Runs of a partition

A host is a partition and the world it lives in. Time passes between operations, and a restart puts
a new object with the same parameters on the directory, whether or not the old one was closed. Each
operation has one lemma here that says what it does to the chunks and to the history.
-/

namespace MyKafka

open Posix LittleEndian

inductive PartitionOp where
  | tick (seconds : ℕ)
  | write (payload : Payload)
  | readAt (offset : ℤ)
  | restart (closing : Bool)

inductive PartitionAnswer where
  | ticked
  | wrote (res : Result ℤ)
  | read (res : Result Unit) (payload : Payload)
  | opened (res : Result Unit)

structure Host where
  partition : Partition
  world : World

namespace Host

def boot (path : RawPath) (maxSegmentSize maxPartitionSize segmentTtl : ℤ) (w : World) :
    Result Unit × Host :=
  match (Partition.new path maxSegmentSize maxPartitionSize segmentTtl).open w with
  | (res, p, w) => (res, ⟨p, w⟩)

/-- What the old object leaves: it is closed and destroyed, or it just disappears. -/
def leave (h : Host) (closing : Bool) : World :=
  if closing then
    match h.partition.close h.world with
    | (_, p, w) => p.destroy w
  else h.world

def restart (h : Host) (closing : Bool) : Result Unit × Host :=
  boot h.partition.path h.partition.maxSegmentSize h.partition.maxPartitionSize
    h.partition.segmentTtl (h.leave closing)

def step (h : Host) : PartitionOp → PartitionAnswer × Host
  | .tick seconds => (.ticked, { h with world := { h.world with now := h.world.now + seconds } })
  | .write payload =>
    match h.partition.write payload h.world with
    | (res, p, w) => (.wrote res, ⟨p, w⟩)
  | .readAt offset =>
    match h.partition.readAt offset h.world with
    | (res, payload, w) => (.read res payload, { h with world := w })
  | .restart closing =>
    match h.restart closing with
    | (res, h) => (.opened res, h)

abbrev final (h : Host) (ops : List PartitionOp) : Host := Runs.final step h ops

abbrev trace (h : Host) (ops : List PartitionOp) : List (PartitionOp × PartitionAnswer) :=
  Runs.trace step h ops

end Host

/-- The payloads that are written, in order. -/
def writes : List PartitionOp → List Payload
  | [] => []
  | .write m :: ops => m :: writes ops
  | .tick _ :: ops | .readAt _ :: ops | .restart _ :: ops => writes ops

@[simp] theorem writes_append (ops ops' : List PartitionOp) :
    writes (ops ++ ops') = writes ops ++ writes ops' := by
  induction ops with
  | nil => rfl
  | cons op ops ih => cases op <;> simp [writes, ih]

theorem writes_replicate (n : ℕ) (m : Payload) :
    writes (List.replicate n (.write m)) = List.replicate n m := by
  induction n with
  | zero => rfl
  | succ n ih => rw [List.replicate_succ, writes, ih, List.replicate_succ]

/-- Every payload has a length the interface can express. -/
def Payloads (ops : List PartitionOp) : Prop := ∀ m ∈ writes ops, m.length < 2 ^ 31

variable {w : World} {dir : Path} {p : Partition} {cs : List Chunk} {c : Chunk}
  {log : List Payload} {m : Payload}

/-- A directory with nothing in it, and calls that are served. -/
structure Vacant (w : World) (path : RawPath) (dir : Path) : Prop where
  calm : w.Calm
  atDir : FileSystem.At w.fs path dir
  empty : ∀ n, w.fs.node? (dir ++ [n]) = none

theorem Vacant.blank (now : ℤ) : Vacant (World.blank now) ⟨[], []⟩ [] where
  calm := rfl
  atDir := ⟨by simp, rfl, rfl, rfl⟩
  empty n := rfl

/-- No chunk has bytes after its records. -/
def Settled (cs : List Chunk) : Prop := ∀ c ∈ cs, c.junk = []

theorem settled_empty (base : ℕ) (mtime : ℤ) : Settled [emptyChunk base mtime] := by
  simp [Settled, emptyChunk]

namespace Partition

theorem addressable_empty (base : ℕ) (mtime : ℤ) : Addressable [emptyChunk base mtime] := by
  simpa [Addressable, emptyChunk] using Log.Addressable.nil

theorem Rep.tick (h : Rep w dir p cs log) (seconds : ℕ) :
    Rep { w with now := w.now + seconds } dir p cs log := by
  obtain ⟨hopened, hactive, ⟨⟨hrep, hquiet, hmtimes, hpast, honly⟩, hat, hstands, hcached⟩⟩ := h
  refine ⟨hopened, hactive, ⟨⟨hrep, hquiet, hmtimes, ?_, honly⟩, hat, hstands, hcached⟩⟩
  intro c hc
  have := hpast c hc
  show c.mtime ≤ w.now + seconds
  omega

/-- The next write can be served: a full active segment is not empty, so that the new one has other
names, and one that is not full takes another entry, whose position fits its field. -/
def Ready (p : Partition) : Prop :=
  ∀ s ∈ p.activeSegment,
    if s.isFull then s.nextOffset ≠ s.baseOffset
    else s.index.position < s.index.size ∧ s.position < 2 ^ 31

instance (p : Partition) : Decidable p.Ready :=
  inferInstanceAs (Decidable (∀ s ∈ p.activeSegment, if s.isFull then s.nextOffset ≠ s.baseOffset
    else s.index.position < s.index.size ∧ s.position < 2 ^ 31))

theorem ready_iff (h : Rep w dir p (cs ++ [c]) log) :
    p.Ready ↔ if p.maxSegmentSize < c.size then c.msgs ≠ []
      else c.msgs.length < 1310720 ∧ c.size < 2 ^ 31 := by
  obtain ⟨s, hs, -, hst⟩ := h.last
  obtain ⟨i, j, ho⟩ := hst.opened
  have hpos := ho.holds.position
  have hsize := ho.holds.size
  rw [Log.length_startsFrom] at hpos
  have hnext := ho.nextOffset
  have hbase := ho.baseOffset
  have hposition := ho.position
  have hmem : p.Ready ↔ if s.isFull then s.nextOffset ≠ s.baseOffset
      else s.index.position < s.index.size ∧ s.position < 2 ^ 31 := by
    unfold Ready
    rw [hs]
    simp
  rw [hmem]
  by_cases hfull : s.isFull
  · rw [if_pos hfull, if_pos ((isFull_iff hst).mp hfull), hnext, Segment.baseOffset, hbase,
      Chunk.next, ← List.length_pos_iff_ne_nil]
    omega
  · rw [if_neg hfull, if_neg (fun hlt => hfull ((isFull_iff hst).mpr hlt)), hpos, hsize, hposition]
    omega

/-- What a write that is served does to the chunks: it adds to the last one, or it starts a new one
behind it after which retention may drop some. -/
inductive Written (p : Partition) (now : ℤ) (m : Payload) (p' : Partition) :
    List Chunk → List Chunk → Prop
  | append {cs : List Chunk} {c : Chunk} (hsize : c.size ≤ p.maxSegmentSize)
      (hfits : c.size < 2 ^ 31) (hjunk : c.junk = [])
      (hmtimes : p'.segments.map Segment.mtime = p.segments.map Segment.mtime) :
      Written p now m p' (cs ++ [c]) (cs ++ [c.push m now])
  | roll {cs : List Chunk} {next k : ℕ} (hfull : ∀ s ∈ p.activeSegment, s.isFull)
      (hk : k ≤ cs.length)
      (hmtimes : p'.segments.map Segment.mtime = (p.segments.map Segment.mtime).drop k ++ [now])
      (hexpired : ∀ s ∈ p.segments.take k, p.Expired now s) :
      Written p now m p' cs (cs.drop k ++ [(emptyChunk next now).push m now])

theorem Rep.exists_last (h : Rep w dir p cs log) : ∃ init c, cs = init ++ [c] :=
  ⟨_, _, (List.dropLast_append_getLast h.live.represents.ne_nil).symm⟩

theorem write_ready (hw : w.Calm) (h : Rep w dir p cs log) (hready : p.Ready)
    (hjunk : ∀ c ∈ cs, p.maxSegmentSize < c.size → c.junk = []) (hm : m.length < 2 ^ 31)
    (hlog : log.length + 1 < 2 ^ 63) :
    ∃ p' w' cs', p.write m w = (.ok (log.length : ℤ), p', w') ∧
      Rep w' dir p' cs' (log ++ [m]) ∧ Written p w.now m p' cs cs' ∧ p'.settings = p.settings ∧
      w'.Calm ∧ w'.now = w.now := by
  obtain ⟨init, c, rfl⟩ := h.exists_last
  rw [ready_iff h] at hready
  split_ifs at hready with hfull
  · obtain ⟨k, p', w', hwrite, hk, hrep, hsettings, hmtimes, hexp, hw', hnow⟩ :=
      write_roll hw h hfull hready (hjunk c (by simp) hfull) hm hlog
    refine ⟨p', w', _, hwrite, hrep, .roll ?_ hk hmtimes hexp, hsettings, hw', hnow⟩
    obtain ⟨s, hs, -, hst⟩ := h.last
    rw [hs]
    intro t ht
    obtain rfl := Option.some.inj ht
    exact (isFull_iff hst).mpr hfull
  · obtain ⟨p', w', hwrite, hrep, hsettings, hmtimes, hw', hnow⟩ :=
      write_append hw h (not_lt.mp hfull) hready.1 hm hlog
    obtain ⟨s, -, -, hst⟩ := h.last
    obtain ⟨i, j, ho⟩ := hst.opened
    exact ⟨p', w', _, hwrite, hrep, .append (not_lt.mp hfull) hready.2
      (ho.junk.resolve_right hready.1.ne) hmtimes, hsettings, hw', hnow⟩

variable {p' : Partition} {now : ℤ} {cs' : List Chunk}

/-- A chunk of the partition is as it was, or has no bytes after its records. -/
theorem Written.junk (h : Written p now m p' cs cs') {d : Chunk} (hd : d ∈ cs') :
    d ∈ cs ∨ d.junk = [] := by
  cases h with
  | append _ _ hjunk =>
      rcases List.mem_append.mp hd with hd | hd
      · exact Or.inl (List.mem_append_left _ hd)
      · rw [List.mem_singleton.mp hd]
        exact Or.inr hjunk
  | roll =>
      rcases List.mem_append.mp hd with hd | hd
      · exact Or.inl (List.mem_of_mem_drop hd)
      · rw [List.mem_singleton.mp hd]
        exact Or.inr rfl

theorem Written.settled (h : Written p now m p' cs cs') (hset : Settled cs) : Settled cs' :=
  fun d hd => (h.junk hd).elim (hset d) id

theorem Written.addressable (h : Written p now m p' cs cs') (ha : Addressable cs) :
    Addressable cs' := by
  intro d hd
  cases h with
  | append hsize hfits =>
      rcases List.mem_append.mp hd with hd | hd
      · exact ha d (List.mem_append_left _ hd)
      · rw [List.mem_singleton.mp hd]
        exact (ha _ (by simp)).append hfits m
  | roll =>
      rcases List.mem_append.mp hd with hd | hd
      · exact ha d (List.mem_of_mem_drop hd)
      · rw [List.mem_singleton.mp hd]
        exact Log.Addressable.nil.append (by simp [Log.logSize]) m

/-- The first base offset, which is the oldest offset. -/
def firstBase (cs : List Chunk) : ℕ := (cs.head?.map Chunk.base).getD 0

theorem Rep.oldest (h : Rep w dir p cs log) : p.oldestOffset = firstBase cs := by
  cases cs with
  | nil => exact absurd rfl h.live.represents.ne_nil
  | cons c cs => exact oldestOffset_eq h

theorem Rep.firstBase_le (h : Rep w dir p cs log) : firstBase cs ≤ log.length := by
  cases cs with
  | nil => exact absurd rfl h.live.represents.ne_nil
  | cons c cs =>
      have := h.live.represents.next_le List.mem_cons_self
      unfold Blocks.next at this
      show c.base ≤ log.length
      omega

theorem firstBase_le_base (h : Blocks.Represents Chunk.base Chunk.msgs cs log) (hc : c ∈ cs) :
    firstBase cs ≤ c.base := by
  have hp := Blocks.pairwise_base h.chain
  cases cs with
  | nil => cases hc
  | cons d ds =>
      rcases List.mem_cons.mp hc with rfl | hc
      · exact le_rfl
      · exact ((List.pairwise_cons.mp hp).1 c hc).le

theorem firstBase_drop_le {k : ℕ} (h : Blocks.Represents Chunk.base Chunk.msgs cs log)
    (hk : k < cs.length) : firstBase cs ≤ firstBase (cs.drop k) := by
  rw [List.drop_eq_getElem_cons hk]
  exact firstBase_le_base h (List.getElem_mem hk)

/-- A write never lowers the oldest offset, and keeps its own message. -/
theorem Written.firstBase_le (h : Written p now m p' cs cs') (hrep : Rep w dir p cs log)
    {w' : World} (hrep' : Rep w' dir p' cs' (log ++ [m])) :
    firstBase cs ≤ firstBase cs' ∧ firstBase cs' ≤ log.length := by
  have hold := hrep.firstBase_le
  have hblocks := hrep.live.represents
  have hblocks' := hrep'.live.represents
  cases h with
  | @append init c =>
      have heq : firstBase (init ++ [c.push m now]) = firstBase (init ++ [c]) := by
        cases init <;> rfl
      rw [heq]
      exact ⟨le_rfl, hold⟩
  | @roll _ next k _ hk =>
      have hlast := hblocks'.next_last
      have hbase : ((emptyChunk next now).push m now).base = log.length := by
        simp only [Blocks.next, Chunk.push, emptyChunk, List.nil_append, List.length_singleton,
          List.length_append] at hlast ⊢
        omega
      refine ⟨?_, hbase ▸ firstBase_le_base hblocks' (by simp)⟩
      rcases Nat.lt_or_eq_of_le hk with hk | rfl
      · have hhead : firstBase (cs.drop k ++ [(emptyChunk next now).push m now]) =
            firstBase (cs.drop k) := by
          rw [List.drop_eq_getElem_cons hk]
          rfl
        rw [hhead]
        exact firstBase_drop_le hblocks hk
      · rw [List.drop_length, List.nil_append]
        exact hold.trans hbase.ge

theorem not_expired {p : Partition} (ht : p.segmentTtl = 0) (hm : p.maxPartitionSize = 0)
    (now : ℤ) (s : Segment) : ¬ p.Expired now s := by
  rw [Expired, ht, hm]
  simp

/-- Without retention no segment goes. -/
theorem Rep.idle_eq_zero (hrep : Rep w dir p cs log) (ht : p.segmentTtl = 0)
    (hm : p.maxPartitionSize = 0) {k : ℕ} (hk : k ≤ cs.length)
    (hexpired : ∀ s ∈ p.segments.take k, p.Expired now s) : k = 0 := by
  have hlen := hrep.live.stands.length_eq
  by_contra h0
  obtain ⟨s, hs⟩ := List.exists_mem_of_length_pos (l := p.segments.take k)
    (by rw [List.length_take]; omega)
  exact not_expired ht hm now s (hexpired s hs)

/-- Without retention a write drops nothing. -/
theorem Written.firstBase_eq (h : Written p now m p' cs cs') (hrep : Rep w dir p cs log)
    (ht : p.segmentTtl = 0) (hm : p.maxPartitionSize = 0) : firstBase cs' = firstBase cs := by
  have hpos := List.length_pos_of_ne_nil hrep.live.represents.ne_nil
  cases h with
  | @append init c => cases init <;> rfl
  | @roll _ _ k _ hk _ hexpired =>
      obtain rfl := hrep.idle_eq_zero ht hm hk hexpired
      cases cs with
      | nil => simp at hpos
      | cons c cs => rfl

/-! ## Restarts -/

end Partition

namespace Host

open MyKafka.Partition

/-- Both ways of leaving a partition keep what it stored. -/
theorem leave_spec {h : Host} (hw : h.world.Calm) (hrep : Rep h.world dir h.partition cs log)
    (closing : Bool) :
    Stored (h.leave closing) h.partition.path dir cs log ∧ (h.leave closing).Calm ∧
      (h.leave closing).now = h.world.now := by
  cases closing with
  | false => exact ⟨hrep.live.stored, hw, rfl⟩
  | true =>
      obtain ⟨p', w', hclose, hclosed, -, hstored, hw', hnow⟩ := close_spec hw hrep
      obtain ⟨p'', hagain, -⟩ := close_closed hclosed w'
      have hleave : h.leave true = w' := by
        rw [leave, if_pos rfl, hclose]
        dsimp only
        rw [destroy, hagain]
      rw [hleave]
      exact ⟨hstored, hw', hnow⟩

theorem restart_spec {h : Host} (hw : h.world.Calm) (hrep : Rep h.world dir h.partition cs log)
    (hset : Settled cs) (hlog : log.length < 2 ^ 63) (closing : Bool) :
    ∃ k h', h.restart closing = (.ok (), h') ∧
      Reopened h'.world dir h.partition h'.partition cs k h.world.now log := by
  obtain ⟨hstored, hw', hnow⟩ := leave_spec hw hrep closing
  obtain ⟨k, p', w', hopen, hre⟩ := open_stored (p := Partition.new h.partition.path
    h.partition.maxSegmentSize h.partition.maxPartitionSize h.partition.segmentTtl) hw'
    (Fresh.new _ _ _ _) hstored hset hlog
  refine ⟨k, ⟨p', w'⟩, ?_, hre.rep, hre.lt, hre.settings, hre.mtimes, ?_, hre.idle, hre.calm,
    hre.now_eq.trans hnow⟩
  · rw [restart, boot, hopen]
  · rw [← hnow]
    exact hre.expired

/-- The first start, on an empty directory. -/
theorem boot_spec {path : RawPath} {maxSegmentSize maxPartitionSize segmentTtl : ℤ}
    (hv : Vacant w path dir) :
    ∃ h, boot path maxSegmentSize maxPartitionSize segmentTtl w = (.ok (), h) ∧
      Reopened h.world dir (Partition.new path maxSegmentSize maxPartitionSize segmentTtl)
        h.partition [emptyChunk 0 w.now] 0 w.now [] := by
  obtain ⟨p', w', hopen, hre⟩ := openFiles_empty
    (p := Partition.new path maxSegmentSize maxPartitionSize segmentTtl) hv.calm
    (Fresh.new _ _ _ _) hv.atDir hv.empty
  refine ⟨⟨p', w'⟩, ?_, hre⟩
  rw [boot, open_at hv.calm hv.atDir, hopen]

end Host

end MyKafka
