import MyKafka.PartitionSize

/-!
# Partitions whose segments can all be read

A partition is whole when every segment it lists is open and serves its offsets, the readable
offsets are one range and the counter is the length of the log files. Deleting a segment closes it
first: one deletion that fails leaves a closed segment in the list.
-/

namespace MyKafka

open Posix MyKafka.Partition

/-- The descriptor for writing is one that the segment holds. -/
def Segment.IsOpen (s : Segment) : Prop := ∃ num i, s.fd = .live num i

/-- Every offset of the segment is read. -/
def Segment.Serves (s : Segment) (w : World) : Prop :=
  ∀ o, 0 ≤ o → o < s.nextOffset - s.baseOffset → ∃ m, s.readAt o w = (.ok (), m, w)

/-- The length of the log file of a segment; 0 when there is none. -/
def logLength (fs : FileSystem) (s : Segment) : ℤ :=
  match fs.fileAt s.filename with
  | some i => (fs.data i).image.size
  | none => 0

structure Partition.Whole (p : Partition) (w : World) : Prop where
  opened : ∀ s ∈ p.segments, s.IsOpen
  serves : ∀ s ∈ p.segments, s.Serves w
  range : ∀ o, (∃ m, p.readAt o w = (.ok (), m, w)) ↔ p.oldestOffset ≤ o ∧ o < p.newestOffset
  counted : p.physicalSize = (p.segments.map (logLength w.fs)).sum

/-- A write finds room. -/
def FindsRoom (h : Host) : PartitionOp → Prop
  | .write _ => h.partition.Ready
  | .tick _ | .readAt _ | .restart _ => True

instance (h : Host) : (op : PartitionOp) → Decidable (FindsRoom h op)
  | .write _ => inferInstanceAs (Decidable h.partition.Ready)
  | .tick _ | .readAt _ | .restart _ => isTrue trivial

variable {w w' : World} {dir : Path} {h : Host} {p p' : Partition} {cs : List Chunk} {c : Chunk}
  {log : List Payload} {op : PartitionOp} {s : Segment} {ss : List Segment} {res : Result Unit}

/-! ## Deletions that fail -/

theorem Stands.serves {path : RawPath} {maxSize : ℤ} (hw : w.Calm)
    (h : Stands w.fs path dir maxSize s c) (ha : Log.Addressable c.msgs) : s.Serves w := by
  obtain ⟨i, j, ho⟩ := h.opened
  intro o h0 hlt
  rw [ho.nextOffset, Segment.baseOffset, ho.baseOffset, Chunk.next] at hlt
  obtain ⟨k, rfl⟩ := Int.eq_ofNat_of_zero_le h0
  have hk : k < c.msgs.length := by omega
  exact ⟨_, Segment.readAt_ok hw ho (List.getElem?_eq_getElem hk) (ha k hk)⟩

theorem Stands.logLength {path : RawPath} {maxSize : ℤ} (hat : FileSystem.At w.fs path dir)
    (h : Stands w.fs path dir maxSize s c) (hjunk : c.junk = []) :
    logLength w.fs s = s.size := by
  obtain ⟨i, j, ho⟩ := h.opened
  have hfile : w.fs.fileAt s.filename = some i := by
    rw [ho.filename, getLogFilename_eq]
    exact FileSystem.fileAt_eq (hat.child (plain_logName _)) ho.log
  have hsize : (w.fs.data i).image.size = c.size := by
    rw [← Image.length_toList, ho.bytes, hjunk, List.append_nil, Log.length_encode]
    rfl
  rw [MyKafka.logLength, hfile, Segment.size, ho.physicalSize]
  dsimp only
  rw [hsize]

theorem Partition.Rep.whole (hw : w.Calm) (h : Rep w dir p cs log) (hset : Settled cs)
    (ha : Addressable cs) (hcounted : p.physicalSize = sizes p.segments) : p.Whole w where
  opened s hs := by
    obtain ⟨c, -, hst⟩ := forall₂_mem h.live.stands hs
    obtain ⟨i, j, ho⟩ := hst.opened
    obtain ⟨num, hfd⟩ := ho.fd
    exact ⟨num, i, hfd⟩
  serves s hs := by
    obtain ⟨c, hc, hst⟩ := forall₂_mem h.live.stands hs
    exact hst.serves hw (ha c hc)
  range o := by
    have hold := h.oldest
    rw [newestOffset_eq h]
    constructor
    · rintro ⟨m, hread⟩
      by_contra hout
      obtain ⟨e, herr⟩ := readAt_error (p := p) h (o := o) (by omega)
      rw [herr] at hread
      cases hread
    · rintro ⟨hle, hlt⟩
      obtain ⟨k, rfl⟩ := Int.eq_ofNat_of_zero_le (show 0 ≤ o by omega)
      exact ⟨_, readAt_ok hw h ha (List.getElem?_eq_getElem (by omega)) hle⟩
  counted := by
    rw [hcounted, sizes]
    congr 1
    apply List.map_congr_left
    intro s hs
    obtain ⟨c, hc, hst⟩ := forall₂_mem h.live.stands hs
    exact (hst.logLength h.live.atDir (hset c hc)).symm

/-! ## Runs -/

/-- A host of a run, with the chunks of its directory. -/
structure Sound (dir : Path) (h : Host) (cs : List Chunk) (log : List Payload) : Prop where
  calm : h.world.Calm
  rep : Rep h.world dir h.partition cs log
  settled : Settled cs
  addressable : Addressable cs
  tallied : Tallied h.partition

theorem Sound.step (hs : Sound dir h cs log) (hpay : Payloads [op])
    (hlog : log.length + (writes [op]).length < 2 ^ 63) (hroom : FindsRoom h op) : ∃ cs', Sound dir (Host.step h op).2 cs' (log ++ writes [op]) := by
  obtain ⟨hw, hrep, hset, haddr, htally⟩ := hs
  cases op with
  | tick seconds =>
      rw [writes, writes, List.append_nil]
      exact ⟨cs, hw, hrep.tick seconds, hset, haddr, htally⟩
  | write m =>
      have hm : m.length < 2 ^ 31 := hpay m (by simp [writes])
      have hready : h.partition.Ready := hroom
      obtain ⟨p', w', cs', hwrite, hrep', hwr, -, hw', -⟩ :=
        write_ready hw hrep hready (fun c hc _ => hset c hc) hm hlog
      have hstep : (Host.step h (.write m)).2 = ⟨p', w'⟩ := by simp only [Host.step, hwrite]
      rw [hstep]
      exact ⟨cs', hw', hrep', hwr.settled hset, hwr.addressable haddr,
        write_tallied hw hrep hset hready (Nat.lt_of_succ_lt hlog) hm htally hwrite⟩
  | readAt o =>
      have hstep : (Host.step h (.readAt o)).2 = h := by
        simp only [Host.step, h.partition.readAt_calm hw o]
      rw [hstep, writes, writes, List.append_nil]
      exact ⟨cs, hw, hrep, hset, haddr, htally⟩
  | restart closing =>
      obtain ⟨k, h', hrestart, hre⟩ := Host.restart_spec hw hrep hset hlog closing
      have hstep : (Host.step h (.restart closing)).2 = h' := by simp only [Host.step, hrestart]
      rw [hstep, writes, writes, List.append_nil]
      exact ⟨cs.drop k, hre.calm, hre.rep, fun c hc => hset c (List.mem_of_mem_drop hc),
        fun c hc => haddr c (List.mem_of_mem_drop hc),
        restart_tallied hw hrep hset hlog hrestart⟩

theorem Sound.run {ops : List PartitionOp} (hs : Sound dir h cs log) (hpay : Payloads ops)
    (hcount : log.length + (writes ops).length < 2 ^ 63)
    (hroom : Runs.Always Host.step FindsRoom h ops) :
    ∃ cs', Sound dir (h.final ops) cs' (log ++ writes ops) := by
  induction ops generalizing h cs log with
  | nil =>
      rw [writes, List.append_nil]
      exact ⟨cs, hs⟩
  | cons op ops ih =>
      have hsplit : writes (op :: ops) = writes [op] ++ writes ops := writes_append [op] ops
      rw [hsplit, List.length_append] at hcount
      rw [Payloads, hsplit, List.forall_mem_append] at hpay
      obtain ⟨cs₁, hs₁⟩ := hs.step hpay.1 (by omega) hroom.1
      obtain ⟨cs', hs'⟩ := ih hs₁ hpay.2 (by rw [List.length_append]; omega) hroom.2
      rw [List.append_assoc, ← hsplit] at hs'
      exact ⟨cs', hs'⟩

end MyKafka
