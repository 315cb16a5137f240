import MyKafka.PartitionRun
import MyKafka.RetainedLog

/-!
# A partition refines a log that may lose a prefix

Every run of a partition whose writes are acknowledged is a trace of the abstract log: writes append
and answer with the next index, reads look entries up, time and restarts may shed a prefix.
-/

namespace MyKafka

open Posix MyKafka.Partition

def PartitionOp.spec : PartitionOp → RetainedLog.Op Payload
  | .tick _ => .rest
  | .write m => .append m
  | .readAt o => .lookup o
  | .restart _ => .rest

def PartitionAnswer.spec : PartitionAnswer → RetainedLog.Answer Payload
  | .ticked => .done
  | .wrote (.ok n) => .index n
  | .wrote (.error _) => .refused
  | .read (.ok _) m => .entry m
  | .read (.error _) _ => .absent
  | .opened (.ok _) => .done
  | .opened (.error _) => .refused

/-- The steps of the abstract log under the names of the partition. -/
def LogNext (t : RetainedLog.State Payload) (op : PartitionOp) (a : PartitionAnswer)
    (t' : RetainedLog.State Payload) : Prop := RetainedLog.Next t op.spec a.spec t'

/-- What the writes of a run were answered. -/
def acks : List (PartitionOp × PartitionAnswer) → List (Result ℤ)
  | [] => []
  | (_, .wrote res) :: es => res :: acks es
  | (_, .ticked) :: es | (_, .read _ _) :: es | (_, .opened _) :: es => acks es

/-- No answer is a failed write. -/
def Acknowledged (es : List (PartitionOp × PartitionAnswer)) : Prop :=
  ∀ e ∈ es, ∀ err, e.2 ≠ .wrote (.error err)

/-- No answer is a failed start. -/
def Reopens (es : List (PartitionOp × PartitionAnswer)) : Prop :=
  ∀ e ∈ es, ∀ err, e.2 ≠ .opened (.error err)

/-- The partition stands for the abstract log, at a segment size whose records can be addressed. -/
structure Refines (dir : Path) (h : Host) (t : RetainedLog.State Payload) : Prop where
  calm : h.world.Calm
  size_nonneg : 0 ≤ h.partition.maxSegmentSize
  size_lt : h.partition.maxSegmentSize < 2 ^ 31
  chunks : ∃ cs, Rep h.world dir h.partition cs t.log ∧ Settled cs ∧ Addressable cs ∧
    t.oldest = firstBase cs

/-- The steps to come are of a run that the abstract log accounts for. -/
structure Admissible (t : RetainedLog.State Payload)
    (es : List (PartitionOp × PartitionAnswer)) : Prop where
  payloads : Payloads (es.map Prod.fst)
  count : t.log.length + (writes (es.map Prod.fst)).length < 2 ^ 63
  acknowledged : Acknowledged es

variable {w : World} {dir : Path} {h : Host} {t : RetainedLog.State Payload}

/-- A write that is acknowledged found the partition ready. -/
theorem ready_of_ok {p p' : Partition} {w' : World} {cs : List Chunk} {log : List Payload}
    {m : Payload} {n : ℤ} (hw : w.Calm) (hrep : Rep w dir p cs log) (h0 : 0 ≤ p.maxSegmentSize)
    (h1 : p.maxSegmentSize < 2 ^ 31) (hm : m.length < 2 ^ 31)
    (hok : p.write m w = (.ok n, p', w')) : p.Ready := by
  obtain ⟨init, c, rfl⟩ := hrep.exists_last
  rw [ready_iff hrep]
  obtain ⟨s, hs, -, hst⟩ := hrep.last
  obtain ⟨i, j, ho⟩ := hst.opened
  have hroom := ho.fits.room
  split_ifs with hfull
  · rintro hnil
    rw [Chunk.size, hnil, Log.logSize] at hfull
    omega
  · refine ⟨lt_of_le_of_ne hroom ?_, by omega⟩
    intro hwedged
    obtain ⟨e, p'', w'', c', hwrite, -⟩ := write_wedged hw hrep (not_lt.mp hfull) hwedged hm
    rw [hwrite] at hok
    cases hok

/-- A full index takes more bytes of records than a small segment may have. -/
theorem ready_of_small {p : Partition} {cs : List Chunk} {log : List Payload}
    (hrep : Rep w dir p cs log) (h0 : 0 ≤ p.maxSegmentSize)
    (h1 : p.maxSegmentSize < 15728640) : p.Ready := by
  obtain ⟨init, c, rfl⟩ := hrep.exists_last
  have hge := Log.logSize_ge c.msgs
  rw [ready_iff hrep]
  split_ifs with hfull
  · rintro hnil
    rw [Chunk.size, hnil, Log.logSize] at hfull
    omega
  · rw [Chunk.size] at hfull ⊢
    omega

theorem Refines.read (href : Refines dir h t) (o : ℤ) :
    (Host.step h (.readAt o)).2 = h ∧
      (PartitionAnswer.spec (Host.step h (.readAt o)).1) = t.find o := by
  obtain ⟨cs, hrep, -, haddr, hold⟩ := href.chunks
  have hoff := hrep.oldest
  by_cases hin : (firstBase cs : ℤ) ≤ o ∧ o < t.log.length
  · obtain ⟨n, rfl⟩ : ∃ n : ℕ, o = n := ⟨_, (Int.toNat_of_nonneg (by omega)).symm⟩
    obtain ⟨m, hn⟩ : ∃ m, t.log[n]? = some m := ⟨_, List.getElem?_eq_getElem (by omega)⟩
    have hread := readAt_ok href.calm hrep haddr hn (by omega)
    rw [RetainedLog.find_entry hn (by omega)]
    simp only [Host.step, hread]
    exact ⟨trivial, rfl⟩
  · obtain ⟨e, hread⟩ := readAt_error (w := h.world) hrep (o := o) (by omega)
    rw [RetainedLog.find_absent (by omega)]
    simp only [Host.step, hread]
    exact ⟨trivial, rfl⟩

theorem maxSegmentSize_eq {p p' : Partition} (hs : p'.settings = p.settings) :
    p'.maxSegmentSize = p.maxSegmentSize := congrArg (fun x => x.2.1) hs

theorem Refines.tick (href : Refines dir h t) (seconds : ℕ) :
    Refines dir (Host.step h (.tick seconds)).2 t := by
  obtain ⟨cs, hrep, hset, haddr, hold⟩ := href.chunks
  exact ⟨href.calm, href.size_nonneg, href.size_lt, cs, hrep.tick seconds, hset, haddr, hold⟩

theorem Refines.write (href : Refines dir h t) (hready : h.partition.Ready) {m : Payload}
    (hm : m.length < 2 ^ 31) (hlog : t.log.length + 1 < 2 ^ 63) :
    ∃ p' w' n, Host.step h (.write m) = (.wrote (.ok (t.log.length : ℤ)), ⟨p', w'⟩) ∧
      t.oldest ≤ n ∧ n ≤ t.log.length ∧ p'.settings = h.partition.settings ∧
      Refines dir ⟨p', w'⟩ ⟨t.log ++ [m], n⟩ := by
  obtain ⟨cs, hrep, hset, haddr, hold⟩ := href.chunks
  obtain ⟨p', w', cs', hwrite, hrep', hwr, hsettings, hw', -⟩ :=
    write_ready href.calm hrep hready (fun c hc _ => hset c hc) hm hlog
  obtain ⟨hle, hlen⟩ := hwr.firstBase_le hrep hrep'
  have hsize := maxSegmentSize_eq hsettings
  refine ⟨p', w', firstBase cs', ?_, hold.trans_le hle, hlen, hsettings, hw', ?_, ?_, cs', hrep',
    hwr.settled hset, hwr.addressable haddr, rfl⟩
  · simp only [Host.step, hwrite]
  · exact hsize ▸ href.size_nonneg
  · exact hsize ▸ href.size_lt

theorem Refines.ready_of_ok (href : Refines dir h t) {m : Payload} (hm : m.length < 2 ^ 31)
    (hok : ∀ err, (Host.step h (.write m)).1 ≠ .wrote (.error err)) : h.partition.Ready := by
  obtain ⟨cs, hrep, -, -, -⟩ := href.chunks
  cases hwrite : h.partition.write m h.world with
  | mk res rest =>
      cases res with
      | ok n => exact MyKafka.ready_of_ok href.calm hrep href.size_nonneg href.size_lt hm hwrite
      | error err =>
          simp only [Host.step, hwrite] at hok
          exact absurd rfl (hok err)

theorem Refines.restart (href : Refines dir h t) (hlog : t.log.length < 2 ^ 63) (closing : Bool) :
    ∃ h' n, Host.step h (.restart closing) = (.opened (.ok ()), h') ∧ t.oldest ≤ n ∧
      n ≤ t.log.length ∧ h'.partition.settings = h.partition.settings ∧
      Refines dir h' ⟨t.log, n⟩ := by
  obtain ⟨cs, hrep, hset, haddr, hold⟩ := href.chunks
  obtain ⟨k, h', hrestart, hre⟩ := Host.restart_spec href.calm hrep hset hlog closing
  have hle := firstBase_drop_le hrep.live.represents hre.lt
  have hsize := maxSegmentSize_eq hre.settings
  refine ⟨h', firstBase (cs.drop k), ?_, hold.trans_le hle, hre.rep.firstBase_le, hre.settings,
    hre.calm, ?_, ?_, cs.drop k, hre.rep, fun c hc => hset c (List.mem_of_mem_drop hc),
    fun c hc => haddr c (List.mem_of_mem_drop hc), rfl⟩
  · simp only [Host.step, hrestart]
  · exact hsize ▸ href.size_nonneg
  · exact hsize ▸ href.size_lt

theorem simulates (dir : Path) : Runs.Simulates Host.step LogNext Admissible (Refines dir) := by
  intro h t op es href hadm
  obtain ⟨hpay, hcount, hack⟩ := hadm
  have hack' : Acknowledged es := fun e he => hack e (List.mem_cons_of_mem _ he)
  have hlog : t.log.length < 2 ^ 63 := by omega
  cases op with
  | tick seconds =>
      obtain ⟨cs, hrep, -, -, hold⟩ := href.chunks
      exact ⟨t, .rest le_rfl (hold.trans_le hrep.firstBase_le), href.tick seconds, hpay, hcount,
        hack'⟩
  | write m =>
      have hm : m.length < 2 ^ 31 := hpay m (by simp [writes])
      rw [List.map_cons, writes, List.length_cons] at hcount
      have hready := href.ready_of_ok hm (fun err => hack _ List.mem_cons_self err)
      obtain ⟨p', w', n, hstep, hle, hn, -, href'⟩ := href.write hready hm (by omega)
      rw [hstep]
      refine ⟨⟨t.log ++ [m], n⟩, .append m hle hn, href',
        fun m' hm' => hpay m' (List.mem_cons_of_mem m hm'), ?_, hack'⟩
      rw [List.length_append, List.length_singleton]
      omega
  | readAt o =>
      obtain ⟨hsame, hfind⟩ := href.read o
      refine ⟨t, ?_, by rwa [hsame], hpay, hcount, hack'⟩
      rw [LogNext, hfind]
      exact .lookup t o
  | restart closing =>
      obtain ⟨h', n, hstep, hle, hn, -, href'⟩ := href.restart hlog closing
      rw [hstep]
      exact ⟨⟨t.log, n⟩, .rest hle hn, href', hpay, hcount, hack'⟩

/-! ## What a run shows -/

/-- What a client sees of a partition that was written `msgs`. -/
structure Shows (h : Host) (msgs : List Payload) : Prop where
  newest : h.partition.newestOffset = msgs.length
  found : ∀ o : ℤ, (h.partition.readAt o h.world).1 = .ok () ↔
    h.partition.oldestOffset ≤ o ∧ o < h.partition.newestOffset
  payload : ∀ o : ℤ, (h.partition.readAt o h.world).1 = .ok () →
    msgs[o.toNat]? = some (h.partition.readAt o h.world).2.1

theorem Refines.shows (href : Refines dir h t) : Shows h t.log := by
  obtain ⟨cs, hrep, -, haddr, -⟩ := href.chunks
  have hnew := newestOffset_eq hrep
  have hold : 0 ≤ h.partition.oldestOffset := by
    rw [hrep.oldest]
    omega
  have hread : ∀ o : ℤ, h.partition.oldestOffset ≤ o ∧ o < h.partition.newestOffset →
      ∃ m, t.log[o.toNat]? = some m ∧ h.partition.readAt o h.world = (.ok (), m, h.world) := by
    rintro o ⟨h0, h1⟩
    obtain ⟨n, rfl⟩ : ∃ n : ℕ, o = n := ⟨_, (Int.toNat_of_nonneg (hold.trans h0)).symm⟩
    obtain ⟨m, hn⟩ : ∃ m, t.log[n]? = some m := ⟨_, List.getElem?_eq_getElem (by omega)⟩
    exact ⟨_, hn, readAt_ok href.calm hrep haddr hn h0⟩
  have hlost : ∀ o : ℤ, ¬ (h.partition.oldestOffset ≤ o ∧ o < h.partition.newestOffset) →
      (h.partition.readAt o h.world).1 ≠ .ok () := by
    intro o ho
    obtain ⟨e, he⟩ := readAt_error (w := h.world) hrep (o := o) (by omega)
    rw [he]
    simp
  refine ⟨hnew, fun o => ⟨?_, ?_⟩, ?_⟩
  · intro hok
    by_contra hno
    exact hlost o hno hok
  · intro hin
    obtain ⟨m, -, hm⟩ := hread o hin
    rw [hm]
  · intro o hok
    by_cases hin : h.partition.oldestOffset ≤ o ∧ o < h.partition.newestOffset
    · obtain ⟨m, hn, hm⟩ := hread o hin
      rw [hm, hn]
    · exact absurd hok (hlost o hin)

/-- A log trace over the names of the partition, seen by the abstract log. -/
def specs (es : List (PartitionOp × PartitionAnswer)) :
    List (RetainedLog.Op Payload × RetainedLog.Answer Payload) :=
  es.map (fun e => (e.1.spec, e.2.spec))

theorem appended_specs (es : List (PartitionOp × PartitionAnswer)) :
    RetainedLog.appended (specs es) = writes (es.map Prod.fst) := by
  induction es with
  | nil => rfl
  | cons e es ih =>
      obtain ⟨op, a⟩ := e
      cases op <;> simpa [specs, RetainedLog.appended, writes, PartitionOp.spec] using ih

theorem spec_eq_index {a : PartitionAnswer} {n : ℤ} (ha : a.spec = .index n) :
    a = .wrote (.ok n) := by
  cases a with
  | wrote res =>
      cases res with
      | ok k =>
          obtain rfl : k = n := RetainedLog.Answer.index.inj ha
          rfl
      | error err => cases ha
  | ticked => cases ha
  | read res m => cases res <;> cases ha
  | opened res => cases res <;> cases ha

theorem acks_cons {op : PartitionOp} {a : PartitionAnswer}
    {es : List (PartitionOp × PartitionAnswer)} (ha : ∀ n, a.spec ≠ .index n)
    (hr : a.spec ≠ .refused) : acks ((op, a) :: es) = acks es := by
  cases a with
  | wrote res =>
      cases res with
      | ok n => exact absurd rfl (ha n)
      | error err => exact absurd rfl hr
  | ticked => rfl
  | read res m => rfl
  | opened res => rfl

theorem acks_eq {t' : RetainedLog.State Payload} {es : List (PartitionOp × PartitionAnswer)}
    (htr : Runs.Trace LogNext t es t') :
    acks es = (List.range' t.log.length (writes (es.map Prod.fst)).length).map
      (fun n => .ok (n : ℤ)) := by
  induction htr with
  | nil => rfl
  | @cons t _ _ op a es hn _ ih =>
      unfold LogNext at hn
      generalize hr : a.spec = r at hn
      cases op with
      | write m =>
          cases hn with
          | append =>
              rw [spec_eq_index hr, acks, ih, List.map_cons, writes, List.length_cons,
                List.range'_succ, List.map_cons, List.length_append, List.length_singleton]
      | readAt o =>
          cases hn with
          | lookup =>
              have hne : ∀ n, a.spec ≠ .index n := by
                intro n
                rw [hr]
                rcases RetainedLog.find_cases t o with hf | ⟨m, hf⟩ <;> simp [hf]
              rw [acks_cons hne (hr ▸ (RetainedLog.Next.lookup t o).ne_refused), ih, List.map_cons,
                writes]
      | tick seconds =>
          cases hn with
          | rest => rw [acks_cons (by simp [hr]) (by simp [hr]), ih, List.map_cons, writes]
      | restart closing =>
          cases hn with
          | rest => rw [acks_cons (by simp [hr]) (by simp [hr]), ih, List.map_cons, writes]

theorem reopens {t' : RetainedLog.State Payload} {es : List (PartitionOp × PartitionAnswer)}
    (htr : Runs.Trace LogNext t es t') : Reopens es := by
  intro e he err heq
  induction htr with
  | nil => cases he
  | @cons t _ _ op a es hn _ ih =>
      rcases List.mem_cons.mp he with rfl | he
      · have hrefused := hn.ne_refused
        rw [show a = .opened (.error err) from heq] at hrefused
        exact hrefused rfl
      · exact ih he

theorem boot_refines {path : RawPath} {maxSegmentSize maxPartitionSize segmentTtl : ℤ}
    (hv : Vacant w path dir) (h0 : 0 ≤ maxSegmentSize) (h1 : maxSegmentSize < 2 ^ 31) :
    ∃ h, Host.boot path maxSegmentSize maxPartitionSize segmentTtl w = (.ok (), h) ∧
      h.partition.settings = (path, maxSegmentSize, maxPartitionSize, segmentTtl) ∧
      Refines dir h ⟨[], 0⟩ := by
  obtain ⟨h, hboot, hre⟩ := Host.boot_spec
    hv
  have hsize := maxSegmentSize_eq hre.settings
  refine ⟨h, hboot, hre.settings, hre.calm, hsize ▸ h0, hsize ▸ h1, _, hre.rep,
    settled_empty _ _, addressable_empty _ _, rfl⟩

/-- With a segment size at which no index fills up, every write is acknowledged. -/
theorem acknowledged_of_small {ops : List PartitionOp} : ∀ {h : Host}
    {t : RetainedLog.State Payload}, Refines dir h t → h.partition.maxSegmentSize < 15728640 →
    Payloads ops → t.log.length + (writes ops).length < 2 ^ 63 → Acknowledged (h.trace ops) := by
  induction ops with
  | nil =>
      intro h t _ _ _ _ e he
      cases he
  | cons op ops ih =>
      intro h t href hsmall hpay hcount e he err
      rw [Host.trace, Runs.trace] at he
      cases op with
      | tick seconds =>
          rcases List.mem_cons.mp he with rfl | he
          · simp [Host.step]
          · exact ih (href.tick seconds) hsmall hpay hcount e he err
      | write m =>
          rw [writes, List.length_cons] at hcount
          obtain ⟨cs, hrep, -, -, -⟩ := href.chunks
          obtain ⟨p', w', n, hstep, -, -, hset, href'⟩ := href.write
            (ready_of_small hrep href.size_nonneg hsmall) (hpay m (by simp [writes])) (by omega)
          rw [hstep] at he
          rcases List.mem_cons.mp he with rfl | he
          · simp
          · refine ih href' (maxSegmentSize_eq hset ▸ hsmall)
              (fun m' hm' => hpay m' (List.mem_cons_of_mem m hm')) ?_ e he err
            rw [List.length_append, List.length_singleton]
            omega
      | readAt o =>
          obtain ⟨hsame, -⟩ := href.read o
          rw [hsame] at he
          rcases List.mem_cons.mp he with rfl | he
          · simp [Host.step]
          · exact ih href hsmall hpay hcount e he err
      | restart closing =>
          rw [writes] at hcount
          obtain ⟨h', n, hstep, -, -, hset, href'⟩ := href.restart (by omega) closing
          rw [hstep] at he
          rcases List.mem_cons.mp he with rfl | he
          · simp
          · exact ih href' (maxSegmentSize_eq hset ▸ hsmall) hpay hcount e he err

theorem Refines.oldest (href : Refines dir h t) : h.partition.oldestOffset = t.oldest := by
  obtain ⟨cs, hrep, -, -, hold⟩ := href.chunks
  rw [hrep.oldest, hold]

theorem Refines.run (href : Refines dir h t) {ops : List PartitionOp} (hpay : Payloads ops)
    (hcount : t.log.length + (writes ops).length < 2 ^ 63) (hack : Acknowledged (h.trace ops)) :
    ∃ t', Runs.Trace LogNext t (h.trace ops) t' ∧ t'.log = t.log ++ writes ops ∧
      t.oldest ≤ t'.oldest ∧ Refines dir (h.final ops) t' := by
  have hops : (h.trace ops).map Prod.fst = ops := Runs.map_fst_trace _ _
  obtain ⟨t', htr, href', -⟩ := (simulates dir).trace href
    ⟨by rwa [hops], by rwa [hops], hack⟩
  have hspec : Runs.Trace RetainedLog.Next t (specs (h.trace ops)) t' :=
    Runs.Trace.map (f := PartitionOp.spec) (g := PartitionAnswer.spec) htr
  refine ⟨t', htr, ?_, RetainedLog.oldest_le hspec, href'⟩
  rw [RetainedLog.log_eq hspec, appended_specs, hops]

/-- From an empty directory a partition refines the abstract log over every run whose writes are
acknowledged, and shows its clients what that log holds. -/
theorem runs_refine_log {path : RawPath} {maxSegmentSize maxPartitionSize segmentTtl : ℤ}
    {ops : List PartitionOp} (hv : Vacant w path dir) (h0 : 0 ≤ maxSegmentSize)
    (h1 : maxSegmentSize < 2 ^ 31) (hpay : Payloads ops) (hcount : (writes ops).length < 2 ^ 63)
    (hack : Acknowledged
      ((Host.boot path maxSegmentSize maxPartitionSize segmentTtl w).2.trace ops)) :
    (Host.boot path maxSegmentSize maxPartitionSize segmentTtl w).1 = .ok () ∧
    let h := (Host.boot path maxSegmentSize maxPartitionSize segmentTtl w).2
    Reopens (h.trace ops) ∧
    (∃ t, Runs.Trace LogNext ⟨[], 0⟩ (h.trace ops) t ∧ t.log = writes ops) ∧
    acks (h.trace ops) = (List.range (writes ops).length).map (fun n => .ok (n : ℤ)) ∧
    (∀ ops₁ ops₂, ops = ops₁ ++ ops₂ →
      (h.final ops₁).partition.oldestOffset ≤ (h.final ops).partition.oldestOffset) ∧
    Shows (h.final ops) (writes ops) := by
  obtain ⟨h, hboot, -, href⟩ := boot_refines
    hv h0 h1
  rw [hboot] at hack ⊢
  have hops : (h.trace ops).map Prod.fst = ops := Runs.map_fst_trace _ _
  obtain ⟨t, htr, hlog, -, href'⟩ := href.run hpay (by simpa using hcount) hack
  rw [List.nil_append] at hlog
  refine ⟨rfl, reopens htr, ⟨t, htr, hlog⟩, ?_, ?_, hlog ▸ href'.shows⟩
  · rw [acks_eq htr, hops, List.range_eq_range']
    rfl
  · rintro ops₁ ops₂ rfl
    rw [writes_append, List.length_append] at hcount
    dsimp only at hack
    rw [Host.trace, Runs.trace_append] at hack
    obtain ⟨t₁, -, hlog₁, -, href₁⟩ := href.run
      (fun m hm => hpay m (by simp [hm])) (by simp only [List.length_nil]; omega)
      (fun e he => hack e (List.mem_append_left _ he))
    obtain ⟨t₂, -, -, hle, href₂⟩ := href₁.run
      (fun m hm => hpay m (by simp [hm])) (by rw [hlog₁, List.nil_append]; exact hcount)
      (fun e he => hack e (List.mem_append_right _ he))
    rw [Host.final, Host.final, Runs.final_append, href₁.oldest]
    rw [Host.final, Host.final] at href₂
    rw [href₂.oldest]
    exact_mod_cast hle

theorem runs_refine_log_retention :
    acks ((Host.boot ⟨[], []⟩ 20 50 10 (World.blank 0)).2.trace
      [.write [1, 2, 3], .tick 5, .write [4], .readAt 0, .restart true, .write []]) =
      [.ok 0, .ok 1, .ok 2] := by
  have hv := Vacant.blank 0
  obtain ⟨h, hboot, hset, href⟩ := boot_refines hv
    (show (0 : ℤ) ≤ 20 by decide) (by decide)
  have hpay : Payloads [.write [1, 2, 3], .tick 5, .write [4], .readAt 0, .restart true,
      .write []] := by
    simp [Payloads, writes]
  have hack := acknowledged_of_small href
    (show h.partition.maxSegmentSize < 15728640 by
      rw [show h.partition.maxSegmentSize = 20 from congrArg (fun x => x.2.1) hset]
      decide) hpay (by decide)
  exact (runs_refine_log hv (by decide) (by decide) hpay (by decide)
    (by rw [hboot]; exact hack)).2.2.2.1

end MyKafka
