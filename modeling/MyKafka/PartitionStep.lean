import MyKafka.PartitionRefinement

/-!
# What a served operation does to the chunks

`Moved` says once what each operation of a run does to the chunks of a partition. An invariant of
the chunks then only has to survive these moves.
-/

namespace MyKafka

open Posix MyKafka.Partition

/-- A host of a run: an open partition, the chunks in its directory, and what was written to it. -/
structure Holding (dir : Path) (h : Host) (cs : List Chunk) (log : List Payload) : Prop where
  calm : h.world.Calm
  rep : Rep h.world dir h.partition cs log
  settled : Settled cs
  addressable : Addressable cs
  size_nonneg : 0 ≤ h.partition.maxSegmentSize
  size_lt : h.partition.maxSegmentSize < 2 ^ 31

inductive Moved (dir : Path) (h : Host) (log : List Payload) (cs : List Chunk) :
    PartitionOp → Host → List Chunk → Prop
  | tick (seconds : ℕ) : Moved dir h log cs (.tick seconds) (Host.step h (.tick seconds)).2 cs
  | write {m : Payload} {p' : Partition} {w' : World} {cs' : List Chunk}
      (hwrite : h.partition.write m h.world = (.ok (log.length : ℤ), p', w'))
      (hwritten : Written h.partition h.world.now m p' cs cs')
      (hset : p'.settings = h.partition.settings) :
      Moved dir h log cs (.write m) ⟨p', w'⟩ cs'
  | readAt (o : ℤ) : Moved dir h log cs (.readAt o) h cs
  | restart {closing : Bool} {k : ℕ} {h' : Host} (hrestart : h.restart closing = (.ok (), h'))
      (hre : Reopened h'.world dir h.partition h'.partition cs k h.world.now log) :
      Moved dir h log cs (.restart closing) h' (cs.drop k)

variable {w : World} {dir : Path} {h h' : Host} {cs : List Chunk} {log : List Payload}
  {op : PartitionOp}

theorem Partition.readAt_calm (hw : w.Calm) (p : Partition) (o : ℤ) : (p.readAt o w).2.2 = w := by
  unfold Partition.readAt
  split_ifs
  · rfl
  · split
    · rfl
    · exact Segment.readAt_calm hw _ _

/-- A step whose write, if it is one, is acknowledged. -/
theorem Holding.step (hh : Holding dir h cs log) (hpay : Payloads [op])
    (hroom : log.length + (writes [op]).length < 2 ^ 63)
    (hok : ∀ err, (Host.step h op).1 ≠ .wrote (.error err)) :
    ∃ cs', Moved dir h log cs op (Host.step h op).2 cs' ∧
      Holding dir (Host.step h op).2 cs' (log ++ writes [op]) := by
  obtain ⟨hw, hrep, hset, haddr, h0, h1⟩ := hh
  cases op with
  | tick seconds =>
      rw [writes, writes, List.append_nil]
      exact ⟨cs, .tick seconds, hw, hrep.tick seconds, hset, haddr, h0, h1⟩
  | write m =>
      have hm : m.length < 2 ^ 31 := hpay m (by simp [writes])
      have hready : h.partition.Ready := by
        cases hwrite : h.partition.write m h.world with
        | mk res rest =>
            cases res with
            | ok n => exact ready_of_ok hw hrep h0 h1 hm hwrite
            | error err =>
                simp only [Host.step, hwrite] at hok
                exact absurd rfl (hok err)
      obtain ⟨p', w', cs', hwrite, hrep', hwr, hsettings, hw', -⟩ :=
        write_ready hw hrep hready (fun c hc _ => hset c hc) hm hroom
      have hsize := maxSegmentSize_eq hsettings
      have hstep : (Host.step h (.write m)).2 = ⟨p', w'⟩ := by simp only [Host.step, hwrite]
      rw [hstep]
      exact ⟨cs', .write hwrite hwr hsettings, hw', hrep', hwr.settled hset, hwr.addressable haddr,
        hsize ▸ h0, hsize ▸ h1⟩
  | readAt o =>
      have hstep : (Host.step h (.readAt o)).2 = h := by
        simp only [Host.step, h.partition.readAt_calm hw o]
      rw [hstep, writes, writes, List.append_nil]
      exact ⟨cs, .readAt o, hw, hrep, hset, haddr, h0, h1⟩
  | restart closing =>
      obtain ⟨k, h', hrestart, hre⟩ := Host.restart_spec hw hrep hset hroom closing
      have hsize := maxSegmentSize_eq hre.settings
      have hstep : (Host.step h (.restart closing)).2 = h' := by simp only [Host.step, hrestart]
      rw [hstep, writes, writes, List.append_nil]
      exact ⟨cs.drop k, .restart hrestart hre, hre.calm, hre.rep,
        fun c hc => hset c (List.mem_of_mem_drop hc), fun c hc => haddr c (List.mem_of_mem_drop hc),
        hsize ▸ h0, hsize ▸ h1⟩

theorem Moved.settings {cs' : List Chunk} (hm : Moved dir h log cs op h' cs') :
    h'.partition.settings = h.partition.settings := by
  cases hm with
  | tick seconds => rfl
  | write _ _ hset => exact hset
  | readAt o => rfl
  | restart _ hre => exact hre.settings

/-- What every move keeps, a run keeps. -/
theorem Holding.run {I : Host → List Chunk → List Payload → Prop}
    (hI : ∀ {h h' : Host} {cs cs' : List Chunk} {log : List Payload} {op : PartitionOp},
      Holding dir h cs log → Moved dir h log cs op h' cs' →
      Holding dir h' cs' (log ++ writes [op]) → Payloads [op] → log.length < 2 ^ 63 →
      I h cs log → I h' cs' (log ++ writes [op]))
    {ops : List PartitionOp} (hh : Holding dir h cs log) (hpay : Payloads ops)
    (hcount : log.length + (writes ops).length < 2 ^ 63) (hack : Acknowledged (h.trace ops))
    (h0 : I h cs log) :
    ∃ cs', Holding dir (h.final ops) cs' (log ++ writes ops) ∧
      I (h.final ops) cs' (log ++ writes ops) := by
  induction ops generalizing h cs log with
  | nil =>
      rw [writes, List.append_nil]
      exact ⟨cs, hh, h0⟩
  | cons op ops ih =>
      have hsplit : writes (op :: ops) = writes [op] ++ writes ops := writes_append [op] ops
      rw [hsplit, List.length_append] at hcount
      have hpay' : ∀ m ∈ writes [op] ++ writes ops, m.length < 2 ^ 31 := by
        rw [← hsplit]
        exact hpay
      have hpay₁ : Payloads [op] := fun m hm => hpay' m (List.mem_append_left _ hm)
      obtain ⟨cs₁, hmoved, hh₁⟩ := hh.step hpay₁ (by omega) (fun err => hack _ List.mem_cons_self err)
      obtain ⟨cs', hh', hi'⟩ := ih hh₁ (fun m hm => hpay' m (List.mem_append_right _ hm))
        (by rw [List.length_append]; omega) (fun e he => hack e (List.mem_cons_of_mem _ he))
        (hI hh hmoved hh₁ hpay₁ (by omega) h0)
      rw [List.append_assoc, ← hsplit] at hh' hi'
      exact ⟨cs', hh', hi'⟩

end MyKafka
