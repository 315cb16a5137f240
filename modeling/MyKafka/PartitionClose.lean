import MyKafka.PartitionLog

/-!
# Closing and reopening a partition

Closing leaves the files of the chunks, and so does a kill at an operation boundary. Opening them
again gives the same history, from which retention may have dropped a prefix.
-/

namespace MyKafka

open Posix LittleEndian

variable {w : World} {path : RawPath} {dir : Path} {maxSize : ℤ} {cs : List Chunk}
  {log : List Payload}

/-- What a partition leaves in its directory. -/
structure Stored (w : World) (path : RawPath) (dir : Path) (cs : List Chunk) (log : List Payload) :
    Prop extends Laid w dir cs log where
  atDir : FileSystem.At w.fs path dir
  files : Files w.fs dir cs

theorem Live.stored {ss : List Segment} (h : Live w path dir maxSize ss cs log) :
    Stored w path dir cs log := ⟨h.toLaid, h.atDir, h.files⟩

/-- The chunks that are closed already, and the segments that are left. -/
structure Closing (w : World) (path : RawPath) (dir : Path) (maxSize : ℤ) (ss : List Segment)
    (done todo : List Chunk) : Prop where
  atDir : FileSystem.At w.fs path dir
  stands : List.Forall₂ (Stands w.fs path dir maxSize) ss todo
  files : Files w.fs dir done
  bases : (done ++ todo).Pairwise (fun c d => c.base < d.base)

theorem Closing.step {s : Segment} {ss : List Segment} {done todo : List Chunk} {c : Chunk}
    (hw : w.Calm) (h : Closing w path dir maxSize (s :: ss) done (c :: todo)) :
    ∃ s' w', s.close w = (.ok (), s', w') ∧ s'.Shut ∧
      Closing w' path dir maxSize ss (done ++ [c]) todo ∧
      Frame (ownNames dir c.base) (FileSystem.Named (ownNames dir c.base) w.fs) w w' := by
  have hst := h.stands
  rw [List.forall₂_cons] at hst
  obtain ⟨i, j, ho⟩ := hst.1.opened
  obtain ⟨s', w', hclose, hshut, -, -, hdisk, hsane⟩ := Segment.close_spec hw ho
  have hfr := (Segment.close_frame (Frame.refl (fun _ => id)) (ho.confined h.atDir)).1
  rw [hclose] at hfr
  have hbases := h.bases
  rw [List.pairwise_append, List.pairwise_cons] at hbases
  refine ⟨s', w', hclose, hshut, ⟨?_, ?_, ?_, ?_⟩, hfr⟩
  · exact at_of_within h.atDir hfr.within ho.not_isDir hdisk.not_isDir
  · exact forall₂_frame hst.2 (fun d hd => (hbases.2.1.1 d hd).ne') hfr.within
  · intro d hd
    rcases List.mem_append.mp hd with hd | hd
    · exact h.files.frame hfr.within (fun e he => (hbases.2.2 e he c List.mem_cons_self).ne) d hd
    · rw [List.mem_singleton.mp hd]
      exact ⟨i, j, hdisk, hsane⟩
  · rw [List.append_assoc]
    exact h.bases

theorem closeSegments_spec {todo : List Chunk} : ∀ {w : World} {ss : List Segment}
    {done : List Chunk}, w.Calm → Closing w path dir maxSize ss done todo →
    ∃ ss' w', Partition.closeSegments ss w = (.ok (), ss', w') ∧
      Closing w' path dir maxSize [] (done ++ todo) [] ∧ w'.Calm ∧ w'.now = w.now ∧
      (∀ n, (∀ c ∈ todo, ¬ ownNames dir c.base (dir ++ [n])) →
        w'.fs.node? (dir ++ [n]) = w.fs.node? (dir ++ [n])) ∧
      ∀ d, (∀ c ∈ todo, d.base ≠ c.base) → Files w.fs dir [d] → Files w'.fs dir [d] := by
  induction todo with
  | nil =>
      intro w ss done hw h
      obtain rfl : ss = [] := List.forall₂_nil_right_iff.mp h.stands
      exact ⟨[], w, rfl, by simpa using h, hw, rfl, fun _ _ => rfl, fun _ _ => id⟩
  | cons c todo ih =>
      intro w ss done hw h
      cases ss with
      | nil => cases h.stands
      | cons s ss =>
          obtain ⟨s', w₁, hclose, hshut, h₁, hfr⟩ := h.step hw
          obtain ⟨ss', w', hrest, h', hw', hnow, hnode, hkept⟩ := ih (hfr.calm hw) h₁
          refine ⟨s' :: ss', w', ?_, by simpa using h', hw', hnow.trans hfr.now, ?_, ?_⟩
          · rw [Partition.closeSegments, hclose]
            dsimp only
            rw [Segment.destroy_shut hshut, hrest]
          · intro n hn
            rw [hnode n (fun d hd => hn d (List.mem_cons_of_mem c hd)),
              hfr.within.node _ (hn c List.mem_cons_self)]
          · intro d hd hf
            refine hkept d (fun e he => hd e (List.mem_cons_of_mem c he)) ?_
            exact hf.frame hfr.within (fun e he => by
              rw [List.mem_singleton.mp he]
              exact hd c List.mem_cons_self)

namespace Partition

variable {p : Partition}

/-- The object is closed and holds no segment. -/
structure Closed (p : Partition) : Prop where
  cancel : p.cancel = true
  older : p.older = []
  active : p.activeSegment = none

theorem close_spec (hw : w.Calm) (h : Rep w dir p cs log) :
    ∃ p' w', p.close w = (.ok (), p', w') ∧ p'.Closed ∧ p'.settings = p.settings ∧
      Stored w' p.path dir cs log ∧ w'.Calm ∧ w'.now = w.now := by
  obtain ⟨ss', w', hclose, h', hw', hnow, hnode, -⟩ := closeSegments_spec hw
    ⟨h.live.atDir, h.live.stands, fun c hc => absurd hc List.not_mem_nil,
      Blocks.pairwise_base h.live.represents.chain⟩
  refine ⟨{ p with cancel := true, activeSegment := none, physicalSize := 0, older := [] }, w', ?_,
    ⟨rfl, rfl, rfl⟩, rfl, ⟨⟨h.live.represents, h.live.quiet, h.live.mtimes, ?_, ?_⟩, h'.atDir,
      h'.files⟩, hw', hnow⟩
  · unfold Partition.close
    rw [hclose]
  · intro c hc
    rw [hnow]
    exact h.live.past c hc
  · intro n hn
    by_contra hno
    push Not at hno
    rw [hnode n hno] at hn
    obtain ⟨c, hc, hcn⟩ := h.live.only n hn
    exact hno c hc hcn

theorem close_closed (h : p.Closed) (w : World) :
    ∃ p', p.close w = (.ok (), p', w) ∧ p'.Closed := by
  refine ⟨{ p with cancel := true, activeSegment := none, physicalSize := 0, older := [] }, ?_,
    ⟨rfl, rfl, rfl⟩⟩
  unfold Partition.close segments
  rw [h.older, h.active]
  rfl

theorem open_stored (hw : w.Calm) (hp : p.Fresh) (h : Stored w p.path dir cs log)
    (hjunk : ∀ c ∈ cs, c.junk = []) (hlog : log.length < 2 ^ 63) :
    ∃ k p' w', p.open w = (.ok (), p', w') ∧ Reopened w' dir p p' cs k w.now log := by
  rw [open_at hw h.atDir]
  exact openFiles_stored hw hp h.atDir h.toLaid h.files hjunk hlog

end Partition

end MyKafka
