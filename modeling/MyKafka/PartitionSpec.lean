import MyKafka.PartitionOpen

/-!
# A partition as a log that may lose a prefix

`Rep` relates an open partition to the chunks in its directory and to the history of its messages.
Retention drops chunks from the front, a write adds one message to the history, and a read finds a
message exactly when its offset is retained.
-/

namespace MyKafka

open Posix LittleEndian

namespace Partition

/-- What the constructor was given. -/
def settings (p : Partition) : RawPath × ℤ × ℤ × ℤ :=
  (p.path, p.maxSegmentSize, p.maxPartitionSize, p.segmentTtl)

/-- The partition is open, and its segments stand for the chunks of its directory. -/
structure Rep (w : World) (dir : Path) (p : Partition) (cs : List Chunk) (log : List Payload) :
    Prop where
  opened : p.cancel = false
  active : ∃ s, p.activeSegment = some s
  live : Live w p.path dir p.maxSegmentSize p.segments cs log

variable {w : World} {dir : Path} {p : Partition} {cs : List Chunk} {c : Chunk}
  {log : List Payload}

/-! ## Retention -/

theorem cleanSegments_keep {ss : List Segment} (h : ∀ s ∈ ss, ¬ p.outdated s w.now) :
    cleanSegments ss p w = (.ok (), { p with older := p.older ++ ss }, w) := by
  induction ss generalizing p with
  | nil => simp [cleanSegments]
  | cons s ss ih =>
      rw [cleanSegments, if_neg (h s List.mem_cons_self),
        ih (p := { p with older := p.older ++ [s] }) (fun t ht => h t (List.mem_cons_of_mem s ht))]
      simp only [List.append_assoc, List.singleton_append]

/-- Why a segment may be deleted. -/
def Expired (p : Partition) (now : ℤ) (s : Segment) : Prop :=
  (p.segmentTtl ≠ 0 ∧ p.segmentTtl < now - s.mtime) ∨ p.maxPartitionSize ≠ 0

/-- Later segments are younger, so once a segment is kept all those after it are. -/
theorem cleanSegments_spec {path : RawPath} {maxSize : ℤ} {a : Segment} {ss : List Segment} :
    ∀ {w : World} {p : Partition} {cs : List Chunk}, w.Calm →
      Live w path dir maxSize (ss ++ [a]) cs log → p.older = [] →
      ∃ k size w', cleanSegments ss p w =
          (.ok (), { p with physicalSize := size, older := ss.drop k }, w') ∧
        Live w' path dir maxSize (ss.drop k ++ [a]) (cs.drop k) log ∧ k < cs.length ∧ w'.Calm ∧
        w'.now = w.now ∧ (∀ s ∈ ss.take k, p.Expired w.now s) ∧
        (p.segmentTtl = 0 → p.maxPartitionSize = 0 → k = 0 ∧ w' = w) := by
  induction ss with
  | nil =>
      intro w p cs hw h hp
      refine ⟨0, p.physicalSize, w, ?_, by simpa using h, ?_, hw, rfl, by simp,
        fun _ _ => ⟨rfl, rfl⟩⟩
      · rw [cleanSegments, List.drop_nil, ← hp]
      · exact List.length_pos_of_ne_nil h.represents.ne_nil
  | cons s ss ih =>
      intro w p cs hw h hp
      have hlen := h.stands.length_eq
      rw [List.cons_append, List.length_cons, List.length_append, List.length_singleton] at hlen
      by_cases hout : p.outdated s w.now
      · cases cs with
        | nil => simp at hlen
        | cons c cs =>
            have hne : cs ≠ [] := by
              rintro rfl
              simp at hlen
            obtain ⟨s', w₁, hdel, hshut, h₁, hw₁, hnow⟩ := h.delete_head hw hne
            obtain ⟨k, size, w', hrest, h', hk, hw', hnow', hexp, -⟩ := ih
              (p := { p with physicalSize := p.physicalSize - s.size }) hw₁ h₁ hp
            refine ⟨k + 1, size, w', ?_, h', by rw [List.length_cons]; omega, hw', hnow'.trans hnow,
              ?_, ?_⟩
            · rw [cleanSegments, if_pos hout, hdel]
              dsimp only
              rw [Segment.destroy_shut hshut, hrest, List.drop_succ_cons]
            · intro t ht
              rw [List.take_succ_cons] at ht
              rcases List.mem_cons.mp ht with rfl | ht
              · exact hout.imp_right And.left
              · have := hexp t ht
                rwa [hnow] at this
            · rintro htt hmp
              rcases hout with hout | hout
              · exact absurd htt hout.1
              · exact absurd hmp hout.1
      · have hkeep : ∀ t ∈ s :: ss, ¬ p.outdated t w.now := by
          intro t ht
          rcases List.mem_cons.mp ht with rfl | ht
          · exact hout
          · have hle : s.mtime ≤ t.mtime :=
              (List.pairwise_cons.mp h.cached).1 t (List.mem_append_left _ ht)
            rintro (⟨h0, hold⟩ | hlarge)
            · exact hout (Or.inl ⟨h0, by omega⟩)
            · exact hout (Or.inr hlarge)
        refine ⟨0, p.physicalSize, w, ?_, by simpa using h, ?_, hw, rfl, by simp,
          fun _ _ => ⟨rfl, rfl⟩⟩
        · rw [cleanSegments_keep hkeep, hp, List.nil_append, List.drop_zero]
        · exact List.length_pos_of_ne_nil h.represents.ne_nil

theorem segments_eq {s : Segment} (h : p.activeSegment = some s) : p.segments = p.older ++ [s] := by
  rw [segments, h]
  rfl

theorem cleanOldSegments_spec (hw : w.Calm) (h : Rep w dir p cs log) :
    ∃ k size w', p.cleanOldSegments w =
        (.ok (), { p with physicalSize := size, older := p.older.drop k }, w') ∧
      Rep w' dir { p with physicalSize := size, older := p.older.drop k } (cs.drop k) log ∧
      k < cs.length ∧ w'.Calm ∧ w'.now = w.now ∧ (∀ s ∈ p.older.take k, p.Expired w.now s) ∧
      (p.segmentTtl = 0 → p.maxPartitionSize = 0 → k = 0 ∧ w' = w) := by
  obtain ⟨s, hs⟩ := h.active
  have hlive := h.live
  rw [segments_eq hs] at hlive
  obtain ⟨k, size, w', hclean, h', hk, hw', hnow, hexp, hidle⟩ := cleanSegments_spec
    (p := { p with older := [] }) hw hlive rfl
  refine ⟨k, size, w', hclean, ⟨h.opened, h.active, ?_⟩, hk, hw', hnow, hexp, hidle⟩
  rw [segments_eq (p := { p with physicalSize := size, older := p.older.drop k }) hs]
  exact h'

/-! ## Opening -/

theorem map_mtime_eq {w' : World} {path : RawPath} {maxSize : ℤ} {ss : List Segment}
    (h : List.Forall₂ (fun s c => Stands w'.fs path dir maxSize s c ∧ s.mtime = c.mtime) ss cs) :
    ss.map Segment.mtime = cs.map Chunk.mtime := by
  induction h with
  | nil => rfl
  | cons hs _ ih => rw [List.map_cons, List.map_cons, hs.2, ih]

/-- An object that was just constructed. -/
structure Fresh (p : Partition) : Prop where
  opened : p.cancel = false
  older : p.older = []
  active : p.activeSegment = none

theorem Fresh.new (path : RawPath) (maxSegmentSize maxPartitionSize segmentTtl : ℤ) :
    (Partition.new path maxSegmentSize maxPartitionSize segmentTtl).Fresh := ⟨rfl, rfl, rfl⟩

/-- What opening and retention leave of the chunks `cs`: all but the first `k`, under objects whose
cached modification times are those of the files. -/
structure Reopened (w' : World) (dir : Path) (p p' : Partition) (cs : List Chunk) (k : ℕ)
    (now : ℤ) (log : List Payload) : Prop where
  rep : Rep w' dir p' (cs.drop k) log
  lt : k < cs.length
  settings : p'.settings = p.settings
  mtimes : p'.segments.map Segment.mtime = (cs.drop k).map Chunk.mtime
  expired : ∀ c ∈ cs.take k, (p.segmentTtl ≠ 0 ∧ p.segmentTtl < now - c.mtime) ∨
    p.maxPartitionSize ≠ 0
  idle : p.segmentTtl = 0 → p.maxPartitionSize = 0 → k = 0
  calm : w'.Calm
  now_eq : w'.now = now

theorem clean_reopened (hw : w.Calm) (h : Rep w dir p cs log)
    (hmtimes : p.segments.map Segment.mtime = cs.map Chunk.mtime) :
    ∃ k p' w', p.cleanOldSegments w = (.ok (), p', w') ∧ Reopened w' dir p p' cs k w.now log := by
  obtain ⟨k, size, w', hclean, hrep, hk, hw', hnow, hexp, hidle⟩ := cleanOldSegments_spec hw h
  obtain ⟨s, hs⟩ := h.active
  rw [segments_eq hs] at hmtimes
  have hlen := congrArg List.length hmtimes
  simp only [List.length_map, List.length_append, List.length_singleton] at hlen
  refine ⟨k, _, w', hclean, hrep, hk, rfl, ?_, ?_, fun h₁ h₂ => (hidle h₁ h₂).1, hw', hnow⟩
  · rw [segments_eq (p := { p with physicalSize := size, older := p.older.drop k }) hs,
      List.map_drop, ← hmtimes, List.map_append, List.map_append, List.drop_append_of_le_length,
      List.map_drop]
    rw [List.length_map]
    omega
  · intro c hc
    have hmem : c.mtime ∈ (cs.map Chunk.mtime).take k := by
      rw [← List.map_take]
      exact List.mem_map_of_mem hc
    rw [← hmtimes, ← List.map_take, List.take_append_of_le_length (by omega), List.mem_map] at hmem
    obtain ⟨t, ht, htc⟩ := hmem
    have := hexp t ht
    rwa [Expired, htc] at this

theorem opening_live {w' : World} {path : RawPath} {maxSize : ℤ} {ss : List Segment}
    (h : Laid w dir cs log) (hopen : Opening w' path dir maxSize ss cs []) (hnow : w'.now = w.now)
    (hnode : ∀ n, (∀ c ∈ cs, ¬ ownNames dir c.base (dir ++ [n])) →
      w'.fs.node? (dir ++ [n]) = w.fs.node? (dir ++ [n])) :
    Live w' path dir maxSize ss cs log := by
  have hmtimes := map_mtime_eq hopen.stands
  refine ⟨⟨h.represents, h.quiet, h.mtimes, fun c hc => hnow ▸ h.past c hc, ?_⟩, hopen.atDir,
    forall₂_imp_mem hopen.stands (fun _ _ _ hs => hs.1), ?_⟩
  · intro n hn
    by_contra hno
    push Not at hno
    rw [hnode n hno] at hn
    obtain ⟨c, hc, hcn⟩ := h.only n hn
    exact hno c hc hcn
  · have hm := h.mtimes
    rw [← List.pairwise_map (f := Chunk.mtime) (R := fun a b => a ≤ b), ← hmtimes,
      List.pairwise_map] at hm
    exact hm

/-- The segments that are opened on the chunks of a directory, before retention goes over them. -/
theorem openSegments_stored (hw : w.Calm) (hp : p.Fresh) (hat : FileSystem.At w.fs p.path dir)
    (h : Laid w dir cs log) (hf : Files w.fs dir cs) (hjunk : ∀ c ∈ cs, c.junk = [])
    (hlog : log.length < 2 ^ 63) :
    ∃ size init s w', openSegments (fillFilesList w p.path) p w =
        (.ok (), { p with physicalSize := size, older := init ++ [s] }, w') ∧
      Rep w' dir { p with physicalSize := size, older := init, activeSegment := some s } cs log ∧
      (init ++ [s]).map Segment.mtime = cs.map Chunk.mtime ∧ w'.Calm ∧ w'.now = w.now := by
  have hbase : ∀ c ∈ cs, c.base < 2 ^ 63 := by
    intro c hc
    have := h.represents.next_le hc
    unfold Blocks.next at this
    omega
  have hopening : Opening w p.path dir p.maxSegmentSize p.older [] (cs ++ []) := by
    rw [hp.older, List.append_nil]
    exact ⟨hat, .nil, hf, Blocks.pairwise_base h.represents.chain⟩
  obtain ⟨ss, size, w₁, hsegs, hopen, hw₁, hnow, hnode⟩ := openSegments_spec hw hopening hjunk
  rw [hp.older, List.nil_append, List.nil_append] at hopen
  have hlive := opening_live h hopen hnow hnode
  have hss : ss ≠ [] := by
    rintro rfl
    have := hopen.stands.length_eq
    exact h.represents.ne_nil (List.length_eq_zero_iff.mp this.symm)
  obtain ⟨init, s, rfl⟩ : ∃ init s, ss = init ++ [s] :=
    ⟨ss.dropLast, ss.getLast hss, (List.dropLast_append_getLast hss).symm⟩
  refine ⟨size, init, s, w₁, ?_, ⟨hp.opened, ⟨s, rfl⟩, hlive⟩, map_mtime_eq hopen.stands, hw₁, hnow⟩
  rw [fillFilesList_eq hat h hf hbase, hsegs, hp.older, List.nil_append]

/-- `openFiles` when there is a log file: the last segment becomes the active one. -/
theorem openFiles_eq {p₁ : Partition} {init : List Segment} {s : Segment} {w₁ : World}
    (hsegs : openSegments (fillFilesList w p.path) p w = (.ok (), p₁, w₁))
    (holder : p₁.older = init ++ [s]) :
    p.openFiles w = (.ok (),
      ({ p₁ with older := init, activeSegment := some s }.cleanOldSegments w₁).2) := by
  unfold openFiles
  rw [hsegs]
  dsimp only
  rw [holder, List.getLast?_concat]
  dsimp only
  rw [List.dropLast_concat]

theorem openFiles_stored (hw : w.Calm) (hp : p.Fresh) (hat : FileSystem.At w.fs p.path dir)
    (h : Laid w dir cs log) (hf : Files w.fs dir cs) (hjunk : ∀ c ∈ cs, c.junk = [])
    (hlog : log.length < 2 ^ 63) :
    ∃ k p' w', p.openFiles w = (.ok (), p', w') ∧ Reopened w' dir p p' cs k w.now log := by
  obtain ⟨size, init, s, w₁, hsegs, hrep, hmtimes, hw₁, hnow⟩ :=
    openSegments_stored hw hp hat h hf hjunk hlog
  obtain ⟨k, p', w', hclean, hre⟩ := clean_reopened hw₁ hrep hmtimes
  refine ⟨k, p', w', ?_, hre.rep, hre.lt, hre.settings, hre.mtimes, ?_, hre.idle, hre.calm,
    hre.now_eq.trans hnow⟩
  · rw [openFiles_eq hsegs rfl, hclean]
  · rw [← hnow]
    exact hre.expired

/-- The segment that is opened in an empty directory, before retention goes over it. -/
theorem openSegments_empty (hw : w.Calm) (hp : p.Fresh) (hat : FileSystem.At w.fs p.path dir)
    (h : ∀ n, w.fs.node? (dir ++ [n]) = none) :
    ∃ s w', (Segment.new p.path 0 p.maxSegmentSize).open w = (.ok (), s, w') ∧
      p.openFiles w = (.ok (), ({ p with activeSegment := some s }.cleanOldSegments w').2) ∧
      Rep w' dir { p with activeSegment := some s } [emptyChunk 0 w.now] [] ∧
      s.mtime = w.now ∧ w'.Calm ∧ w'.now = w.now := by
  have hfill : fillFilesList w p.path = [] := by
    have hnone : w.listing p.path = [] := by
      rw [List.eq_nil_iff_forall_not_mem]
      intro n hn
      rw [World.listing, hat.resolves, (w.order.perm _).mem_iff, FileSystem.mem_children] at hn
      exact hn (h n)
    rw [fillFilesList, hnone]
    rfl
  have hcont : ∀ n, w.fs.contents (dir ++ [n]) w.now = ⟨Image.empty, w.now⟩ := fun n =>
    FileSystem.contents_none (h n) _
  have hdir : ∀ n, ¬ w.fs.IsDir (dir ++ [n]) := by
    intro n
    rw [FileSystem.IsDir, h n]
    simp
  obtain ⟨s, w₁, i, j, hopen, ho, hmtime, hmax⟩ := Segment.open_spec (c := emptyChunk 0 w.now)
    hw hat (hdir _) (hdir _) (by rw [hcont]; rfl) (by rw [hcont]; rfl)
    (by rw [hcont]; exact Index.Sane.empty) (emptyChunk_fits (by omega) _) rfl
  have hfr := (Segment.open_frame (Frame.refl (fun _ => id)) (Segment.Confined.new
    (S := ownNames dir 0) (I := FileSystem.Named (ownNames dir 0) w.fs)
    (hat.inside (plain_logName _) (Or.inl rfl))
    (hat.inside (plain_indexName _) (Or.inr rfl)) p.maxSegmentSize)).1
  rw [show ((emptyChunk 0 w.now).base : ℤ) = 0 from rfl] at hopen
  rw [hopen] at hfr
  have hlive : Live w₁ p.path dir p.maxSegmentSize [s] [emptyChunk 0 w.now] [] := by
    refine ⟨⟨Blocks.Represents.singleton rfl, by simp, List.pairwise_singleton _ _, ?_, ?_⟩, ?_,
      .cons ⟨⟨i, j, ho⟩, hmax, hmtime.le⟩ .nil, List.pairwise_singleton _ _⟩
    · intro c hc
      rw [List.mem_singleton.mp hc]
      exact hfr.now.ge
    · intro n hn
      refine ⟨_, List.mem_singleton_self _, ?_⟩
      by_contra hown
      rw [hfr.within.node _ hown, h n] at hn
      exact hn rfl
    · refine at_of_within hat hfr.within ?_ ho.not_isDir
      rintro q (rfl | rfl)
      · exact hdir _
      · exact hdir _
  refine ⟨s, w₁, hopen, ?_, ⟨hp.opened, ⟨s, rfl⟩, ?_⟩, hmtime, hfr.calm hw, hfr.now⟩
  · unfold openFiles
    rw [hfill, openSegments]
    dsimp only
    rw [show p.older.getLast? = none by rw [hp.older]; rfl]
    dsimp only
    rw [hopen]
  · rw [segments_eq (p := { p with activeSegment := some s }) rfl, hp.older]
    exact hlive

theorem openFiles_empty (hw : w.Calm) (hp : p.Fresh) (hat : FileSystem.At w.fs p.path dir)
    (h : ∀ n, w.fs.node? (dir ++ [n]) = none) :
    ∃ p' w', p.openFiles w = (.ok (), p', w') ∧
      Reopened w' dir p p' [emptyChunk 0 w.now] 0 w.now [] := by
  obtain ⟨s, w₁, -, hopen, hrep, hmtime, hw₁, hnow⟩ := openSegments_empty hw hp hat h
  obtain ⟨k, p', w', hclean, hre⟩ := clean_reopened hw₁ hrep (by
    rw [segments_eq (p := { p with activeSegment := some s }) rfl, hp.older]
    simp [hmtime, emptyChunk])
  obtain rfl : k = 0 := by
    have := hre.lt
    simpa using this
  refine ⟨p', w', ?_, hre.rep, hre.lt, hre.settings, hre.mtimes, ?_, hre.idle, hre.calm,
    hre.now_eq.trans hnow⟩
  · rw [hopen, hclean]
  · rw [← hnow]
    exact hre.expired

theorem open_at (hw : w.Calm) (hat : FileSystem.At w.fs p.path dir) :
    p.open w = p.openFiles w := by
  rw [Partition.open, World.createDirectories_at hw hat]

end Partition

end MyKafka
