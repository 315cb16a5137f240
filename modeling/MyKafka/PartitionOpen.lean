import Mathlib.Data.List.Sort
import MyKafka.Partition
import MyKafka.SegmentList

/-!
# Opening a partition

The names of the log files give the base offsets back, so `fillFilesList` finds the chunks of a
directory in order whatever order the directory is listed in, and opening them one by one gives open
segments that stand for them.
-/

namespace MyKafka

open Posix LittleEndian Decimal

/-! ## The names of the log files -/

theorem extension_logName (b : ℤ) : extension (logName b) = logExtension :=
  extension_append _ (by decide) (by decide)

theorem extension_indexName (b : ℤ) : extension (indexName b) = indexExtension :=
  extension_append _ (by decide) (by decide)

theorem stem_logName (b : ℤ) : stem (logName b) = padded20 b :=
  stem_append _ (by decide) (by decide)

theorem detectBaseOffset_padded20 {b : ℤ} (h : 0 ≤ b) (hb : b < 2 ^ 63) :
    detectBaseOffset (padded20 b) = b := by
  have hval : leadingInt (padded20 b) = b := by
    rw [leadingInt_numeral (numeral_padded20 h), padded20, if_neg (by omega), digitsValue_padded]
    omega
  unfold detectBaseOffset
  dsimp only
  rw [hval, min_eq_right (by omega), max_eq_right (by omega)]
  rw [if_neg]
  rintro ⟨rfl, hany⟩
  revert hany
  decide

theorem getLogFilename_inj {path : RawPath} {b b' : ℤ} (h : 0 ≤ b) (h' : 0 ≤ b')
    (he : getLogFilename path b = getLogFilename path b') : b = b' := by
  rw [getLogFilename_eq, getLogFilename_eq] at he
  have hcomps := congrArg RawPath.comps he
  exact logName_inj h h' (by simpa [RawPath.child] using hcomps)

/-! ## The log files of a directory -/

section LogFiles

variable {w : World} {path : RawPath} {dir : Path} {B : Finset ℤ}

/-- The log files of the directory are those of the base offsets `B`; what else it holds, such as the
index files, does not matter. -/
structure LogFiles (fs : FileSystem) (dir : Path) (B : Finset ℤ) : Prop where
  log : ∀ b ∈ B, ∃ i, fs.node? (dir ++ [logName b]) = some (.file i)
  only : ∀ n i, fs.node? (dir ++ [n]) = some (.file i) → extension n = logExtension →
    ∃ b ∈ B, n = logName b

theorem plain_of_extension {n : Name} (h : extension n = logExtension) : PlainName n := by
  refine ⟨?_, ?_, ?_⟩ <;> rintro rfl <;> exact absurd h (by decide)

theorem LogFiles.mem_logs (h : LogFiles w.fs dir B) (hp : FileSystem.At w.fs path dir) (n : Name) :
    n ∈ (w.listing path).filter (fun n =>
        w.isRegular (path.child n) && decide (extension n = logExtension)) ↔
      ∃ b ∈ B, n = logName b := by
  rw [List.mem_filter, World.listing, hp.resolves, (w.order.perm _).mem_iff,
    FileSystem.mem_children, Bool.and_eq_true, decide_eq_true_eq]
  constructor
  · rintro ⟨-, hregular, hext⟩
    rw [World.isRegular, FileSystem.fileAt, hp.child (plain_of_extension hext)] at hregular
    dsimp only at hregular
    split at hregular
    · next i hi => exact h.only n i hi hext
    · cases hregular
  · rintro ⟨b, hb, rfl⟩
    obtain ⟨i, hi⟩ := h.log b hb
    refine ⟨by rw [hi]; simp, ?_, extension_logName _⟩
    rw [World.isRegular, FileSystem.fileAt_eq (hp.child (plain_logName _)) hi]
    rfl

/-- The base offsets come out in order, however the directory is listed. -/
theorem LogFiles.fillFilesList (h : LogFiles w.fs dir B) (hp : FileSystem.At w.fs path dir)
    (hrange : ∀ b ∈ B, 0 ≤ b ∧ b < 2 ^ 63) : fillFilesList w path = B.sort (· ≤ ·) := by
  have hnames : (B.toList.map logName).Nodup := by
    apply List.Nodup.map_on _ B.nodup_toList
    intro b hb b' hb' he
    exact logName_inj (hrange b (Finset.mem_toList.mp hb)).1
      (hrange b' (Finset.mem_toList.mp hb')).1 he
  have hlogs : ((w.listing path).filter (fun n =>
      w.isRegular (path.child n) && decide (extension n = logExtension))).Nodup := by
    apply List.Nodup.filter
    rw [World.listing, hp.resolves]
    exact ((w.order.perm _).nodup_iff).mpr (FileSystem.children_nodup _ _)
  have hperm := (List.perm_ext_iff_of_nodup hlogs hnames).mpr (fun n => by
    rw [h.mem_logs hp, List.mem_map]
    simp only [Finset.mem_toList, eq_comm])
  have hdecode : (B.toList.map logName).map (fun n => detectBaseOffset (stem n)) = B.toList := by
    rw [List.map_map]
    conv_rhs => rw [← List.map_id B.toList]
    apply List.map_congr_left
    intro b hb
    obtain ⟨h0, hlt⟩ := hrange b (Finset.mem_toList.mp hb)
    rw [Function.comp_apply, stem_logName, detectBaseOffset_padded20 h0 hlt, id]
  have hnonneg : B.toList.filter (fun b => 0 ≤ b) = B.toList := by
    rw [List.filter_eq_self]
    intro b hb
    exact decide_eq_true (hrange b (Finset.mem_toList.mp hb)).1
  have hall := (hperm.map (fun n => detectBaseOffset (stem n))).filter (fun b => 0 ≤ b)
  rw [hdecode, hnonneg] at hall
  exact ((List.perm_insertionSort _ _).trans (hall.trans (Finset.sort_perm_toList B _).symm)
    ).eq_of_pairwise' (List.pairwise_insertionSort _ _) (Finset.pairwise_sort B _)

/-- The name of the log of a base offset is decoded to it, so no two share a file, and listing the logs
of any base offsets gives exactly these in increasing order. -/
theorem log_names_decode {B : Finset ℤ} (hrange : ∀ b ∈ B, 0 ≤ b ∧ b < 2 ^ 63)
    (h : LogFiles w.fs dir B) (hp : FileSystem.At w.fs path dir) :
    (∀ b : ℤ, 0 ≤ b → b < 2 ^ 63 → ∃ name, getLogFilename path b = path.child name ∧
      extension name = logExtension ∧ detectBaseOffset (stem name) = b) ∧
    (∀ b b' : ℤ, 0 ≤ b → 0 ≤ b' → getLogFilename path b = getLogFilename path b' → b = b') ∧
    (∀ b, b ∈ fillFilesList w path ↔ b ∈ B) ∧ (fillFilesList w path).Pairwise (· < ·) := by
  refine ⟨fun b h0 hlt => ?_, fun b b' => getLogFilename_inj, ?_⟩
  · refine ⟨logName b, getLogFilename_eq path b, extension_logName b, ?_⟩
    rw [stem_logName, detectBaseOffset_padded20 h0 hlt]
  · rw [h.fillFilesList hp hrange]
    exact ⟨fun b => Finset.mem_sort _, (Finset.sortedLT_sort B).pairwise⟩

/-- The files of two segments, logs and indexes. -/
theorem log_names_decode_two :
    let w := ((Segment.new ⟨[], []⟩ 9 0).open ((Segment.new ⟨[], []⟩ 10 0).open
      (World.blank 0)).2.2).2.2
    (∀ b : ℤ, 0 ≤ b → b < 2 ^ 63 → ∃ name, getLogFilename ⟨[], []⟩ b = RawPath.child ⟨[], []⟩ name ∧
      extension name = logExtension ∧ detectBaseOffset (stem name) = b) ∧
    (∀ b b' : ℤ, 0 ≤ b → 0 ≤ b' → getLogFilename ⟨[], []⟩ b = getLogFilename ⟨[], []⟩ b' → b = b') ∧
    (∀ b, b ∈ fillFilesList w ⟨[], []⟩ ↔ b ∈ ({9, 10} : Finset ℤ)) ∧
      (fillFilesList w ⟨[], []⟩).Pairwise (· < ·) := by
  intro w
  have hrange : ∀ b ∈ ({9, 10} : Finset ℤ), 0 ≤ b ∧ b < 2 ^ 63 := by decide
  have hlog : ∀ b ∈ ({9, 10} : Finset ℤ), (w.fs.node? ([] ++ [logName b])).any
      (fun n => n ≠ .dir) = true := by decide +kernel
  have hchildren : ∀ n ∈ w.fs.children [], extension n = logExtension →
      ∃ b ∈ ({9, 10} : Finset ℤ), n = logName b := by decide +kernel
  have hfiles : LogFiles w.fs [] {9, 10} := by
    refine ⟨fun b hb => ?_, fun n i hi hext => ?_⟩
    · have hnode := hlog b hb
      rcases hget : w.fs.node? ([] ++ [logName b]) with _ | _ | i
      · rw [hget] at hnode
        cases hnode
      · rw [hget] at hnode
        cases hnode
      · exact ⟨i, rfl⟩
    · refine hchildren n ?_ hext
      rw [FileSystem.mem_children, hi]
      simp
  have hp : FileSystem.At w.fs ⟨[], []⟩ [] := ⟨by simp, rfl, rfl, rfl⟩
  exact log_names_decode hrange hfiles hp

end LogFiles

/-! ## The chunks a directory holds -/

/-- The files of chunks that no segment has open, or none that still matters. -/
def Files (fs : FileSystem) (dir : Path) (cs : List Chunk) : Prop :=
  ∀ c ∈ cs, ∃ i j, OnDisk fs dir i j c ∧ Index.Sane (fs.data j).image

variable {w : World} {path : RawPath} {dir : Path} {maxSize : ℤ} {cs : List Chunk}
  {log : List Payload}

/-- Nothing done to the files of another chunk reaches them. -/
theorem Files.frame {fs fs' : FileSystem} {b : ℕ} (h : Files fs dir cs)
    (hw : FileSystem.Within (ownNames dir b) (FileSystem.Named (ownNames dir b) fs) fs fs')
    (hb : ∀ c ∈ cs, c.base ≠ b) : Files fs' dir cs := by
  intro c hc
  obtain ⟨i, j, hd, hsane⟩ := h c hc
  obtain ⟨hd', -, hj⟩ := hd.frame hw (fun q hq => ownNames_disjoint (hb c hc) hq)
  exact ⟨i, j, hd', by rwa [hj]⟩

theorem files_of_stands {ss : List Segment}
    (h : List.Forall₂ (Stands w.fs path dir maxSize) ss cs) : Files w.fs dir cs := by
  induction h with
  | nil => exact fun c hc => absurd hc List.not_mem_nil
  | cons hs _ ih =>
      intro c hc
      rcases List.mem_cons.mp hc with rfl | hc
      · obtain ⟨i, j, ho⟩ := hs.opened
        exact ⟨i, j, ho.toOnDisk, ho.holds.sane⟩
      · exact ih c hc

theorem Live.files {ss : List Segment} (h : Live w path dir maxSize ss cs log) :
    Files w.fs dir cs := files_of_stands h.stands

theorem logFiles_of_laid (h : Laid w dir cs log) (hf : Files w.fs dir cs) :
    LogFiles w.fs dir (cs.map (fun c => (c.base : ℤ))).toFinset := by
  refine ⟨fun b hb => ?_, fun n i hi hext => ?_⟩
  · obtain ⟨c, hc, rfl⟩ := List.mem_map.mp (List.mem_toFinset.mp hb)
    obtain ⟨i, j, hd, -⟩ := hf c hc
    exact ⟨i, hd.log⟩
  · obtain ⟨c, hc, hown⟩ := h.only n (by rw [hi]; simp)
    rcases hown with hown | hown
    · exact ⟨c.base, List.mem_toFinset.mpr (List.mem_map_of_mem hc), by simpa using hown⟩
    · obtain rfl : n = indexName c.base := by simpa using hown
      rw [extension_indexName] at hext
      exact absurd hext (by decide)

theorem fillFilesList_eq (hp : FileSystem.At w.fs path dir) (h : Laid w dir cs log)
    (hf : Files w.fs dir cs) (hbase : ∀ c ∈ cs, c.base < 2 ^ 63) :
    fillFilesList w path = cs.map (fun c => (c.base : ℤ)) := by
  have hsorted : (cs.map (fun c => (c.base : ℤ))).Pairwise (· < ·) := by
    rw [List.pairwise_map]
    exact (Blocks.pairwise_base h.represents.chain).imp (fun hlt => by omega)
  rw [(logFiles_of_laid h hf).fillFilesList hp]
  · exact (List.toFinset_sort (· ≤ ·) (hsorted.imp ne_of_lt)).mpr (hsorted.imp le_of_lt)
  · intro b hb
    obtain ⟨c, hc, rfl⟩ := List.mem_map.mp (List.mem_toFinset.mp hb)
    have := hbase c hc
    omega

/-! ## Opening the segments -/

/-- The segments opened so far, and the chunks that are left. -/
structure Opening (w : World) (path : RawPath) (dir : Path) (maxSize : ℤ) (ss : List Segment)
    (done todo : List Chunk) : Prop where
  atDir : FileSystem.At w.fs path dir
  stands : List.Forall₂ (fun s c => Stands w.fs path dir maxSize s c ∧ s.mtime = c.mtime) ss done
  files : Files w.fs dir todo
  bases : (done ++ todo).Pairwise (fun c d => c.base < d.base)

theorem Opening.step {ss : List Segment} {done todo : List Chunk} {c : Chunk} (hw : w.Calm)
    (h : Opening w path dir maxSize ss done (c :: todo)) (hjunk : c.junk = []) :
    ∃ s w', (Segment.new path c.base maxSize).open w = (.ok (), s, w') ∧
      Opening w' path dir maxSize (ss ++ [s]) (done ++ [c]) todo ∧
      Frame (ownNames dir c.base) (FileSystem.Named (ownNames dir c.base) w.fs) w w' := by
  obtain ⟨i₀, j₀, hd, hsane⟩ := h.files c List.mem_cons_self
  have hnd := hd.not_isDir
  obtain ⟨s, w', i, j, hopen, ho, hmtime, hmax⟩ := Segment.open_spec (c := c)
    hw h.atDir (hnd _ (Or.inl rfl)) (hnd _ (Or.inr rfl))
    (by rw [FileSystem.contents_file hd.log, hd.bytes, hjunk, List.append_nil])
    (by rw [FileSystem.contents_file hd.log, hd.mtime])
    (by rw [FileSystem.contents_file hd.index]; exact hsane) hd.fits hjunk
  have hfr := (Segment.open_frame (Frame.refl (fun _ => id)) (Segment.Confined.new
    (S := ownNames dir c.base) (I := FileSystem.Named (ownNames dir c.base) w.fs)
    (h.atDir.inside (plain_logName _) (Or.inl rfl))
    (h.atDir.inside (plain_indexName _) (Or.inr rfl)) maxSize)).1
  rw [hopen] at hfr
  have hbases := h.bases
  rw [List.pairwise_append, List.pairwise_cons] at hbases
  refine ⟨s, w', hopen, ⟨?_, ?_, ?_, ?_⟩, hfr⟩
  · exact at_of_within h.atDir hfr.within hnd ho.not_isDir
  · refine forall₂_concat.mpr ⟨?_, ⟨⟨i, j, ho⟩, hmax, hmtime.le⟩, hmtime⟩
    have hne : ∀ d ∈ done, d.base ≠ c.base := fun d hd =>
      (hbases.2.2 d hd c List.mem_cons_self).ne
    exact forall₂_imp_mem h.stands (fun _ d hd hs => ⟨hs.1.frame (hne d hd) hfr.within, hs.2⟩)
  · have htodo : Files w.fs dir todo := fun d hd => h.files d (List.mem_cons_of_mem c hd)
    exact htodo.frame hfr.within (fun d hd => (hbases.2.1.1 d hd).ne')
  · rw [List.append_assoc]
    exact h.bases

/-- Opening goes through the chunks `todo` and leaves those behind them alone. -/
theorem openSegments_spec {todo rest : List Chunk} : ∀ {w : World} {p : Partition}
    {done : List Chunk}, w.Calm →
    Opening w p.path dir p.maxSegmentSize p.older done (todo ++ rest) →
    (∀ c ∈ todo, c.junk = []) →
    ∃ ss size w', Partition.openSegments (todo.map (fun c => (c.base : ℤ))) p w =
        (.ok (), { p with physicalSize := size, older := p.older ++ ss }, w') ∧
      Opening w' p.path dir p.maxSegmentSize (p.older ++ ss) (done ++ todo) rest ∧ w'.Calm ∧
      w'.now = w.now ∧ ∀ n, (∀ c ∈ todo, ¬ ownNames dir c.base (dir ++ [n])) →
        w'.fs.node? (dir ++ [n]) = w.fs.node? (dir ++ [n]) := by
  induction todo with
  | nil =>
      intro w p done hw h _
      refine ⟨[], p.physicalSize, w, ?_, by simpa using h, hw, rfl, fun _ _ => rfl⟩
      simp [Partition.openSegments]
  | cons c todo ih =>
      intro w p done hw h hjunk
      obtain ⟨s, w₁, hopen, h₁, hfr⟩ := h.step hw (hjunk c List.mem_cons_self)
      obtain ⟨ss, size, w', hrest, h', hw', hnow, hnode⟩ := ih
        (p := { p with physicalSize := p.physicalSize + s.size, older := p.older ++ [s] })
        (hfr.calm hw) h₁ (fun d hd => hjunk d (List.mem_cons_of_mem c hd))
      refine ⟨s :: ss, size, w', ?_, ?_, hw', hnow.trans hfr.now, ?_⟩
      · rw [List.map_cons, Partition.openSegments, hopen]
        dsimp only
        rw [hrest]
        simp only [List.append_assoc, List.singleton_append]
      · simpa using h'
      · intro n hn
        rw [hnode n (fun d hd => hn d (List.mem_cons_of_mem c hd)),
          hfr.within.node _ (hn c List.mem_cons_self)]

end MyKafka
