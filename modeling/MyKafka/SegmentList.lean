import Mathlib.Data.List.Forall2
import MyKafka.Blocks
import MyKafka.SegmentSpec

/-!
# The segments of a directory

`Laid` says how the chunks of a partition lie in its directory: they are blocks of the history, only
the last one may hold bytes without an entry, later ones were written later, and no other name is
there. `Live` adds a list of open segments that stand for them. Deleting the first segment, writing
to the last one, and opening a new one behind it keep both.
-/

namespace MyKafka

open Posix LittleEndian

theorem forall₂_concat {α β : Type} {R : α → β → Prop} {l : List α} {l' : List β} {a : α} {b : β} :
    List.Forall₂ R (l ++ [a]) (l' ++ [b]) ↔ List.Forall₂ R l l' ∧ R a b := by
  rw [← List.forall₂_reverse_iff, List.reverse_append, List.reverse_append]
  simp only [List.reverse_singleton, List.singleton_append, List.forall₂_cons,
    List.forall₂_reverse_iff]
  exact And.comm

theorem forall₂_mem {α β : Type} {R : α → β → Prop} {l : List α} {l' : List β}
    (h : List.Forall₂ R l l') {a : α} (ha : a ∈ l) : ∃ b ∈ l', R a b := by
  induction h with
  | nil => cases ha
  | cons hab _ ih =>
      rcases List.mem_cons.mp ha with rfl | ha
      · exact ⟨_, List.mem_cons_self, hab⟩
      · obtain ⟨b, hb, hr⟩ := ih ha
        exact ⟨b, List.mem_cons_of_mem _ hb, hr⟩

theorem forall₂_getElem? {α β : Type} {R : α → β → Prop} {l : List α} {l' : List β}
    (h : List.Forall₂ R l l') {k : ℕ} {a : α} (ha : l[k]? = some a) :
    ∃ b, l'[k]? = some b ∧ R a b := by
  induction h generalizing k with
  | nil => simp at ha
  | cons hab _ ih =>
      cases k with
      | zero =>
          obtain rfl := Option.some.inj ha
          exact ⟨_, rfl, hab⟩
      | succ k => exact ih ha

theorem forall₂_imp_mem {α β : Type} {R S : α → β → Prop} {l : List α} {l' : List β}
    (h : List.Forall₂ R l l') (hRS : ∀ a, ∀ b ∈ l', R a b → S a b) : List.Forall₂ S l l' := by
  induction h with
  | nil => exact .nil
  | cons hab _ ih =>
      exact .cons (hRS _ _ List.mem_cons_self hab)
        (ih (fun a b hb => hRS a b (List.mem_cons_of_mem _ hb)))

theorem forall₂_pairwise {α β : Type} {R : α → β → Prop} {S : α → α → Prop} {T : β → β → Prop}
    {l : List α} {l' : List β} (h : List.Forall₂ R l l') (hl : l'.Pairwise T)
    (hT : ∀ {a b a' b'}, R a a' → R b b' → T a' b' → S a b) : l.Pairwise S := by
  induction h with
  | nil => exact .nil
  | cons hab hrest ih =>
      rw [List.pairwise_cons] at hl ⊢
      refine ⟨fun b hb => ?_, ih hl.2⟩
      obtain ⟨b', hb', hr⟩ := forall₂_mem hrest hb
      exact hT hab hr (hl.1 b' hb')

theorem forall₂_isChain {α β : Type} {R : α → β → Prop} {S : α → α → Prop} {T : β → β → Prop}
    {l : List α} {l' : List β} (h : List.Forall₂ R l l') (hl : l'.IsChain T)
    (hT : ∀ {a b a' b'}, R a a' → R b b' → T a' b' → S a b) : l.IsChain S := by
  induction h with
  | nil => exact .nil
  | cons hab hrest ih =>
      rw [List.isChain_cons] at hl ⊢
      refine ⟨fun b hb => ?_, ih hl.2⟩
      cases hrest with
      | nil => simp at hb
      | cons hbb _ =>
          obtain rfl := Option.some.inj hb
          exact hT hab hbb (hl.1 _ rfl)

theorem ownNames_disjoint {dir : Path} {b b' : ℕ} (h : b ≠ b') {q : Path}
    (hq : ownNames dir b q) : ¬ ownNames dir b' q := by
  rcases hq with rfl | rfl <;> rintro (hq | hq)
  · have := logName_inj (show (0 : ℤ) ≤ b by omega) (show (0 : ℤ) ≤ b' by omega) (by simpa using hq)
    omega
  · exact logName_ne_indexName b b' (by simpa using hq)
  · exact logName_ne_indexName b' b (by simpa using hq.symm)
  · have := indexName_inj (show (0 : ℤ) ≤ b by omega) (show (0 : ℤ) ≤ b' by omega) (by simpa using hq)
    omega

/-- How chunks lie in a directory. -/
structure Laid (w : World) (dir : Path) (cs : List Chunk) (log : List Payload) : Prop where
  represents : Blocks.Represents Chunk.base Chunk.msgs cs log
  quiet : ∀ c ∈ cs.dropLast, c.junk = []
  mtimes : cs.Pairwise (fun c d => c.mtime ≤ d.mtime)
  past : ∀ c ∈ cs, c.mtime ≤ w.now
  only : ∀ n, w.fs.node? (dir ++ [n]) ≠ none → ∃ c ∈ cs, ownNames dir c.base (dir ++ [n])

/-- The segment is open and stands for the chunk. Its cached modification time may lag behind. -/
structure Stands (fs : FileSystem) (path : RawPath) (dir : Path) (maxSize : ℤ) (s : Segment)
    (c : Chunk) : Prop where
  opened : ∃ i j, OpenAs fs path dir i j s c
  maxSize_eq : s.maxSize = maxSize
  cached : s.mtime ≤ c.mtime

structure Live (w : World) (path : RawPath) (dir : Path) (maxSize : ℤ) (ss : List Segment)
    (cs : List Chunk) (log : List Payload) : Prop extends Laid w dir cs log where
  atDir : FileSystem.At w.fs path dir
  stands : List.Forall₂ (Stands w.fs path dir maxSize) ss cs
  cached : ss.Pairwise (fun s t => s.mtime ≤ t.mtime)

variable {w w' : World} {path : RawPath} {dir : Path} {maxSize : ℤ} {ss : List Segment}
  {cs : List Chunk} {s : Segment} {c d : Chunk} {log : List Payload}

theorem Stands.frame {b : ℕ} (h : Stands w.fs path dir maxSize s c) (hb : c.base ≠ b)
    (hw : FileSystem.Within (ownNames dir b) (FileSystem.Named (ownNames dir b) w.fs) w.fs w'.fs) :
    Stands w'.fs path dir maxSize s c := by
  obtain ⟨i, j, ho⟩ := h.opened
  exact ⟨⟨i, j, ho.frame hw (fun q hq => ownNames_disjoint hb hq)⟩, h.maxSize_eq, h.cached⟩

theorem forall₂_frame {b : ℕ} (h : List.Forall₂ (Stands w.fs path dir maxSize) ss cs)
    (hb : ∀ c ∈ cs, c.base ≠ b)
    (hw : FileSystem.Within (ownNames dir b) (FileSystem.Named (ownNames dir b) w.fs) w.fs w'.fs) :
    List.Forall₂ (Stands w'.fs path dir maxSize) ss cs :=
  forall₂_imp_mem h (fun _ c hc hs => hs.frame (hb c hc) hw)

theorem Laid.base_ne (h : Laid w dir (cs ++ [c]) log) (hd : d ∈ cs) : d.base ≠ c.base := by
  have hp := Blocks.pairwise_base h.represents.chain
  rw [List.pairwise_append] at hp
  exact (hp.2.2 d hd c (List.mem_singleton_self c)).ne

theorem Laid.base_ne_head (h : Laid w dir (c :: cs) log) (hd : d ∈ cs) : d.base ≠ c.base := by
  have hp := Blocks.pairwise_base h.represents.chain
  rw [List.pairwise_cons] at hp
  exact (hp.1 d hd).ne'

/-- A path string keeps leading to the directory when only files of it come and go. -/
theorem at_of_within {S : Path → Prop} {I : ℕ → Prop} (h : FileSystem.At w.fs path dir)
    (hw : FileSystem.Within S I w.fs w'.fs) (hS : ∀ q, S q → ¬ w.fs.IsDir q)
    (hS' : ∀ q, S q → ¬ w'.fs.IsDir q) : FileSystem.At w'.fs path dir :=
  h.congr (FileSystem.isDir_congr hw hS hS')

theorem OnDisk.not_isDir {fs : FileSystem} {i j : ℕ} (h : OnDisk fs dir i j c) (q : Path)
    (hq : ownNames dir c.base q) : ¬ fs.IsDir q := by
  rcases hq with rfl | rfl
  · rw [FileSystem.IsDir, h.log]
    simp
  · rw [FileSystem.IsDir, h.index]
    simp

/-- Neither name of a base offset is taken in a directory that only holds other chunks. -/
theorem Laid.free_names {b : ℕ} (h : Laid w dir cs log) (hb : ∀ c ∈ cs, c.base ≠ b) :
    w.fs.node? (dir ++ [logName b]) = none ∧ w.fs.node? (dir ++ [indexName b]) = none := by
  have hfree : ∀ n, ownNames dir b (dir ++ [n]) → w.fs.node? (dir ++ [n]) = none := by
    intro n hn
    by_contra hne
    obtain ⟨c, hc, hcn⟩ := h.only n hne
    exact ownNames_disjoint (hb c hc) hcn hn
  exact ⟨hfree _ (Or.inl rfl), hfree _ (Or.inr rfl)⟩

namespace Live

theorem delete_head (hw : w.Calm) (h : Live w path dir maxSize (s :: ss) (c :: cs) log)
    (hne : cs ≠ []) :
    ∃ s' w', s.deleteSegment w = (.ok (), s', w') ∧ s'.Shut ∧
      Live w' path dir maxSize ss cs log ∧ w'.Calm ∧ w'.now = w.now := by
  have hst := h.stands
  rw [List.forall₂_cons] at hst
  obtain ⟨i, j, ho⟩ := hst.1.opened
  obtain ⟨s', w', hdel, hshut, hgone⟩ := Segment.deleteSegment_spec hw h.atDir ho
  have hfr := Segment.deleteSegment_frame (Frame.refl (fun _ => id)) (ho.confined h.atDir)
  rw [hdel] at hfr
  have hnow : w'.now = w.now := hfr.1.now
  refine ⟨s', w', hdel, hshut, ⟨⟨?_, ?_, ?_, ?_, ?_⟩, ?_, ?_, ?_⟩, hfr.1.calm hw, hnow⟩
  · have := h.represents.drop (k := 1)
      (by rw [List.length_cons]; have := List.length_pos_of_ne_nil hne; omega)
    simpa using this
  · intro d hd
    apply h.quiet
    rw [List.dropLast_cons_of_ne_nil hne]
    exact List.mem_cons_of_mem _ hd
  · exact (List.pairwise_cons.mp h.mtimes).2
  · intro d hd
    rw [hnow]
    exact h.past d (List.mem_cons_of_mem _ hd)
  · intro n hn
    by_cases hown : ownNames dir c.base (dir ++ [n])
    · exact absurd (hgone _ hown) hn
    · rw [hfr.1.within.node _ hown] at hn
      obtain ⟨d, hd, hdn⟩ := h.only n hn
      rcases List.mem_cons.mp hd with rfl | hd
      · exact absurd hdn hown
      · exact ⟨d, hd, hdn⟩
  · refine at_of_within h.atDir hfr.1.within ho.not_isDir ?_
    intro q hq
    rw [FileSystem.IsDir, hgone q hq]
    simp
  · exact forall₂_frame hst.2 (fun d hd => h.base_ne_head hd) hfr.1.within
  · exact (List.pairwise_cons.mp h.cached).2

/-- What a step on the last segment alone leaves. -/
theorem replace_last (h : Live w path dir maxSize (ss ++ [s]) (cs ++ [c]) log) {s' : Segment}
    {c' : Chunk} {log' : List Payload} {i j : ℕ}
    (hw : Frame (ownNames dir c.base) (FileSystem.Named (ownNames dir c.base) w.fs) w w')
    (ho : OpenAs w'.fs path dir i j s' c') (hbase : c'.base = c.base)
    (hmtime : c'.mtime = w.now) (hcached : s'.mtime = s.mtime) (hmax : s'.maxSize = s.maxSize)
    (hrep : Blocks.Represents Chunk.base Chunk.msgs (cs ++ [c']) log') :
    Live w' path dir maxSize (ss ++ [s']) (cs ++ [c']) log' := by
  obtain ⟨hss, hs⟩ := forall₂_concat.mp h.stands
  obtain ⟨i₀, j₀, ho₀⟩ := hs.opened
  have hpast := h.past
  refine ⟨⟨hrep, ?_, ?_, ?_, ?_⟩, ?_, ?_, ?_⟩
  · have hq := h.quiet
    rw [List.dropLast_concat] at hq ⊢
    exact hq
  · have hm := h.mtimes
    rw [List.pairwise_append] at hm ⊢
    refine ⟨hm.1, List.pairwise_singleton _ _, ?_⟩
    intro d hd e he
    rw [List.mem_singleton.mp he, hmtime]
    exact hpast d (List.mem_append_left _ hd)
  · intro d hd
    rw [hw.now]
    rcases List.mem_append.mp hd with hd | hd
    · exact hpast d (List.mem_append_left _ hd)
    · rw [List.mem_singleton.mp hd, hmtime]
  · intro n hn
    by_cases hown : ownNames dir c.base (dir ++ [n])
    · exact ⟨c', by simp, by rwa [hbase]⟩
    · rw [hw.within.node _ hown] at hn
      obtain ⟨d, hd, hdn⟩ := h.only n hn
      rcases List.mem_append.mp hd with hd | hd
      · exact ⟨d, List.mem_append_left _ hd, hdn⟩
      · rw [List.mem_singleton.mp hd] at hdn
        exact absurd hdn hown
  · refine at_of_within h.atDir hw.within ho₀.not_isDir ?_
    rw [← hbase]
    exact ho.not_isDir
  · refine forall₂_concat.mpr ⟨forall₂_frame hss (fun d hd => h.base_ne hd) hw.within, ⟨i, j, ho⟩,
      hmax.trans hs.maxSize_eq, ?_⟩
    rw [hcached, hmtime]
    exact hs.cached.trans (hpast c (by simp))
  · have hc := h.cached
    rw [List.pairwise_append] at hc ⊢
    refine ⟨hc.1, List.pairwise_singleton _ _, ?_⟩
    intro t ht u hu
    rw [List.mem_singleton.mp hu, hcached]
    exact hc.2.2 t ht s (List.mem_singleton_self s)

theorem last_frame (h : Live w path dir maxSize (ss ++ [s]) (cs ++ [c]) log) (m : Payload) :
    Frame (ownNames dir c.base) (FileSystem.Named (ownNames dir c.base) w.fs) w
      (s.write m w).2.2 := by
  obtain ⟨i, j, ho⟩ := (forall₂_concat.mp h.stands).2.opened
  exact (Segment.write_frame (Frame.refl (fun _ => id)) (ho.confined h.atDir) m).1

theorem next_last (h : Live w path dir maxSize ss (cs ++ [c]) log) : c.next = log.length :=
  h.represents.next_last

theorem write_last (hw : w.Calm) (h : Live w path dir maxSize (ss ++ [s]) (cs ++ [c]) log)
    (hroom : c.msgs.length < 1310720) {m : Payload} (hm : m.length < 2 ^ 31)
    (hlog : log.length + 1 < 2 ^ 63) :
    ∃ s' w', s.write m w = (.ok (log.length : ℤ), s', w') ∧
      Live w' path dir maxSize (ss ++ [s']) (cs ++ [c.push m w.now]) (log ++ [m]) ∧
      s'.mtime = s.mtime ∧ w'.Calm ∧ w'.now = w.now := by
  have hfr := h.last_frame m
  have hnext := h.next_last
  obtain ⟨i, j, ho⟩ := (forall₂_concat.mp h.stands).2.opened
  obtain ⟨s', w', hwrite, ho', hmtime, hmax⟩ := Segment.write_ok hw ho hroom hm (by omega)
  rw [hwrite] at hfr
  refine ⟨s', w', by rw [hwrite, hnext], ?_, hmtime, hfr.calm hw, hfr.now⟩
  exact h.replace_last hfr ho' rfl rfl hmtime hmax (h.represents.append rfl rfl)

theorem write_last_full (hw : w.Calm)
    (h : Live w path dir maxSize (ss ++ [s]) (cs ++ [c]) log) (hfull : c.msgs.length = 1310720)
    {m : Payload} (hm : m.length < 2 ^ 31) :
    ∃ e w' c', s.write m w = (.error e, s, w') ∧
      Live w' path dir maxSize (ss ++ [s]) (cs ++ [c']) log ∧ c'.base = c.base ∧
      c'.msgs = c.msgs ∧ w'.Calm ∧ w'.now = w.now := by
  have hfr := h.last_frame m
  obtain ⟨i, j, ho⟩ := (forall₂_concat.mp h.stands).2.opened
  obtain ⟨e, w', hwrite, ho'⟩ := Segment.write_full hw ho hfull hm
  rw [hwrite] at hfr
  exact ⟨e, w', _, hwrite, h.replace_last hfr ho' rfl rfl rfl rfl (h.represents.replace rfl rfl),
    rfl, rfl, hfr.calm hw, hfr.now⟩

/-- Rolling to a new segment behind a last one that is not empty. -/
theorem roll_last (hw : w.Calm) (h : Live w path dir maxSize ss (cs ++ [c]) log)
    (hne : c.msgs ≠ []) (hjunk : c.junk = []) (hlog : log.length < 2 ^ 63) :
    ∃ t w', (Segment.new path c.next maxSize).open w = (.ok (), t, w') ∧
      Live w' path dir maxSize (ss ++ [t]) (cs ++ [c] ++ [emptyChunk c.next w.now]) log ∧
      t.mtime = w.now ∧ w'.Calm ∧ w'.now = w.now := by
  have hb : ∀ d ∈ cs ++ [c], d.base ≠ c.next := by
    intro d hd
    have hpos := List.length_pos_of_ne_nil hne
    have hp := Blocks.pairwise_base h.represents.chain
    rw [List.pairwise_append] at hp
    rcases List.mem_append.mp hd with hd | hd
    · have := hp.2.2 d hd c (List.mem_singleton_self c)
      unfold Chunk.next
      omega
    · rw [List.mem_singleton.mp hd]
      unfold Chunk.next
      omega
  have hnext := h.next_last
  obtain ⟨hl, hx⟩ := h.toLaid.free_names hb
  have hbase : (emptyChunk c.next w.now).base = c.next := rfl
  obtain ⟨t, w', i, j, hopen, ho, hmtime, hmax⟩ := Segment.open_spec (c := emptyChunk c.next w.now)
    hw h.atDir
    (by rw [hbase, FileSystem.IsDir, hl]; simp) (by rw [hbase, FileSystem.IsDir, hx]; simp)
    (by rw [hbase, FileSystem.contents_none hl]; rfl)
    (by rw [hbase, FileSystem.contents_none hl]; rfl)
    (by rw [hbase, FileSystem.contents_none hx]; exact Index.Sane.empty)
    (emptyChunk_fits (by omega) _) rfl
  have hfr := (Segment.open_frame (Frame.refl (fun _ => id)) (Segment.Confined.new
    (S := ownNames dir c.next) (I := FileSystem.Named (ownNames dir c.next) w.fs)
    (h.atDir.inside (plain_logName _) (Or.inl rfl))
    (h.atDir.inside (plain_indexName _) (Or.inr rfl)) maxSize)).1
  rw [hbase] at hopen
  rw [hopen] at hfr
  have hnow : w'.now = w.now := hfr.now
  refine ⟨t, w', hopen, ⟨⟨h.represents.roll hne rfl rfl, ?_, ?_, ?_, ?_⟩, ?_, ?_, ?_⟩, hmtime,
    hfr.calm hw, hnow⟩
  · intro d hd
    rw [List.dropLast_concat] at hd
    rcases List.mem_append.mp hd with hd | hd
    · exact h.quiet d (by rwa [List.dropLast_concat])
    · rw [List.mem_singleton.mp hd, hjunk]
  · rw [List.pairwise_append]
    refine ⟨h.mtimes, List.pairwise_singleton _ _, ?_⟩
    intro d hd e he
    rw [List.mem_singleton.mp he]
    exact h.past d hd
  · intro d hd
    rw [hnow]
    rcases List.mem_append.mp hd with hd | hd
    · exact h.past d hd
    · rw [List.mem_singleton.mp hd]
      exact le_rfl
  · intro n hn
    by_cases hown : ownNames dir c.next (dir ++ [n])
    · exact ⟨emptyChunk c.next w.now, by simp, hown⟩
    · rw [hfr.within.node _ hown] at hn
      obtain ⟨d, hd, hdn⟩ := h.only n hn
      exact ⟨d, List.mem_append_left _ hd, hdn⟩
  · refine at_of_within h.atDir hfr.within ?_ ho.not_isDir
    rintro q (rfl | rfl)
    · rw [FileSystem.IsDir, hl]
      simp
    · rw [FileSystem.IsDir, hx]
      simp
  · exact forall₂_concat.mpr ⟨forall₂_frame h.stands hb hfr.within, ⟨i, j, ho⟩, hmax, hmtime.le⟩
  · rw [List.pairwise_append]
    refine ⟨h.cached, List.pairwise_singleton _ _, ?_⟩
    intro u hu v hv
    rw [List.mem_singleton.mp hv, hmtime]
    obtain ⟨d, hd, hst⟩ := forall₂_mem h.stands hu
    exact hst.cached.trans (h.past d hd)

end Live

end MyKafka
