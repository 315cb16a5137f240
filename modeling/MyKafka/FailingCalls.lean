import MyKafka.BrokerOwners
import MyKafka.EmptyLog
import MyKafka.PartitionOwners
import MyKafka.PartitionStep

/-!
# Offsets while calls fail

An open partition counts its messages by itself. Whatever system calls fail, and whatever they leave
behind, the files it has not got to yet have no records in them, so a segment that is opened takes the
count over, and the offsets that are acknowledged have no gaps.
-/

namespace MyKafka

open Posix

/-! ## What is ahead -/

/-- The files of the segments from the offset `b` on. -/
def Ahead (dir : Path) (b : ℕ) (q : Path) : Prop := ∃ m : ℕ, b ≤ m ∧ ownNames dir m q

variable {w w' : World} {dir : Path} {b c n : ℕ} {s : Segment} {q : Path}

theorem Ahead.mono (h : Ahead dir c q) (hb : b ≤ c) : Ahead dir b q := by
  obtain ⟨m, hm, hq⟩ := h
  exact ⟨m, hb.trans hm, hq⟩

theorem ownNames_inj {m m' : ℕ} (h : ownNames dir m q) (h' : ownNames dir m' q) : m = m' := by
  rcases h with rfl | rfl <;> rcases h' with h' | h'
  · have := logName_inj (Int.natCast_nonneg m) (Int.natCast_nonneg m') (by simpa using h')
    exact_mod_cast this
  · exact absurd (by simpa using h') (logName_ne_indexName m m')
  · exact absurd (by simpa using h'.symm) (logName_ne_indexName m' m)
  · have := indexName_inj (Int.natCast_nonneg m) (Int.natCast_nonneg m') (by simpa using h')
    exact_mod_cast this

/-- What is done to files without these names. -/
abbrev Sparing (K : Path → Prop) (w w' : World) : Prop :=
  Frame (fun q => ¬ K q) (fun i => ¬ FileSystem.Named K w.fs i) w w'

section Sparing

variable {K K' S : Path → Prop} {fs : FileSystem}

theorem Sparing.refl (K : Path → Prop) (w : World) : Sparing K w w := by
  refine Frame.refl ?_
  rintro i ⟨q, hq, hi⟩ ⟨q', hq', hi'⟩
  exact hq (FileSystem.node?_inj hi hi' ▸ hq')

theorem Sparing.hollow (hfr : Sparing K w w') (hq : K q) (h : w.Hollow q) : w'.Hollow q :=
  h.frame hfr (not_not.mpr hq) (fun _ hi hno => hno ⟨q, hq, hi⟩)

/-- The segment works on files without these names, and on inodes that were handed out. -/
structure Segment.Beside (K : Path → Prop) (fs : FileSystem) (s : Segment) : Prop where
  confined : s.Confined (fun q => ¬ K q) (fun i => ¬ FileSystem.Named K fs i) fs
  below : ∀ i, s.Uses i → i < fs.nextIno

namespace Segment.Beside

theorem after (hfr : Sparing K w w')
    (hc : s.Confined (fun q => ¬ K q) (fun i => ¬ FileSystem.Named K w.fs i) w.fs)
    (hlt : ∀ i, s.Uses i → i < w'.fs.nextIno) : s.Beside K w'.fs := by
  refine ⟨hc.rebase ?_, hlt⟩
  rintro i hi ⟨q, hq, hnode⟩
  rw [hfr.within.node q (not_not.mpr hq)] at hnode
  rcases hc.mine hi with hge | hno
  · exact absurd (FileSystem.node?_lt hnode) (Nat.not_lt.mpr hge)
  · exact hno ⟨q, hq, hnode⟩

theorem congr {fs' : FileSystem} (h : s.Beside K fs) (hnode : ∀ q, K q → fs'.node? q = fs.node? q)
    (hlt : ∀ i, s.Uses i → i < fs'.nextIno) : s.Beside K fs' := by
  refine ⟨h.confined.rebase ?_, hlt⟩
  rintro i hi ⟨q, hq, hi'⟩
  rw [hnode q hq] at hi'
  rcases h.confined.mine hi with hge | hno
  · exact absurd (h.below i hi) (Nat.not_lt.mpr hge)
  · exact hno ⟨q, hq, hi'⟩

theorem frame (h : s.Beside K w.fs) (hfr : Sparing K w w') : s.Beside K w'.fs :=
  h.congr (fun q hq => hfr.within.node q (not_not.mpr hq))
    (fun i hi => (h.below i hi).trans_le hfr.within.next)

theorem mono (h : s.Beside K fs) (hK : ∀ q, K' q → K q) : s.Beside K' fs := by
  refine ⟨h.confined.mono (fun q hq hq' => hq (hK q hq')) ?_, h.below⟩
  rintro i hno ⟨q, hq, hi⟩
  exact hno ⟨q, hK q hq, hi⟩

theorem own (h : s.Beside K w.fs) (hS : ∀ q, S q → K q)
    (hfr : Frame S (FileSystem.Named S w.fs) w w') : s.Beside K w'.fs := by
  refine ⟨h.confined.rebase ?_, fun i hi => (h.below i hi).trans_le hfr.within.next⟩
  rintro i hi ⟨q, hq, hnode⟩
  have hlt := h.below i hi
  have hno := (h.confined.mine hi).resolve_left (Nat.not_le.mpr hlt)
  by_cases hown : S q
  · rcases hfr.within.mine q i hown hnode with hge | ⟨q', hq', hnode'⟩
    · exact absurd hlt (Nat.not_lt.mpr hge)
    · exact hno ⟨q', hS q' hq', hnode'⟩
  · rw [hfr.within.node q hown] at hnode
    exact hno ⟨q, hq, hnode⟩

theorem write (h : s.Beside K w.fs) (m : Payload) :
    Sparing K w (s.write m w).2.2 ∧ (s.write m w).2.1.Beside K (s.write m w).2.2.fs := by
  have hfr := Segment.write_frame (Sparing.refl K w) h.confined m
  have hgrows := s.write_grows m w
  refine ⟨hfr.1, after hfr.1 hfr.2 (fun i hi => ?_)⟩
  rcases hgrows.uses i hi with hi | hlt
  · exact (h.below i hi).trans_le hgrows.next
  · exact hlt

theorem destroy (h : s.Beside K w.fs) : Sparing K w (s.destroy w) :=
  Segment.destroy_frame (Sparing.refl K w) h.confined

theorem opened {path : RawPath} {base : ℤ} (w : World) (maxSize : ℤ)
    (hlog : Inside (fun q => ¬ K q) (getLogFilename path base))
    (hindex : Inside (fun q => ¬ K q) (getIndexFilename path base)) :
    let out := (Segment.new path base maxSize).open w
    Sparing K w out.2.2 ∧ out.2.1.Beside K out.2.2.fs := by
  have hfr := Segment.open_frame (Sparing.refl K w) (Segment.Confined.new hlog hindex maxSize)
  have hgrows := (Segment.new path base maxSize).open_grows w
  exact ⟨hfr.1, after hfr.1 hfr.2
    (fun i hi => (hgrows.uses i hi).resolve_left (Segment.not_uses_new _ _ _ i))⟩

end Segment.Beside

end Sparing

/-! ## Partitions with nothing ahead -/

namespace Partition

variable {p : Partition}

/-- The pass of retention over segments beside the names. -/
theorem cleanSegments_sparing {K : Path → Prop} {w₀ : World} {ss : List Segment} {res : Result Unit} :
    ∀ {p p' : Partition} {w w' : World}, cleanSegments ss p w = (res, p', w') →
    Sparing K w₀ w →
    (∀ s ∈ p.older ++ ss, s.Confined (fun q => ¬ K q)
      (fun i => ¬ FileSystem.Named K w₀.fs i) w₀.fs) →
    Sparing K w₀ w' ∧ ∀ s ∈ p'.older, s.Confined (fun q => ¬ K q)
      (fun i => ¬ FileSystem.Named K w₀.fs i) w₀.fs := by
  induction ss generalizing res with
  | nil =>
      intro p p' w w' he h hp
      cases he
      exact ⟨h, by simpa using hp⟩
  | cons s ss ih =>
      intro p p' w w' he h hp
      have hd := Segment.deleteSegment_frame h (hp s (by simp))
      have hrest : ∀ t : Segment, t.Confined (fun q => ¬ K q)
          (fun i => ¬ FileSystem.Named K w₀.fs i) w₀.fs →
          ∀ u ∈ p.older ++ [t] ++ ss, u.Confined (fun q => ¬ K q)
            (fun i => ¬ FileSystem.Named K w₀.fs i) w₀.fs := by
        intro t ht u hu
        rw [List.append_assoc, List.singleton_append] at hu
        rcases List.mem_append.mp hu with hu | hu
        · exact hp u (List.mem_append_left _ hu)
        · rcases List.mem_cons.mp hu with rfl | hu
          · exact ht
          · exact hp u (List.mem_append_right _ (List.mem_cons_of_mem s hu))
      rcases cleanSegments_turn he with ⟨res₁, e, -, hr⟩ | ⟨-, hr⟩ | ⟨-, hr⟩
      · exact ih hr hd.1 (hrest _ hd.2)
      · refine ih hr (Segment.destroy_frame hd.1 hd.2) (fun u hu => hp u ?_)
        rcases List.mem_append.mp hu with hu | hu
        · exact List.mem_append_left _ hu
        · exact List.mem_append_right _ (List.mem_cons_of_mem s hu)
      · exact ih hr h (hrest s (hp s (by simp)))

/-- From `b` on there are no records, and no segment has a hand in the files that may be there. -/
structure Clear (dir : Path) (b : ℕ) (w : World) (p : Partition) : Prop where
  atDir : ∃ fs, FileSystem.At fs p.path dir
  segments : ∀ s ∈ p.segments, s.Beside (Ahead dir b) w.fs
  hollow : ∀ m : ℕ, b ≤ m → w.Hollow (dir ++ [logName m])

namespace Clear

theorem older (h : p.Clear dir b w) {s : Segment} (hs : s ∈ p.older) : s.Beside (Ahead dir b) w.fs :=
  h.segments s (List.mem_append_left _ hs)

theorem active (h : p.Clear dir b w) {s : Segment} (hs : p.activeSegment = some s) :
    s.Beside (Ahead dir b) w.fs :=
  h.segments s (List.mem_append_right _ (Option.mem_toList.mpr hs))

theorem of_fs (h : p.Clear dir b w) (hfs : w'.fs = w.fs) : p.Clear dir b w' := by
  refine ⟨h.atDir, fun s hs => ?_, fun m hm => (h.hollow m hm).of_fs hfs⟩
  rw [hfs]
  exact h.segments s hs

theorem mono (h : p.Clear dir b w) (hb : b ≤ c) : p.Clear dir c w :=
  ⟨h.atDir, fun s hs => (h.segments s hs).mono (fun _ hq => hq.mono hb), fun m hm => h.hollow m (hb.trans hm)⟩

theorem hollow_sparing (h : p.Clear dir b w) (hfr : Sparing (Ahead dir b) w w') (m : ℕ) (hm : b ≤ m) :
    w'.Hollow (dir ++ [logName m]) :=
  hfr.hollow ⟨m, hm, Or.inl rfl⟩ (h.hollow m hm)

theorem activate {p' : Partition} (h : p.Clear dir b w) (hfr : Sparing (Ahead dir b) w w')
    (hpath : p'.path = p.path) (holder : ∀ t ∈ p'.older, t.Beside (Ahead dir b) w'.fs)
    (hactive : p'.activeSegment = some s) (hs : s.Beside (Ahead dir b) w'.fs) : p'.Clear dir b w' := by
  refine ⟨hpath ▸ h.atDir, fun t ht => ?_, h.hollow_sparing hfr⟩
  rcases List.mem_append.mp ht with ht | ht
  · exact holder t ht
  · rw [hactive, Option.toList_some, List.mem_singleton] at ht
    exact ht ▸ hs

theorem clean (h : p.Clear dir b w) (hs : p.activeSegment = some s) :
    (p.cleanOldSegments w).2.1.Clear dir b (p.cleanOldSegments w).2.2 := by
  have hg := cleanOldSegments_grows (Grows.refl p.Uses w)
  obtain ⟨res, p', w', he⟩ : ∃ res p' w', p.cleanOldSegments w = (res, p', w') := ⟨_, _, _, rfl⟩
  rw [he] at hg ⊢
  obtain ⟨hfr, hconf⟩ := cleanSegments_sparing he (Sparing.refl (Ahead dir b) w)
    (fun t ht => (h.older ht).confined)
  have hactive := (cleanSegments_active he).trans hs
  have hset := settings_cleanSegments p.older { p with older := [] } w
  rw [show cleanSegments p.older { p with older := [] } w = (res, p', w') from he] at hset
  refine h.activate hfr (congrArg (fun x => x.1) hset) (fun t ht => ?_) hactive
    ((h.active hs).frame hfr)
  refine .after hfr (hconf t ht) (fun i hi => ?_)
  rcases hg.uses i (.of_older ⟨t, ht, hi⟩) with ⟨u, hu, hui⟩ | hlt
  · exact ((h.segments u hu).below i hui).trans_le hg.next
  · exact hlt

end Clear

/-- The active segment counts up to `n`, and nothing is ahead of it. While it is empty its own log may
hold bytes of writes that failed, and what is ahead starts behind it. -/
structure Counting (dir : Path) (n : ℕ) (p : Partition) (w : World) (b : ℕ) (s : Segment) :
    Prop where
  opened : p.cancel = false
  size_nonneg : 0 ≤ p.maxSegmentSize
  active : p.activeSegment = some s
  next : s.nextOffset = n
  maxSize_nonneg : 0 ≤ s.maxSize
  clear : p.Clear dir b w
  bound : b = n ∨ b = n + 1 ∧ s.position = 0

/-- The next message gets the offset `n`. -/
def AtOffset (dir : Path) (n : ℕ) (p : Partition) (w : World) : Prop :=
  ∃ b s, p.Counting dir n w b s

theorem AtOffset.of_fs (h : p.AtOffset dir n w) (hfs : w'.fs = w.fs) : p.AtOffset dir n w' := by
  obtain ⟨b, s, h⟩ := h
  exact ⟨b, s, h.opened, h.size_nonneg, h.active, h.next, h.maxSize_nonneg, h.clear.of_fs hfs, h.bound⟩

theorem AtOffset.newestOffset (h : p.AtOffset dir n w) : p.newestOffset = n := by
  obtain ⟨b, s, h⟩ := h
  rw [Partition.newestOffset, if_neg (by simp [h.opened]), h.active]
  exact h.next

namespace Counting

variable {s' : Segment}

theorem bound_full (h : p.Counting dir n w b s) (hfull : s.isFull) : b = n := by
  refine h.bound.resolve_right ?_
  rintro ⟨-, hpos⟩
  have hsize := h.maxSize_nonneg
  rw [Segment.isFull, hpos] at hfull
  omega

/-- The new segment could not be opened, and nothing is said of what there is of it but that its log
has no bytes. -/
theorem open_failed (h : p.Counting dir n w b s) (hfull : s.isFull) :
    let out := (Segment.new p.path s.nextOffset p.maxSegmentSize).open w
    p.Counting dir n (out.2.1.destroy out.2.2) b s := by
  intro out
  obtain rfl := h.bound_full hfull
  obtain ⟨fs, hat⟩ := h.clear.atDir
  have hopen : out = (Segment.new p.path b p.maxSegmentSize).open w := by rw [← h.next]
  have hfr := Segment.open_frame (Frame.refl (fun _ => id)) (Segment.Confined.new
    (I := FileSystem.Named (ownNames dir b) w.fs)
    (hat.inside (S := ownNames dir b) (plain_logName b) (Or.inl rfl))
    (hat.inside (plain_indexName b) (Or.inr rfl)) p.maxSegmentSize)
  have hdone := Segment.destroy_frame hfr.1 hfr.2
  have hown := (Segment.open_hollow hat b p.maxSegmentSize (h.clear.hollow b le_rfl)).1
  rw [← hopen] at hdone hown
  refine ⟨h.opened, h.size_nonneg, h.active, h.next, h.maxSize_nonneg, ⟨h.clear.atDir, ?_, ?_⟩, h.bound⟩
  · intro t ht
    exact (h.clear.segments t ht).own (fun _ hq => ⟨b, le_rfl, hq⟩) hdone
  · intro m hm
    rcases hm.eq_or_lt with rfl | hlt
    · exact hown
    · have hother : ∀ q, ownNames dir m q → ¬ ownNames dir b q := by
        intro q hq hq'
        exact absurd (ownNames_inj hq hq') (by omega)
      refine (h.clear.hollow m hm).frame hdone (hother _ (Or.inl rfl)) ?_
      rintro i hi ⟨q, hq, hq'⟩
      exact hother q (FileSystem.node?_inj hi hq' ▸ Or.inl rfl) hq

theorem rolled (h : p.Counting dir n w b s) (hfull : s.isFull) {t : Segment} {w' : World}
    (hopen : (Segment.new p.path s.nextOffset p.maxSegmentSize).open w = (.ok (), t, w')) :
    { p with older := p.older ++ [s], activeSegment := some t }.Counting dir n w' (n + 1) t := by
  obtain rfl := h.bound_full hfull
  obtain ⟨fs, hat⟩ := h.clear.atDir
  rw [h.next] at hopen
  have hpassed : ∀ q, ownNames dir b q → ¬ Ahead dir (b + 1) q := by
    rintro q hq ⟨m, hm, hq'⟩
    exact absurd (ownNames_inj hq hq') (by omega)
  have hfr := Segment.Beside.opened w p.maxSegmentSize
    (hat.inside (plain_logName b) (hpassed _ (Or.inl rfl)))
    (hat.inside (plain_indexName b) (hpassed _ (Or.inr rfl)))
  have hmake := (Segment.new p.path b p.maxSegmentSize).open_make w
  have hcounts := (Segment.open_hollow hat b p.maxSegmentSize (h.clear.hollow b le_rfl)).2
  rw [hopen] at hmake hcounts
  dsimp only at hfr
  rw [hopen] at hfr
  obtain ⟨hnext, hpos⟩ := hcounts rfl
  have hclear := h.clear.mono (Nat.le_succ b)
  refine ⟨h.opened, h.size_nonneg, rfl, hnext, ?_, ?_, Or.inr ⟨rfl, hpos⟩⟩
  · rw [hmake.maxSize]
    exact h.size_nonneg
  · refine hclear.activate hfr.1 rfl (fun u hu => ?_) rfl hfr.2
    rcases List.mem_append.mp hu with hu | hu
    · exact (hclear.older hu).frame hfr.1
    · rw [List.mem_singleton.mp hu]
      exact (hclear.active h.active).frame hfr.1

theorem clean (h : p.Counting dir n w b s) :
    (p.cleanOldSegments w).2.1.Counting dir n (p.cleanOldSegments w).2.2 b s := by
  have hclear := h.clear.clean h.active
  obtain ⟨res, p', w', he⟩ : ∃ res p' w', p.cleanOldSegments w = (res, p', w') := ⟨_, _, _, rfl⟩
  have hset := settings_cleanSegments p.older { p with older := [] } w
  rw [show cleanSegments p.older { p with older := [] } w = (res, p', w') from he] at hset
  rw [he] at hclear ⊢
  refine ⟨(cleanSegments_cancel he).trans h.opened, ?_, (cleanSegments_active he).trans h.active,
    h.next, h.maxSize_nonneg, hclear, h.bound⟩
  rw [show p'.maxSegmentSize = p.maxSegmentSize from congrArg (fun x => x.2.1) hset]
  exact h.size_nonneg

end Counting

/-- Rolling keeps the next offset, whether it fails or not. -/
theorem AtOffset.roll (h : p.AtOffset dir n w) (hs : p.activeSegment = some s) :
    (p.roll s w).2.1.AtOffset dir n (p.roll s w).2.2 := by
  obtain ⟨b, s', h⟩ := h
  obtain rfl : s' = s := Option.some.inj (h.active.symm.trans hs)
  unfold Partition.roll
  split_ifs with hfull
  · have hfailed := h.open_failed hfull
    split
    · next e t w₁ he =>
        rw [he] at hfailed
        exact ⟨b, s', hfailed⟩
    · next t w₁ he =>
        have hrolled := h.rolled hfull he
        dsimp only
        split_ifs
        · exact ⟨_, t, hrolled.clean⟩
        · exact ⟨_, t, hrolled⟩
  · exact ⟨b, s', h⟩

end Partition

/-- An append keeps the counts, or it gives the next offset and counts one more. -/
def Segment.Counted (s : Segment) (res : Result ℤ) (s' : Segment) : Prop :=
  (∃ e, res = .error e ∧ s'.nextOffset = s.nextOffset ∧ s'.position = s.position) ∨
    res = .ok s.nextOffset ∧ s'.nextOffset = toInt64 (s.nextOffset + 1)

theorem Segment.Counted.error {s s' : Segment} {e : Error} (hn : s'.nextOffset = s.nextOffset)
    (hp : s'.position = s.position) : s.Counted (.error e) s' := Or.inl ⟨e, rfl, hn, hp⟩

theorem Segment.writeBuffer_counts {s s' : Segment} {m : Payload} {size : ℤ} {res : Result ℤ}
    (h : s.writeBuffer m size w = (res, s', w')) : s.Counted res s' := by
  rw [Segment.writeBuffer] at h
  dsimp only at h
  split_ifs at h
  · cases h
    exact .error rfl rfl
  · cases h
    exact .error rfl rfl
  · generalize (appendPayload _ _ _ _).2 = w₁ at h
    rcases hx : s.index.write s.nextOffset s.position w₁ with ⟨_ | _, x, w₂⟩
    · rw [hx] at h
      cases h
      exact .error rfl rfl
    · rw [hx] at h
      cases h
      exact Or.inr ⟨rfl, rfl⟩

namespace Partition

variable {p : Partition}

/-- A write is refused and keeps the next offset, or it is given that offset. -/
theorem AtOffset.write (h : p.AtOffset dir n w) (hn : n + 1 < 2 ^ 63) (m : Payload) :
    (∃ e, (p.write m w).1 = .error e ∧ (p.write m w).2.1.AtOffset dir n (p.write m w).2.2) ∨
    (p.write m w).1 = .ok (n : ℤ) ∧ (p.write m w).2.1.AtOffset dir (n + 1) (p.write m w).2.2 := by
  obtain ⟨b₀, s₀, h₀⟩ := id h
  have hroll := h.roll h₀.active
  unfold Partition.write
  rw [if_neg (by simp [h₀.opened]), h₀.active]
  dsimp only
  split
  · next e p₁ w₁ he =>
      rw [he] at hroll
      exact Or.inl ⟨e, rfl, hroll⟩
  · next p₁ w₁ he =>
      rw [he] at hroll
      obtain ⟨b, s, h₁⟩ := hroll
      rw [h₁.active]
      dsimp only
      have hs := h₁.clear.active h₁.active
      have hw := hs.write m
      have hmake := (s.write_descs m w₁).toSameMake
      rcases hwrite : s.write m w₁ with ⟨res, s', w'⟩
      have hcount := Segment.writeBuffer_counts hwrite
      rw [hwrite] at hw hmake
      obtain ⟨hfr, hbehind⟩ := hw
      have hmax : 0 ≤ s'.maxSize := by
        rw [show s'.maxSize = s.maxSize from hmake.maxSize]
        exact h₁.maxSize_nonneg
      have hclear : ∀ size, { p₁ with activeSegment := some s', physicalSize := size }.Clear dir b
          w' := fun size => h₁.clear.activate hfr rfl
        (fun t ht => (h₁.clear.older ht).frame hfr) rfl hbehind
      rcases hcount with ⟨e, rfl, hnext, hpos⟩ | ⟨rfl, hnext⟩
      · refine Or.inl ⟨e, rfl, b, s', h₁.opened, h₁.size_nonneg, rfl, hnext.trans h₁.next, hmax,
          hclear p₁.physicalSize, ?_⟩
        rw [hpos]
        exact h₁.bound
      · refine Or.inr ⟨by rw [h₁.next], n + 1, s', h₁.opened, h₁.size_nonneg, rfl, ?_, hmax, ?_,
          Or.inl rfl⟩
        · rw [hnext, h₁.next, toInt64_of_range (by omega) (by omega)]
          push_cast
          rfl
        · refine (hclear _).mono ?_
          rcases h₁.bound with rfl | ⟨rfl, -⟩
          · exact Nat.le_succ b
          · exact le_rfl

theorem Rep.clear {cs : List Chunk} {log : List Payload} (h : Rep w dir p cs log)
    (hb : ∀ c ∈ cs, c.base < b) : p.Clear dir b w := by
  have hpassed : ∀ c ∈ cs, ∀ q, ownNames dir c.base q → ¬ Ahead dir b q := by
    rintro c hc q hq ⟨m, hm, hq'⟩
    have := hb c hc
    exact absurd (ownNames_inj hq hq') (by omega)
  refine ⟨⟨_, h.live.atDir⟩, fun s hs => ?_, fun m hm i hi => ?_⟩
  · obtain ⟨c, hc, hst⟩ := forall₂_mem h.live.stands hs
    obtain ⟨i, j, ho⟩ := hst.opened
    refine ⟨(ho.confined h.live.atDir).mono (hpassed c hc) ?_, fun k hk => ?_⟩
    · rintro k ⟨q, hq, hk⟩ ⟨q', hq', hk'⟩
      exact hpassed c hc q hq (FileSystem.node?_inj hk hk' ▸ hq')
    · obtain ⟨q, -, hk'⟩ := ho.uses hk
      exact FileSystem.node?_lt hk'
  · obtain ⟨c, hc, hq⟩ := h.live.only (logName m) (by rw [hi]; exact Option.some_ne_none _)
    exact absurd (Or.inl rfl) (fun hm' => hpassed c hc _ hq ⟨m, hm, hm'⟩)

end Partition

theorem Holding.last {h : Host} {cs : List Chunk} {log : List Payload} (hh : Holding dir h cs log) :
    ∃ (c : Chunk) (s : Segment), (∀ d ∈ cs, d.base ≤ c.base) ∧ h.partition.activeSegment = some s ∧
      s.baseOffset = c.base ∧ s.nextOffset = (log.length : ℤ) ∧
      s.maxSize = h.partition.maxSegmentSize ∧
      (c.base < log.length ∨ c.base = log.length ∧ s.position = 0) := by
  obtain ⟨init, c, rfl⟩ := hh.rep.exists_last
  obtain ⟨s, hs, -, hst⟩ := hh.rep.last
  obtain ⟨i, j, ho⟩ := hst.opened
  have hnext : s.nextOffset = (log.length : ℤ) := by
    have := Partition.newestOffset_eq hh.rep
    rwa [Partition.newestOffset, if_neg (by simp [hh.rep.opened]), hs] at this
  have hlast : log.length = c.base + c.msgs.length := by
    have := ho.nextOffset
    rw [hnext] at this
    exact_mod_cast this
  refine ⟨c, s, ?_, hs, ho.baseOffset, hnext, hst.maxSize_eq, ?_⟩
  · intro d hd
    rcases List.mem_append.mp hd with hd | hd
    · have hb := Blocks.pairwise_base hh.rep.live.represents.chain
      rw [List.pairwise_append] at hb
      exact (hb.2.2 d hd c (List.mem_singleton_self c)).le
    · rw [List.mem_singleton.mp hd]
  · by_cases hempty : c.msgs = []
    · rw [hempty] at hlast
      refine Or.inr ⟨hlast.symm, ?_⟩
      rw [ho.position, Chunk.size, hempty]
      rfl
    · have hpos := List.length_pos_of_ne_nil hempty
      exact Or.inl (by omega)

theorem Holding.atOffset {h : Host} {cs : List Chunk} {log : List Payload}
    (hh : Holding dir h cs log) : h.partition.AtOffset dir log.length h.world := by
  obtain ⟨c, s, hbase, hs, -, hnext, hmaxSize, hlast⟩ := hh.last
  have hmax : 0 ≤ s.maxSize := by
    rw [hmaxSize]
    exact hh.size_nonneg
  rcases hlast with hlt | ⟨heq, hpos⟩
  · refine ⟨log.length, s, hh.rep.opened, hh.size_nonneg, hs, hnext, hmax,
      hh.rep.clear (fun d hd => ?_), Or.inl rfl⟩
    have := hbase d hd
    omega
  · refine ⟨log.length + 1, s, hh.rep.opened, hh.size_nonneg, hs, hnext, hmax,
      hh.rep.clear (fun d hd => ?_), Or.inr ⟨rfl, hpos⟩⟩
    have := hbase d hd
    omega

/-! ## Runs -/

/-- A step without a restart: it keeps the next offset and acknowledges nothing, or it acknowledges
that offset. -/
theorem Host.step_atOffset {h : Host} (ha : h.partition.AtOffset dir n h.world) {op : PartitionOp}
    (hop : ∀ closing, op ≠ .restart closing) (hn : n + (writes [op]).length < 2 ^ 63) :
    ∃ k ≤ (writes [op]).length, (acks [(op, (h.step op).1)]).filterMap Except.toOption =
        (List.range' n k).map Nat.cast ∧
      (h.step op).2.partition.AtOffset dir (n + k) (h.step op).2.world := by
  cases op with
  | tick seconds => exact ⟨0, le_rfl, rfl, ha.of_fs rfl⟩
  | write m =>
      rcases ha.write hn m with ⟨e, hres, ha'⟩ | ⟨hres, ha'⟩
      · refine ⟨0, Nat.zero_le _, ?_, ha'⟩
        simp [Host.step, acks, hres]
        rfl
      · refine ⟨1, le_rfl, ?_, ha'⟩
        simp [Host.step, acks, hres]
        rfl
  | readAt o => exact ⟨0, le_rfl, rfl, ha.of_fs (Partition.fs_readAt _ _ _)⟩
  | restart closing => exact absurd rfl (hop closing)

theorem acks_append (es es' : List (PartitionOp × PartitionAnswer)) :
    acks (es ++ es') = acks es ++ acks es' := by
  induction es with
  | nil => rfl
  | cons e es ih =>
      obtain ⟨op, a⟩ := e
      cases a with
      | wrote res => rw [List.cons_append, acks, acks, ih, List.cons_append]
      | ticked => rw [List.cons_append, acks, acks, ih]
      | read res payload => rw [List.cons_append, acks, acks, ih]
      | opened res => rw [List.cons_append, acks, acks, ih]

theorem Host.run_atOffset {ops : List PartitionOp} (hops : ∀ closing, .restart closing ∉ ops) :
    ∀ {n : ℕ} {h : Host}, h.partition.AtOffset dir n h.world → n + (writes ops).length < 2 ^ 63 →
    ∃ k, (acks (h.trace ops)).filterMap Except.toOption = (List.range' n k).map Nat.cast ∧
      (h.final ops).partition.AtOffset dir (n + k) (h.final ops).world := by
  induction ops with
  | nil => exact fun ha _ => ⟨0, rfl, ha⟩
  | cons op ops ih =>
      intro n h ha hn
      rw [show writes (op :: ops) = writes [op] ++ writes ops from writes_append [op] ops,
        List.length_append] at hn
      have hop : ∀ closing, op ≠ .restart closing :=
        fun closing he => hops closing (he ▸ List.mem_cons_self)
      obtain ⟨k, hk, hacks, ha'⟩ := h.step_atOffset ha hop (by omega)
      obtain ⟨k', hacks', ha''⟩ := ih (fun closing hm => hops closing (List.mem_cons_of_mem _ hm)) ha'
        (by omega)
      refine ⟨k + k', ?_, by rwa [← Nat.add_assoc]⟩
      have hsplit : acks (h.trace (op :: ops)) =
          acks [(op, (h.step op).1)] ++ acks ((h.step op).2.trace ops) := acks_append [_] _
      rw [hsplit, List.filterMap_append, hacks, hacks', ← List.map_append]
      rw [List.range'_append_1]

/-- Once calls may fail, until the next restart, the writes that are acknowledged get the offsets that
follow the log one after another, and the partition says how many there were. -/
theorem offsets_in_order {path : RawPath} {S M ttl : ℤ} {ops ops' : List PartitionOp}
    (hv : Vacant w path dir) (h0 : 0 ≤ S) (h1 : S < 2 ^ 31) (hpay : Payloads ops)
    (hcount : (writes ops).length + (writes ops').length < 2 ^ 63)
    (hack : Acknowledged ((Host.boot path S M ttl w).2.trace ops))
    (hops : ∀ closing, .restart closing ∉ ops') (outcomes : List Outcome) :
    let h := (Host.boot path S M ttl w).2.final ops
    let h' : Host := { h with world := { h.world with outcomes := outcomes } }
    ∃ k, (acks (h'.trace ops')).filterMap Except.toOption =
        (List.range' (writes ops).length k).map Nat.cast ∧
      (h'.final ops').partition.newestOffset = ((writes ops).length + k : ℕ) := by
  obtain ⟨h, hboot, hre⟩ : ∃ h, Host.boot path S M ttl w = (.ok (), h) ∧ _ := Host.boot_spec hv
  have hsize : h.partition.maxSegmentSize = S := maxSegmentSize_eq hre.settings
  have hh : Holding dir h [emptyChunk 0 w.now] [] :=
    ⟨hre.calm, hre.rep, settled_empty _ _, Partition.addressable_empty _ _, hsize ▸ h0,
      hsize ▸ h1⟩
  rw [hboot] at hack ⊢
  obtain ⟨cs, hh', -⟩ := hh.run (I := fun _ _ _ => True) (fun _ _ _ _ _ _ => trivial) hpay
    (by simp only [List.length_nil]; omega) hack trivial
  obtain ⟨k, hacks, ha⟩ := Host.run_atOffset hops
    (h := ⟨(h.final ops).partition, { (h.final ops).world with outcomes := outcomes }⟩)
    (hh'.atOffset.of_fs rfl) (by simpa using hcount)
  exact ⟨k, hacks, ha.newestOffset⟩

/-- The writes of two messages are acknowledged. -/
theorem two_acknowledged : Acknowledged ((Host.boot ⟨[], []⟩ 20 0 0 (World.blank 0)).2.trace
    [.write [1], .write [2]]) := by
  obtain ⟨h, hboot, hset, href⟩ : ∃ h, Host.boot ⟨[], []⟩ 20 0 0 (World.blank 0) = (.ok (), h) ∧ _ :=
    boot_refines (Vacant.blank 0) (by decide) (by decide)
  rw [hboot]
  apply acknowledged_of_small href
  · rw [show h.partition.maxSegmentSize = 20 from congrArg (fun x => x.2.1) hset]
    decide
  · simp [Payloads, writes]
  · decide

theorem offsets_in_order_short :
    let h := (Host.boot ⟨[], []⟩ 20 0 0 (World.blank 0)).2.final [.write [1], .write [2]]
    let h' : Host := { h with world := { h.world with
      outcomes := List.replicate 11 .ok ++ [.short 3, .fail] } }
    let ops' : List PartitionOp := [.write [3], .write [4], .readAt 0, .write [5], .write [6]]
    (acks (h'.trace ops')).map Except.toOption = [none, none, some 2, some 3] ∧
      (h'.final ops').partition.newestOffset = 4 := by
  intro h h' ops'
  have hacks : (acks (h'.trace ops')).map Except.toOption = [none, none, some 2, some 3] := by
    decide +kernel
  refine ⟨hacks, ?_⟩
  have hv := Vacant.blank 0
  have hpay : Payloads [.write [1], .write [2]] := by simp [Payloads, writes]
  have hcount : (writes [.write [1], .write [2]]).length + (writes ops').length < 2 ^ 63 := by decide
  have hops : ∀ closing, .restart closing ∉ ops' := by simp [ops']
  obtain ⟨k, hk, hnewest⟩ := offsets_in_order hv (show (0 : ℤ) ≤ 20 by decide) (by decide) hpay
    hcount two_acknowledged hops
    (List.replicate 11 .ok ++ [.short 3, .fail])
  -- two writes were acknowledged
  have htwo : k = 2 := by
    have htaken : (acks (h'.trace ops')).filterMap Except.toOption = [2, 3] := by
      rw [show (Except.toOption : Result ℤ → Option ℤ) = id ∘ Except.toOption from rfl,
        ← List.filterMap_map, hacks]
      rfl
    have hlen := congrArg List.length (htaken.symm.trans hk)
    rw [List.length_map, List.length_range'] at hlen
    exact hlen.symm
  rw [hnewest, htwo]
  rfl

end MyKafka
