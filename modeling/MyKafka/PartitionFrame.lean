import MyKafka.Partition
import MyKafka.SegmentFiles

/-!
# What a partition touches

Whatever the kernel answers, a partition touches only names in its directory and inodes it opened or
found there. Every operation keeps the partition confined in this sense.
-/

namespace MyKafka

open Posix LittleEndian

/-- The path string names an entry `dir` of a directory that is there. -/
structure Home (fs : FileSystem) (path : RawPath) (dir : Path) : Prop where
  single : ∃ r b n, path = r.child n ∧ dir = b ++ [n] ∧ PlainName n ∧ FileSystem.At fs r b

namespace Home

variable {I : ℕ → Prop} {w₀ w : World} {fs : FileSystem} {path : RawPath} {dir : Path}

theorem not_under (b : Path) (n : Name) (q : Path) (hq : Under (b ++ [n]) q) : ¬ q <+: b := by
  intro h
  have := (hq.trans h).length_le
  simp at this

theorem leads (h : Home fs path dir) {fs' : FileSystem} {p : Path}
    (hp : fs'.resolve path = some p) : p = dir := by
  obtain ⟨r, b, n, rfl, rfl, hn, hat⟩ := h.single
  exact (hat.inside (S := fun q => q = b ++ [n]) hn rfl fs' p hp).1

theorem child (h : Home fs path dir) {m : Name} (hm : PlainName m) :
    Inside (Under dir) (path.child m) := by
  obtain ⟨r, b, n, rfl, rfl, hn, hat⟩ := h.single
  intro fs' p hp
  have hplain : ∀ k ∈ r.comps ++ [n] ++ [m], PlainName k := by
    intro k hk
    rcases List.mem_append.mp hk with hk | hk
    · rcases List.mem_append.mp hk with hk | hk
      · exact hat.plain k hk
      · exact List.mem_singleton.mp hk ▸ hn
    · exact List.mem_singleton.mp hk ▸ hm
  have hp' : p = b ++ [n] ++ [m] := by
    rw [FileSystem.walk_plain hplain hp, ← hat.spells]
    simp [RawPath.child]
  subst hp'
  exact ⟨List.prefix_append _ _, by simp⟩

theorem createDirectories (hp : Home w₀.fs path dir) (h : Frame (Under dir) I w₀ w) :
    Frame (Under dir) I w₀ (w.createDirectories path).2 := by
  obtain ⟨r, b, n, rfl, rfl, hn, hat⟩ := hp.single
  exact h.createDirectories hat hn (not_under b n) (List.prefix_refl _)

theorem removeAll (hp : Home fs path dir) (h : Frame (Under dir) I w₀ w) :
    Frame (Under dir) I w₀ (w.removeAll path) := by
  refine h.removeAll ?_
  intro fs' p hpath q hq
  exact hp.leads hpath ▸ hq

theorem segment {fs' : FileSystem} (hp : Home fs path dir) (base maxSize : ℤ) :
    (Segment.new path base maxSize).Confined (Under dir) I fs' :=
  .new (hp.child (plain_logName base)) (hp.child (plain_indexName base)) maxSize

theorem frame (hp : Home w₀.fs path dir) {S : Path → Prop} (h : Frame S I w₀ w)
    (hS : ∀ q, S q → ¬ q <+: dir.dropLast) : Home w.fs path dir := by
  obtain ⟨r, b, n, rfl, rfl, hn, hat⟩ := hp.single
  rw [List.dropLast_concat] at hS
  exact ⟨r, b, n, rfl, rfl, hn, h.atDir hat hS⟩

end Home

namespace Partition

structure Confined (dir : Path) (I : ℕ → Prop) (fs : FileSystem) (p : Partition) : Prop where
  home : Home fs p.path dir
  older : ∀ s ∈ p.older, s.Confined (Under dir) I fs
  active : ∀ s ∈ p.activeSegment, s.Confined (Under dir) I fs

variable {dir : Path} {I : ℕ → Prop} {w₀ w : World} {p : Partition}

theorem Confined.new {fs : FileSystem} {path : RawPath} (h : Home fs path dir)
    (maxSegmentSize maxPartitionSize segmentTtl : ℤ) :
    (Partition.new path maxSegmentSize maxPartitionSize segmentTtl).Confined dir I fs :=
  ⟨h, by simp [Partition.new], by simp [Partition.new]⟩

theorem Confined.segments {fs : FileSystem} (hp : p.Confined dir I fs) :
    ∀ s ∈ p.segments, s.Confined (Under dir) I fs := by
  intro s hs
  rcases List.mem_append.mp hs with hs | hs
  · exact hp.older s hs
  · exact hp.active s (Option.mem_toList.mp hs)

theorem Confined.push {fs : FileSystem} (hp : p.Confined dir I fs) {s : Segment}
    (hs : s.Confined (Under dir) I fs) : { p with older := p.older ++ [s] }.Confined dir I fs := by
  refine ⟨hp.home, ?_, hp.active⟩
  intro t ht
  rcases List.mem_append.mp ht with ht | ht
  · exact hp.older t ht
  · exact List.mem_singleton.mp ht ▸ hs

theorem Confined.activate {fs : FileSystem} (hp : p.Confined dir I fs) {s : Segment}
    (hs : s.Confined (Under dir) I fs) : { p with activeSegment := some s }.Confined dir I fs := by
  refine ⟨hp.home, hp.older, ?_⟩
  intro t ht
  exact Option.some.inj ht ▸ hs

theorem cleanSegments_frame {ss : List Segment} : ∀ {p : Partition} {w : World}, Frame (Under dir) I w₀ w →
    p.Confined dir I w₀.fs → (∀ s ∈ ss, s.Confined (Under dir) I w₀.fs) →
    Frame (Under dir) I w₀ (cleanSegments ss p w).2.2 ∧
      (cleanSegments ss p w).2.1.Confined dir I w₀.fs := by
  induction ss with
  | nil => exact fun h hp _ => ⟨h, hp⟩
  | cons s ss ih =>
      intro p w h hp hss
      have hs := hss s List.mem_cons_self
      have hrest : ∀ t ∈ ss, t.Confined (Under dir) I w₀.fs := fun t ht => hss t (List.mem_cons_of_mem s ht)
      have hd := Segment.deleteSegment_frame h hs
      rw [cleanSegments]
      split_ifs
      · split
        · next e t w₁ he =>
            rw [he] at hd
            have hr := ih hd.1 (hp.push hd.2) hrest
            split
            · next he' =>
                rw [he'] at hr
                exact hr
            · next he' =>
                rw [he'] at hr
                exact hr
        · next t w₁ he =>
            rw [he] at hd
            exact ih (Segment.destroy_frame hd.1 hd.2) ⟨hp.home, hp.older, hp.active⟩ hrest
      · exact ih h (hp.push hs) hrest

theorem cleanOldSegments_frame (h : Frame (Under dir) I w₀ w) (hp : p.Confined dir I w₀.fs) :
    Frame (Under dir) I w₀ (p.cleanOldSegments w).2.2 ∧
      (p.cleanOldSegments w).2.1.Confined dir I w₀.fs :=
  cleanSegments_frame h ⟨hp.home, by simp, hp.active⟩ hp.older

theorem openSegments_frame (bases : List ℤ) : ∀ {p : Partition} {w : World},
    Frame (Under dir) I w₀ w → p.Confined dir I w₀.fs →
    Frame (Under dir) I w₀ (openSegments bases p w).2.2 ∧
      (openSegments bases p w).2.1.Confined dir I w₀.fs := by
  induction bases with
  | nil => exact fun h hp => ⟨h, hp⟩
  | cons base bases ih =>
      intro p w h hp
      have ho := Segment.open_frame h (hp.home.segment base p.maxSegmentSize)
      rw [openSegments]
      split
      · next e s w₁ he =>
          rw [he] at ho
          exact ⟨Segment.destroy_frame ho.1 ho.2, hp⟩
      · next s w₁ he =>
          rw [he] at ho
          have hpush := hp.push ho.2
          exact ih ho.1 ⟨hpush.home, hpush.older, hpush.active⟩

theorem openFiles_frame (h : Frame (Under dir) I w₀ w) (hp : p.Confined dir I w₀.fs) :
    Frame (Under dir) I w₀ (p.openFiles w).2.2 ∧ (p.openFiles w).2.1.Confined dir I w₀.fs := by
  have ho := openSegments_frame (fillFilesList w p.path) h hp
  unfold openFiles
  split
  · next e p₁ w₁ he =>
      rw [he] at ho
      exact ho
  · next p₁ w₁ he =>
      rw [he] at ho
      split
      · next s hs =>
          have hc := cleanOldSegments_frame (p := { p₁ with
            older := p₁.older.dropLast, activeSegment := some s }) ho.1
            ⟨ho.2.home, fun t ht => ho.2.older t (List.mem_of_mem_dropLast ht), fun t ht =>
              Option.some.inj ht ▸ ho.2.older s (List.mem_of_getLast? hs)⟩
          split
          next he' =>
            rw [he'] at hc
            exact hc
      · have hnew := Segment.open_frame ho.1 (ho.2.home.segment 0 p₁.maxSegmentSize)
        split
        · next e s w₂ he' =>
            rw [he'] at hnew
            exact ⟨Segment.destroy_frame hnew.1 hnew.2, ho.2⟩
        · next s w₂ he' =>
            rw [he'] at hnew
            have hc := cleanOldSegments_frame hnew.1 (ho.2.activate hnew.2)
            split
            next he'' =>
              rw [he''] at hc
              exact hc

theorem open_frame (h : Frame (Under dir) I w₀ w) (hp : p.Confined dir I w₀.fs) :
    Frame (Under dir) I w₀ (p.open w).2.2 ∧ (p.open w).2.1.Confined dir I w₀.fs := by
  have hd := hp.home.createDirectories h
  unfold Partition.open
  split
  · next w₁ he =>
      rw [he] at hd
      exact ⟨hd, hp⟩
  · next w₁ he =>
      rw [he] at hd
      exact openFiles_frame hd hp

theorem roll_frame (h : Frame (Under dir) I w₀ w) (hp : p.Confined dir I w₀.fs) {active : Segment}
    (ha : active.Confined (Under dir) I w₀.fs) :
    Frame (Under dir) I w₀ (p.roll active w).2.2 ∧ (p.roll active w).2.1.Confined dir I w₀.fs := by
  have ho := Segment.open_frame h (hp.home.segment active.nextOffset p.maxSegmentSize)
  unfold roll
  split_ifs
  · split
    · next e s w₁ he =>
        rw [he] at ho
        exact ⟨Segment.destroy_frame ho.1 ho.2, hp⟩
    · next s w₁ he =>
        rw [he] at ho
        have hp' := (hp.push ha).activate ho.2
        have hc := cleanOldSegments_frame ho.1 hp'
        dsimp only
        split_ifs
        · exact hc
        · exact ⟨ho.1, hp'⟩
  · exact ⟨h, hp⟩

theorem write_frame (h : Frame (Under dir) I w₀ w) (hp : p.Confined dir I w₀.fs) (payload : Payload) :
    Frame (Under dir) I w₀ (p.write payload w).2.2 ∧
      (p.write payload w).2.1.Confined dir I w₀.fs := by
  unfold Partition.write
  split_ifs
  · exact ⟨h, hp⟩
  · split
    · exact ⟨h, hp⟩
    · next active ha =>
        have hr := roll_frame h hp (hp.active active ha)
        split
        · next e p₁ w₁ he =>
            rw [he] at hr
            exact hr
        · next p₁ w₁ he =>
            rw [he] at hr
            split
            · exact hr
            · next active₁ ha₁ =>
                have hw := Segment.write_frame hr.1 (hr.2.active active₁ ha₁) payload
                split
                · next e s w₂ he' =>
                    rw [he'] at hw
                    exact ⟨hw.1, hr.2.activate hw.2⟩
                · next offset s w₂ he' =>
                    rw [he'] at hw
                    have hact := hr.2.activate hw.2
                    exact ⟨hw.1, hact.home, hact.older, hact.active⟩

theorem closeSegments_frame {ss : List Segment} : ∀ {w : World}, Frame (Under dir) I w₀ w →
    (∀ s ∈ ss, s.Confined (Under dir) I w₀.fs) →
    Frame (Under dir) I w₀ (closeSegments ss w).2.2 ∧
      ∀ s ∈ (closeSegments ss w).2.1, s.Confined (Under dir) I w₀.fs := by
  induction ss with
  | nil => exact fun h _ => ⟨h, by simp [closeSegments]⟩
  | cons s ss ih =>
      intro w h hss
      have hc := Segment.close_frame h (hss s List.mem_cons_self)
      have hrest : ∀ t ∈ ss, t.Confined (Under dir) I w₀.fs := fun t ht => hss t (List.mem_cons_of_mem s ht)
      rw [closeSegments]
      split
      · next e t w₁ he =>
          rw [he] at hc
          refine ⟨hc.1, fun u hu => ?_⟩
          rcases List.mem_cons.mp hu with rfl | hu
          · exact hc.2
          · exact hrest u hu
      · next t w₁ he =>
          rw [he] at hc
          have hr := ih (Segment.destroy_frame hc.1 hc.2) hrest
          split
          next res ts w₂ he' =>
            rw [he'] at hr
            refine ⟨hr.1, fun u hu => ?_⟩
            rcases List.mem_cons.mp hu with rfl | hu
            · exact hc.2
            · exact hr.2 u hu

theorem close_frame (h : Frame (Under dir) I w₀ w) (hp : p.Confined dir I w₀.fs) :
    Frame (Under dir) I w₀ (p.close w).2.2 ∧ (p.close w).2.1.Confined dir I w₀.fs := by
  have hc := closeSegments_frame h hp.segments
  unfold Partition.close
  split
  · next e ss w₁ he =>
      rw [he] at hc
      exact ⟨hc.1, hp.home, hc.2, by simp⟩
  · next ss w₁ he =>
      rw [he] at hc
      exact ⟨hc.1, hp.home, by simp, by simp⟩

theorem destroy_frame (h : Frame (Under dir) I w₀ w) (hp : p.Confined dir I w₀.fs) :
    Frame (Under dir) I w₀ (p.destroy w) := (close_frame h hp).1

theorem deletePartition_frame (h : Frame (Under dir) I w₀ w) (hp : p.Confined dir I w₀.fs) :
    Frame (Under dir) I w₀ (p.deletePartition w).2.2 ∧
      (p.deletePartition w).2.1.Confined dir I w₀.fs := by
  have hc := close_frame h hp
  unfold Partition.deletePartition
  split
  · next e p₁ w₁ he =>
      rw [he] at hc
      exact hc
  · next p₁ w₁ he =>
      rw [he] at hc
      exact ⟨hc.2.home.removeAll hc.1, hc.2⟩

end Partition

end MyKafka
