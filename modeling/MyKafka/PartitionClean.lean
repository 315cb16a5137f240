import MyKafka.PartitionSize

/-!
# What retention deletes

When all deletions succeed and segments are listed by age, a pass of retention deletes the shortest
prefix of the segments that are not active that leaves none too old and keeps to the size limit.
-/

namespace Posix.World

variable {w w' : World}

@[simp] theorem now_munmap (w : World) (a : Addr) : (w.munmap a).2.now = w.now := by
  have hs := w.now_served
  unfold munmap
  split <;> simp_all

@[simp] theorem now_close (w : World) (d : Desc) : (w.close d).2.now = w.now := by
  have hs := w.now_served
  unfold close
  split <;> simp_all

@[simp] theorem now_ftruncate (w : World) (d : Desc) (size : ℤ) :
    (w.ftruncate d size).2.now = w.now := by
  have hs := w.now_served
  unfold ftruncate
  split
  · split_ifs <;> simp_all [setImage]
  · simp_all

@[simp] theorem now_unlink (w : World) (r : RawPath) : (w.unlink r).2.now = w.now := by
  have hs := w.now_served
  unfold unlink
  split
  · simp_all
  · split
    · simp_all
    · split <;> simp_all

end Posix.World

namespace MyKafka

open Posix MyKafka.Partition

theorem Index.now_close (x : Index) (w : World) : (x.close w).2.2.now = w.now := by
  have h₁ := w.now_munmap x.addr
  unfold Index.close
  split_ifs
  · rfl
  · split
    · next w₁ he =>
        rw [he] at h₁
        exact h₁
    · next w₁ he =>
        rw [he] at h₁
        have h₂ := (w₁.now_ftruncate x.fd x.position).trans h₁
        dsimp only
        split
        · next w₂ he₂ =>
            rw [he₂] at h₂
            exact h₂
        · next w₂ he₂ =>
            rw [he₂] at h₂
            have h₃ := (w₂.now_close x.fd).trans h₂
            split
            · next w₃ he₃ =>
                rw [he₃] at h₃
                exact h₃
            · next w₃ he₃ =>
                rw [he₃] at h₃
                exact h₃

theorem Index.now_deleteIndex (x : Index) (w : World) : (x.deleteIndex w).2.now = w.now := by
  have h := w.now_unlink x.filename
  unfold Index.deleteIndex
  split <;> simp_all

namespace Segment

theorem now_close (s : Segment) (w : World) : (s.close w).2.2.now = w.now := by
  have h₁ := w.now_close s.fd
  unfold Segment.close
  split_ifs
  · rfl
  · split
    · next w₁ he =>
        rw [he] at h₁
        exact h₁
    · next w₁ he =>
        rw [he] at h₁
        have h₂ := (w₁.now_close s.fdRead).trans h₁
        split
        · next w₂ he₂ =>
            rw [he₂] at h₂
            exact h₂
        · next w₂ he₂ =>
            rw [he₂] at h₂
            exact (s.index.now_close w₂).trans h₂

theorem now_destroy (s : Segment) (w : World) : (s.destroy w).now = w.now :=
  (Index.now_close _ _).trans (s.now_close w)

theorem now_deleteSegment (s : Segment) (w : World) : (s.deleteSegment w).2.2.now = w.now := by
  have h₁ := s.now_close w
  unfold deleteSegment
  split
  next t w₁ he =>
    rw [he] at h₁
    have h₂ := (w₁.now_unlink t.filename).trans h₁
    split
    · next w₂ he₂ =>
        rw [he₂] at h₂
        exact h₂
    · next w₂ he₂ =>
        rw [he₂] at h₂
        exact (t.index.now_deleteIndex w₂).trans h₂

end Segment

/-! ## The pass -/

/-- Deleting segments one after the other. -/
def deleteAll : List Segment → World → World
  | [], w => w
  | s :: ss, w =>
    match s.deleteSegment w with
    | (_, t, w) => deleteAll ss (t.destroy w)

namespace Partition

variable {p : Partition} {w w' : World} {ss : List Segment} {now : ℤ} {k : ℕ}

/-- What retention asks for, the first `k` of the segments `ss` being gone. -/
structure Enough (p : Partition) (now : ℤ) (ss : List Segment) (k : ℕ) : Prop where
  young : p.segmentTtl ≠ 0 → ∀ s ∈ ss.drop k, now - s.mtime ≤ p.segmentTtl
  small : p.maxPartitionSize ≠ 0 →
    p.physicalSize - sizes (ss.take k) ≤ p.maxPartitionSize ∨ ss.drop k = []

/-- The partition without the first `k` segments. -/
def without (p : Partition) (k : ℕ) : Partition :=
  { p with older := p.older.drop k, physicalSize := p.physicalSize - sizes (p.older.take k) }

/-- The segments are listed by age. -/
def ByAge (ss : List Segment) : Prop := ss.Pairwise (fun s t => s.mtime ≤ t.mtime)

/-- Each segment starts where the one before it ends. -/
def Contiguous (ss : List Segment) : Prop := ss.IsChain (fun s t => s.nextOffset = t.baseOffset)

theorem not_outdated_of_enough (h : p.Enough now ss 0) {s : Segment} (hs : s ∈ ss) :
    ¬ p.outdated s now := by
  rintro (⟨httl, hold⟩ | ⟨hmax, hlarge⟩)
  · have := h.young httl s hs
    omega
  · rcases h.small hmax with hle | hnil
    · rw [List.take_zero, sizes_nil] at hle
      omega
    · rw [List.drop_zero] at hnil
      rw [hnil] at hs
      cases hs

/-- Once a segment is kept, all after it are. -/
theorem enough_of_not_outdated {s : Segment} (hage : ByAge (s :: ss)) (h : ¬ p.outdated s now) :
    p.Enough now (s :: ss) 0 := by
  rw [outdated, not_or, not_and, not_and, not_lt, not_lt] at h
  constructor
  · intro httl t ht
    rcases List.mem_cons.mp ht with rfl | ht
    · exact h.1 httl
    · have hle := (List.pairwise_cons.mp hage).1 t ht
      have := h.1 httl
      omega
  · intro hmax
    left
    have := h.2 hmax
    rw [List.take_zero, sizes_nil]
    omega

theorem not_enough_of_outdated {s : Segment} (h : p.outdated s now) : ¬ p.Enough now (s :: ss) 0 :=
  fun henough => not_outdated_of_enough henough List.mem_cons_self h

theorem enough_succ {s : Segment} :
    p.Enough now (s :: ss) (k + 1) ↔
      { p with physicalSize := p.physicalSize - s.size }.Enough now ss k := by
  constructor
  · rintro ⟨hyoung, hsmall⟩
    refine ⟨hyoung, fun hmax => (hsmall hmax).imp_left (fun hle => ?_)⟩
    rw [List.take_succ_cons, sizes_cons] at hle
    dsimp only
    omega
  · rintro ⟨hyoung, hsmall⟩
    refine ⟨hyoung, fun hmax => (hsmall hmax).imp_left (fun hle => ?_)⟩
    rw [List.take_succ_cons, sizes_cons]
    dsimp only at hle
    omega

/-- The induction is on the segments that are left to look at while none is kept. -/
theorem cleanSegments_prefix (hage : ByAge ss) (hp : p.older = [])
    (hok : (cleanSegments ss p w).1 = .ok ()) :
    ∃ k ≤ ss.length, cleanSegments ss p w = (.ok (), { p with
        older := ss.drop k
        physicalSize := p.physicalSize - sizes (ss.take k) }, deleteAll (ss.take k) w) ∧
      p.Enough w.now ss k ∧ ∀ j < k, ¬ p.Enough w.now ss j := by
  induction ss generalizing p w with
  | nil =>
      refine ⟨0, le_rfl, ?_, ⟨fun _ s hs => absurd hs List.not_mem_nil, fun _ => Or.inr rfl⟩,
        fun j hj => absurd hj (Nat.not_lt_zero j)⟩
      obtain ⟨cancel, maxSegmentSize, maxPartitionSize, ttl, size, path, older, active⟩ := p
      obtain rfl : older = [] := hp
      simp [cleanSegments, deleteAll]
  | cons s ss ih =>
      by_cases hout : p.outdated s w.now
      · rw [cleanSegments, if_pos hout] at hok ⊢
        have hnow := s.now_deleteSegment w
        rcases hdel : s.deleteSegment w with ⟨_ | _, t, w₁⟩
        · rw [hdel] at hok
          rcases hrest : cleanSegments ss { p with older := p.older ++ [t] } w₁ with ⟨_ | _, p₂, w₂⟩
          · simp [hrest] at hok
          · simp [hrest] at hok
        · rw [hdel] at hok hnow
          have hnow' : (t.destroy w₁).now = w.now := (t.now_destroy w₁).trans hnow
          obtain ⟨k, hk, hpass, henough, hleast⟩ := ih
            (p := { p with physicalSize := p.physicalSize - s.size }) (w := t.destroy w₁)
            (List.pairwise_cons.mp hage).2 hp hok
          rw [hnow'] at henough hleast
          refine ⟨k + 1, Nat.succ_le_succ hk, ?_, enough_succ.mpr henough, ?_⟩
          · dsimp only
            rw [hpass, List.drop_succ_cons, List.take_succ_cons, sizes_cons, deleteAll, hdel,
              sub_add_eq_sub_sub]
          · intro j hj
            cases j with
            | zero => exact not_enough_of_outdated hout
            | succ j => exact fun h => hleast j (by omega) (enough_succ.mp h)
      · have henough := enough_of_not_outdated hage hout
        refine ⟨0, Nat.zero_le _, ?_, henough, fun j hj => by omega⟩
        rw [cleanSegments_keep (fun t ht => not_outdated_of_enough henough ht)]
        simp [hp, deleteAll]

/-- The pass deletes the first `k` segments and nothing else. -/
structure Cleaned (p : Partition) (w : World) (k : ℕ) : Prop where
  pass : p.cleanOldSegments w = (.ok (), p.without k, deleteAll (p.older.take k) w)
  enough : p.Enough w.now p.older k
  least : ∀ j < k, ¬ p.Enough w.now p.older j
  active : (p.without k).activeSegment = p.activeSegment
  segments : (p.without k).segments = p.segments.drop k
  contiguous : Contiguous p.segments → Contiguous (p.without k).segments
  counted : (p.without k).physicalSize = sizes (p.without k).segments
  again : ∀ w', w'.now = w.now → (p.without k).cleanOldSegments w' = (.ok (), p.without k, w')

theorem segments_without (hk : k ≤ p.older.length) :
    (p.without k).segments = p.segments.drop k :=
  (List.drop_append_of_le_length hk).symm

/-- A pass over what another one left at the same time. -/
theorem Enough.again (h : p.Enough w.now p.older k) (hnow : w'.now = w.now) :
    (p.without k).cleanOldSegments w' = (.ok (), p.without k, w') := by
  have hkeep : ∀ s ∈ (p.without k).older,
      ¬ { p.without k with older := [] }.outdated s w'.now := by
    intro s hs
    have henough : Enough { p.without k with older := [] } w'.now (p.without k).older 0 := by
      rw [hnow]
      refine ⟨h.young, fun hmax => ?_⟩
      rw [List.take_zero, sizes_nil, sub_zero]
      exact h.small hmax
    exact not_outdated_of_enough henough hs
  rw [cleanOldSegments, cleanSegments_keep hkeep]
  rfl

/-- Retention deletes the shortest prefix that is enough. -/
theorem cleans_shortest_prefix (hage : ByAge p.segments)
    (hcounted : p.physicalSize = sizes p.segments) (hok : (p.cleanOldSegments w).1 = .ok ()) :
    ∃ k ≤ p.older.length, Cleaned p w k := by
  have hage' : ByAge p.older := hage.sublist (List.sublist_append_left _ _)
  obtain ⟨k, hk, hpass, henough, hleast⟩ :=
    cleanSegments_prefix (p := { p with older := [] }) hage' rfl hok
  have hsegs := segments_without hk
  refine ⟨k, hk, hpass, ⟨henough.young, henough.small⟩, fun j hj h => hleast j hj ⟨h.young, h.small⟩,
    rfl, hsegs, fun hcont => ?_, ?_, fun w' hnow => ?_⟩
  · rw [hsegs]
    exact hcont.drop k
  · have hsplit := List.take_append_drop k p.older
    have hsum : sizes p.segments =
        sizes (p.older.take k) + sizes (p.older.drop k) + sizes p.activeSegment.toList := by
      rw [← sizes_append, hsplit, Partition.segments, sizes_append]
    rw [Partition.segments, sizes_append]
    dsimp only [without]
    omega
  · exact Enough.again ⟨henough.young, henough.small⟩ hnow

theorem cleans_shortest_prefix_old :
    let h := (Host.boot ⟨[], []⟩ 1 0 10 (World.blank 0)).2.final
      [.write [1], .tick 5, .write [2], .tick 8]
    ∃ k ≤ h.partition.older.length, Cleaned h.partition h.world k := by
  intro h
  apply cleans_shortest_prefix
  · show List.Pairwise _ _
    decide +kernel
  · decide +kernel
  · exact eq_ok_of_isOk (by decide +kernel)

end Partition

end MyKafka
