import MyKafka.Bisection
import MyKafka.PartitionLog

/-!
# Finding a segment

The binary search of `findSegment` is a bisection that keeps the last segment it did not pass. It
stays inside the list and ends at the last segment that starts at or before the offset.
-/

namespace MyKafka

namespace Partition

variable {p : Partition} {s t : Segment} {segs : List Segment} {target : ℤ}

/-- What the loop of `findSegment` does at an index of the list. -/
def visitSegment (segments : List Segment) (searchOffset pos : ℤ) (found : Option Segment) :
    Except (Option Segment) (ℤ × Option Segment) :=
  match segments[pos.toNat]? with
  | none => .error found
  | some s => .ok (s.baseOffset, if searchOffset < s.baseOffset then found else some s)

/-- The segment the loop leaves with. -/
def leftWith : Except (Option Segment) (ℤ × Option Segment) → Option Segment
  | .error found => found
  | .ok (_, found) => found

theorem findSegmentLoop_bisect (segments : List Segment) (target : ℤ) (fuel : ℕ) :
    ∀ (first last pos foundOffset : ℤ) (found : Option Segment),
      findSegmentLoop segments target fuel first last pos foundOffset found =
        (Bisection.bisect (visitSegment segments target) target fuel first last pos foundOffset
          found).map (fun r => leftWith r.1) := by
  induction fuel with
  | zero => exact fun _ _ _ _ _ => rfl
  | succ fuel ih =>
      intro first last pos foundOffset found
      rw [findSegmentLoop, Bisection.bisect]
      split_ifs
      · unfold visitSegment
        rcases segments[pos.toNat]? with _ | s
        · rfl
        · dsimp only
          split_ifs <;> rw [ih, Option.map_map] <;> rfl
      · rfl

/-- The search of `findSegment` with the indexes it looks at. -/
def segmentSearch (p : Partition) (searchOffset : ℤ) :
    Option (Except (Option Segment) (ℤ × Option Segment) × List ℤ) :=
  let last : ℤ := p.segments.length - 1
  Bisection.bisect (visitSegment p.segments searchOffset) searchOffset (p.segments.length + 1) 0
    last (Int.tdiv (0 + last) 2) (-1) none

/-- The segment of the greatest base offset that is not greater than `target`. -/
def Floor (segs : List Segment) (target : ℤ) (s : Segment) : Prop :=
  s ∈ segs ∧ s.baseOffset ≤ target ∧
    ∀ t ∈ segs, t.baseOffset ≤ target → t.baseOffset ≤ s.baseOffset

theorem Floor.unique (hsorted : segs.Pairwise (fun s t => s.baseOffset < t.baseOffset))
    (hs : Floor segs target s) (ht : Floor segs target t) : s = t := by
  have hnodup : (segs.map Segment.baseOffset).Nodup := by
    rw [List.Nodup, List.pairwise_map]
    exact hsorted.imp ne_of_lt
  apply List.inj_on_of_nodup_map hnodup hs.1 ht.1
  exact le_antisymm (ht.2.2 s hs.1 hs.2.1) (hs.2.2 t ht.1 ht.2.1)

theorem Finds.floor (hsorted : segs.Pairwise (fun s t => s.baseOffset < t.baseOffset))
    (h : Finds segs target (some s)) : Floor segs target s := by
  obtain ⟨k, hk, hle, hafter⟩ := h
  refine ⟨List.mem_of_getElem? hk, hle, fun t ht htle => ?_⟩
  obtain ⟨l, hl⟩ := List.getElem?_of_mem ht
  rcases lt_trichotomy l k with hlk | rfl | hkl
  · obtain ⟨hll, rfl⟩ := List.getElem?_eq_some_iff.mp hl
    obtain ⟨hkl, rfl⟩ := List.getElem?_eq_some_iff.mp hk
    exact (List.pairwise_iff_getElem.mp hsorted l k hll hkl hlk).le
  · rw [hk, Option.some.injEq] at hl
    rw [hl]
  · have := hafter l t hkl hl
    omega

/-- The loop ends, looks at indexes of the list only, and finds the segment of the greatest base offset
up to the offset, if there is one. -/
theorem findSegment_floor
    (hsorted : p.segments.Pairwise (fun s t => s.baseOffset < t.baseOffset))
    (hnonneg : ∀ s ∈ p.segments, 0 ≤ s.baseOffset) (target : ℤ) :
    (∃ res visited, p.segmentSearch target = some (res, visited) ∧
      findSegmentLoop p.segments target (p.segments.length + 1) 0 (p.segments.length - 1)
        (Int.tdiv (0 + ((p.segments.length : ℤ) - 1)) 2) (-1) none = some (leftWith res) ∧
      ∀ pos ∈ visited, 0 ≤ pos ∧ pos < p.segments.length) ∧
    (∀ s, p.findSegment target = some s ↔ Floor p.segments target s) ∧
    (p.findSegment target = none ↔ ∀ s ∈ p.segments, target < s.baseOffset) := by
  have hfinds := findSegment_spec hsorted hnonneg target
  refine ⟨?_, fun s => ?_, ?_⟩
  · obtain ⟨res, visited, hsearch, hin⟩ : ∃ res visited,
        p.segmentSearch target = some (res, visited) ∧
          ∀ pos ∈ visited, 0 ≤ pos ∧ pos ≤ (p.segments.length : ℤ) - 1 := by
      apply Bisection.bisect_ends
      · omega
      · exact le_rfl
    refine ⟨res, visited, hsearch, ?_, fun pos hpos => ?_⟩
    · rw [segmentSearch] at hsearch
      rw [findSegmentLoop_bisect, hsearch]
      rfl
    · have := hin pos hpos
      omega
  · constructor
    · intro hfound
      rw [hfound] at hfinds
      exact hfinds.floor hsorted
    · intro hfloor
      cases hfound : p.findSegment target with
      | none =>
          rw [hfound] at hfinds
          have := hfinds s hfloor.1
          have := hfloor.2.1
          omega
      | some t =>
          rw [hfound] at hfinds
          rw [(hfinds.floor hsorted).unique hsorted hfloor]
  · constructor
    · intro hfound
      rw [hfound] at hfinds
      exact hfinds
    · intro hafter
      cases hfound : p.findSegment target with
      | none => rfl
      | some t =>
          rw [hfound] at hfinds
          have hfloor := hfinds.floor hsorted
          have := hafter t hfloor.1
          have := hfloor.2.1
          omega

/-- Three segments with a gap, and an offset in the gap. -/
theorem findSegment_floor_gap :
    let p : Partition := { Partition.new ⟨[], []⟩ 0 0 0 with
      older := [Segment.new ⟨[], []⟩ 2 0, Segment.new ⟨[], []⟩ 5 0]
      activeSegment := some (Segment.new ⟨[], []⟩ 9 0) }
    (∃ res visited, p.segmentSearch 8 = some (res, visited) ∧
      findSegmentLoop p.segments 8 (p.segments.length + 1) 0 (p.segments.length - 1)
        (Int.tdiv (0 + ((p.segments.length : ℤ) - 1)) 2) (-1) none = some (leftWith res) ∧
      ∀ pos ∈ visited, 0 ≤ pos ∧ pos < p.segments.length) ∧
    (∀ s, p.findSegment 8 = some s ↔ Floor p.segments 8 s) ∧
    (p.findSegment 8 = none ↔ ∀ s ∈ p.segments, 8 < s.baseOffset) := by
  intro p
  have hsorted : p.segments.Pairwise (fun s t => s.baseOffset < t.baseOffset) := by decide +kernel
  have hnonneg : ∀ s ∈ p.segments, 0 ≤ s.baseOffset := by decide +kernel
  exact findSegment_floor hsorted hnonneg 8

end Partition

end MyKafka
