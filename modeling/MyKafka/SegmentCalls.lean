import MyKafka.SegmentRebuild

/-!
# The calls on one segment object

An object may be opened again after it was closed or deleted. What its constructor set, and where its
descriptors are, is followed through every call, whatever the kernel answers.
-/

namespace Posix

theorem Desc.released_ne_closed {d : Desc} (h : d ≠ .closed) : d.released ≠ .closed := by
  cases d with
  | closed => exact absurd rfl h
  | live num i => exact Desc.noConfusion
  | stale num => exact Desc.noConfusion

end Posix

namespace MyKafka

open Posix LittleEndian

inductive SegmentCall where
  | «open»
  | write (payload : Payload)
  | readAt (relativeOffset : ℤ)
  | close
  | deleteSegment
  deriving DecidableEq

inductive SegmentAnswer where
  | done (res : Result Unit)
  | offset (res : Result ℤ)
  | message (res : Result Unit) (payload : Payload)

namespace SegmentHost

def create (path : RawPath) (baseOffset maxSize : ℤ) (w : World) : SegmentHost :=
  ⟨Segment.new path baseOffset maxSize, w⟩

def call (h : SegmentHost) : SegmentCall → SegmentAnswer × SegmentHost
  | .open =>
    match h.segment.open h.world with
    | (res, s, w) => (.done res, ⟨s, w⟩)
  | .write payload =>
    match h.segment.write payload h.world with
    | (res, s, w) => (.offset res, ⟨s, w⟩)
  | .readAt relativeOffset =>
    match h.segment.readAt relativeOffset h.world with
    | (res, payload, w) => (.message res payload, ⟨h.segment, w⟩)
  | .close =>
    match h.segment.close h.world with
    | (res, s, w) => (.done res, ⟨s, w⟩)
  | .deleteSegment =>
    match h.segment.deleteSegment h.world with
    | (res, s, w) => (.done res, ⟨s, w⟩)

end SegmentHost

/-! ## What the constructor set -/

/-- Nothing assigns these fields after the construction. -/
structure Index.SameMake (x y : Index) : Prop where
  size : y.size = x.size
  baseOffset : y.baseOffset = x.baseOffset
  filename : y.filename = x.filename

structure Segment.SameMake (s t : Segment) : Prop where
  maxSize : t.maxSize = s.maxSize
  filename : t.filename = s.filename
  index : s.index.SameMake t.index

namespace Index

variable {x y z : Index} {w : World}

theorem SameMake.refl (x : Index) : x.SameMake x := ⟨rfl, rfl, rfl⟩

theorem SameMake.trans (h : x.SameMake y) (h' : y.SameMake z) : x.SameMake z :=
  ⟨h'.size.trans h.size, h'.baseOffset.trans h.baseOffset, h'.filename.trans h.filename⟩

theorem open_make (x : Index) (w : World) : x.SameMake (x.open w).2.1 := by
  unfold Index.open abandon
  dsimp only
  repeat' split
  all_goals exact ⟨rfl, rfl, rfl⟩

theorem write_make (x : Index) (offset position : ℤ) (w : World) :
    x.SameMake (x.write offset position w).2.1 := by
  unfold write
  dsimp only
  split <;> exact ⟨rfl, rfl, rfl⟩

theorem truncateEntries_make (x : Index) (nb : ℤ) : x.SameMake (x.truncateEntries nb).2 := by
  unfold truncateEntries
  split <;> exact ⟨rfl, rfl, rfl⟩

theorem close_make (x : Index) (w : World) : x.SameMake (x.close w).2.1 := by
  unfold Index.close
  dsimp only
  repeat' split
  all_goals exact ⟨rfl, rfl, rfl⟩

end Index

namespace Segment

variable {s t u : Segment} {w : World}

theorem SameMake.refl (s : Segment) : s.SameMake s := ⟨rfl, rfl, .refl _⟩

theorem SameMake.trans (h : s.SameMake t) (h' : t.SameMake u) : s.SameMake u :=
  ⟨h'.maxSize.trans h.maxSize, h'.filename.trans h.filename, h.index.trans h'.index⟩

theorem SameMake.with_index {x : Index} (h : s.SameMake t) (hx : t.index.SameMake x) :
    s.SameMake { t with index := x } := ⟨h.maxSize, h.filename, h.index.trans hx⟩

/-- The descriptors are left alone too. -/
structure SameDescs (s t : Segment) : Prop extends s.SameMake t where
  fd : t.fd = s.fd
  fdRead : t.fdRead = s.fdRead
  indexFd : t.index.fd = s.index.fd

theorem SameDescs.refl (s : Segment) : s.SameDescs s := ⟨.refl _, rfl, rfl, rfl⟩

theorem index_write_fd (x : Index) (offset position : ℤ) (w : World) :
    (x.write offset position w).2.1.fd = x.fd := by
  unfold Index.write
  dsimp only
  split <;> rfl

theorem reconstructLoop_descs {fuel : ℕ} {cursor : ℕ} {res : Result Unit} {s' : Segment}
    {w' : World} (h : s.SameDescs t) (hr : reconstructLoop fuel t cursor w = some (res, s', w')) :
    s.SameDescs s' := by
  induction fuel generalizing t cursor w with
  | zero => cases hr
  | succ fuel ih =>
      unfold reconstructLoop at hr
      split at hr
      · cases hr
        exact h
      · split_ifs at hr
        · cases hr
          exact h
        · next bytes w₁ _ _ =>
          dsimp only at hr
          split at hr
          · cases hr
            exact ⟨⟨h.maxSize, h.filename, h.index⟩, h.fd, h.fdRead, h.indexFd⟩
          · next bytes' w₂ _ =>
              split_ifs at hr
              · cases hr
                exact ⟨⟨h.maxSize, h.filename, h.index⟩, h.fd, h.fdRead, h.indexFd⟩
              · have hx := t.index.write_make (overlay offsetSize t.nextOffset bytes) t.position w₂
                have hfd := index_write_fd t.index (overlay offsetSize t.nextOffset bytes)
                  t.position w₂
                split at hr
                · next e index w₃ he =>
                    rw [he] at hx hfd
                    cases hr
                    exact ⟨⟨h.maxSize, h.filename, h.index.trans hx⟩, h.fd, h.fdRead,
                      hfd.trans h.indexFd⟩
                · next index w₃ he =>
                    rw [he] at hx hfd
                    have h' : s.SameDescs { t with
                        index := index
                        nextOffset := toInt64 (overlay offsetSize t.nextOffset bytes + 1)
                        position := t.position + (overlay sizeSize (-1) bytes' + headerSize) } :=
                      ⟨⟨h.maxSize, h.filename, h.index.trans hx⟩, h.fd, h.fdRead,
                        hfd.trans h.indexFd⟩
                    split at hr
                    · cases hr
                      exact h'
                    · exact ih h' hr

theorem reconstruct_descs (s : Segment) (w : World) :
    s.SameDescs (s.reconstructIndexAndGetLastOffset w).2.1 := by
  unfold reconstructIndexAndGetLastOffset
  split
  · exact .refl s
  · next w₁ _ =>
      cases hr : reconstructLoop (room s.index + 1) s 0 w₁ with
      | none => exact .refl s
      | some r => exact reconstructLoop_descs (.refl s) hr

theorem abandon_make (s : Segment) (w : World) (e : Error) : s.SameMake (s.abandon w e).2.1 := by
  unfold abandon
  repeat' split
  all_goals exact ⟨rfl, rfl, .refl _⟩

theorem openLog_make (s : Segment) (w : World) : s.SameMake (s.openLog w).2.1 := by
  unfold openLog
  split
  · exact ⟨rfl, rfl, .refl _⟩
  · next fd w₁ _ _ =>
      dsimp only
      split
      · exact ⟨rfl, rfl, .refl _⟩
      · next buf w₂ _ =>
          split
          · exact ⟨rfl, rfl, .refl _⟩
          · next fdRead w₃ _ _ =>
              have h := (reconstruct_descs { s with
                fd := fd, physicalSize := buf.size, mtime := buf.mtime, fdRead := fdRead }
                w₃).toSameMake
              have h₀ : s.SameMake { s with
                fd := fd, physicalSize := buf.size, mtime := buf.mtime, fdRead := fdRead } :=
                ⟨rfl, rfl, .refl _⟩
              split
              · next e s' w₄ he =>
                  rw [he] at h
                  exact (h₀.trans h).trans (abandon_make s' w₄ e)
              · next s' w₄ he =>
                  rw [he] at h
                  exact h₀.trans h

theorem open_make (s : Segment) (w : World) : s.SameMake (s.open w).2.1 := by
  have hx := s.index.open_make w
  unfold Segment.open
  split
  · next e x w₁ he =>
      rw [he] at hx
      exact (SameMake.refl s).with_index hx
  · next x w₁ he =>
      rw [he] at hx
      split
      · exact (SameMake.refl s).with_index hx
      · have ht := x.truncateEntries_make 0
        split
        · next e x' he' =>
            rw [he'] at ht
            exact (SameMake.refl s).with_index (hx.trans ht)
        · next x' he' =>
            rw [he'] at ht
            exact ((SameMake.refl s).with_index (hx.trans ht)).trans (openLog_make _ _)

theorem writeBuffer_descs (s : Segment) (payload : Payload) (payloadSize : ℤ) (w : World) :
    s.SameDescs (s.writeBuffer payload payloadSize w).2.1 := by
  let w₁ := (appendPayload (w.append s.fd (toLE offsetSize s.nextOffset ++
    toLE sizeSize payloadSize)).2 s.fd payload payloadSize).2
  have hx := s.index.write_make s.nextOffset s.position w₁
  have hfd := index_write_fd s.index s.nextOffset s.position w₁
  unfold writeBuffer
  dsimp only
  split_ifs
  · exact .refl s
  · exact .refl s
  · split
    · next e x w₂ he =>
        rw [he] at hx hfd
        exact ⟨(SameMake.refl s).with_index hx, rfl, rfl, hfd⟩
    · next x w₂ he =>
        rw [he] at hx hfd
        exact ⟨⟨rfl, rfl, hx⟩, rfl, rfl, hfd⟩

theorem write_descs (s : Segment) (payload : Payload) (w : World) :
    s.SameDescs (s.write payload w).2.1 := s.writeBuffer_descs payload _ w

theorem close_make (s : Segment) (w : World) : s.SameMake (s.close w).2.1 := by
  unfold Segment.close
  split
  · exact .refl s
  · split
    · exact ⟨rfl, rfl, .refl _⟩
    · split
      · exact ⟨rfl, rfl, .refl _⟩
      · next w₂ _ => exact ⟨rfl, rfl, s.index.close_make w₂⟩

theorem deleteSegment_segment (s : Segment) (w : World) :
    (s.deleteSegment w).2.1 = (s.close w).2.1 := by
  unfold deleteSegment
  dsimp only
  split <;> rfl

end Segment

theorem SegmentHost.call_make (h : SegmentHost) (c : SegmentCall) :
    h.segment.SameMake (h.call c).2.segment := by
  cases c with
  | «open» => exact h.segment.open_make h.world
  | write payload => exact (h.segment.write_descs payload h.world).toSameMake
  | readAt relativeOffset => exact .refl _
  | close => exact h.segment.close_make h.world
  | deleteSegment =>
      show h.segment.SameMake (h.segment.deleteSegment h.world).2.1
      rw [Segment.deleteSegment_segment]
      exact h.segment.close_make h.world

theorem SegmentHost.call_frame {S : Path → Prop} {I : ℕ → Prop} {w₀ : World} {h : SegmentHost}
    (hf : Frame S I w₀ h.world) (hs : h.segment.Confined S I w₀.fs) (c : SegmentCall) :
    Frame S I w₀ (h.call c).2.world ∧ (h.call c).2.segment.Confined S I w₀.fs := by
  cases c with
  | «open» => exact Segment.open_frame hf hs
  | write payload => exact Segment.write_frame hf hs payload
  | readAt relativeOffset => exact ⟨Segment.readAt_frame hf h.segment relativeOffset, hs⟩
  | close => exact Segment.close_frame hf hs
  | deleteSegment => exact Segment.deleteSegment_frame hf hs

/-! ## Objects that are not open -/

namespace Segment

/-- An object that is not open is at the start of its log. -/
def Rewound (s : Segment) : Prop := s.fd = .closed → s.position = 0

variable {s : Segment} {w : World}

theorem abandon_fd (s : Segment) (w : World) (e : Error) : (s.abandon w e).2.1.fd = s.fd.released := by
  unfold abandon
  split
  · rfl
  · split <;> rfl

theorem openLog_rewound (hs : s.position = 0) (w : World) : (s.openLog w).2.1.Rewound := by
  unfold openLog
  split
  · exact fun _ => hs
  · next fd w₁ hfd he =>
      have hfd : fd ≠ .closed := fun h => hfd h
      dsimp only
      split
      · exact fun h => absurd h hfd
      · next buf w₂ _ =>
          split
          · exact fun h => absurd h (Desc.released_ne_closed hfd)
          · next fdRead w₃ _ _ =>
              have hr := (reconstruct_descs { s with
                fd := fd, physicalSize := buf.size, mtime := buf.mtime, fdRead := fdRead } w₃).fd
              split
              · next e s' w₄ he =>
                  rw [he] at hr
                  intro h
                  rw [abandon_fd, hr] at h
                  exact absurd h (Desc.released_ne_closed hfd)
              · next s' w₄ he =>
                  rw [he] at hr
                  exact fun h => absurd (hr.symm.trans h) hfd

theorem open_rewound (hs : s.position = 0) (w : World) : (s.open w).2.1.Rewound := by
  unfold Segment.open
  split
  · exact fun _ => hs
  · split
    · exact fun _ => hs
    · split
      · exact fun _ => hs
      · next x' _ => exact openLog_rewound (s := { s with index := x' }) hs _

theorem writeBuffer_rewound (hs : s.Rewound) (payload : Payload) (payloadSize : ℤ) (w : World) :
    (s.writeBuffer payload payloadSize w).2.1.Rewound := by
  by_cases hfd : s.fd = .closed
  · have happend : ∀ bs, (w.append s.fd bs).1 = -1 := by
      intro bs
      rw [hfd]
      unfold World.append
      split <;> simp_all
    unfold writeBuffer
    dsimp only
    rw [if_pos (by rw [happend]; decide)]
    exact hs
  · have hkept := (s.writeBuffer_descs payload payloadSize w).fd
    exact fun h => absurd (hkept.symm.trans h) hfd

theorem write_rewound (hs : s.Rewound) (payload : Payload) (w : World) :
    (s.write payload w).2.1.Rewound := writeBuffer_rewound hs payload _ w

theorem close_rewound (hs : s.Rewound) (w : World) : (s.close w).2.1.Rewound := by
  unfold Segment.close
  split_ifs with hfd
  · exact hs
  · split
    · exact fun h => absurd h (Desc.released_ne_closed hfd)
    · split
      · exact fun h => absurd h (Desc.released_ne_closed hfd)
      · exact fun _ => rfl

end Segment

/-- As long as only objects that are not open are opened. -/
theorem SegmentHost.call_rewound {h : SegmentHost} (hs : h.segment.Rewound) {c : SegmentCall}
    (hc : c = .open → h.segment.fd = .closed) : (h.call c).2.segment.Rewound := by
  cases c with
  | «open» => exact Segment.open_rewound (hs (hc rfl)) h.world
  | write payload => exact Segment.write_rewound hs payload h.world
  | readAt relativeOffset => exact hs
  | close => exact Segment.close_rewound hs h.world
  | deleteSegment =>
      show (h.segment.deleteSegment h.world).2.1.Rewound
      rw [Segment.deleteSegment_segment]
      exact Segment.close_rewound hs h.world

end MyKafka
