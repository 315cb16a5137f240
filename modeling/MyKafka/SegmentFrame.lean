import MyKafka.IndexSpec
import MyKafka.Segment

/-!
# What a segment touches

Whatever the calls answer, the functions of a segment touch its own two files only, and the rebuild
of the index leaves its loop before the fuel is spent.
-/

namespace MyKafka

open Posix LittleEndian

namespace Segment

/-- The segment works on names in `S` and inodes in `I` only. -/
structure Confined (S : Path → Prop) (I : ℕ → Prop) (fs : FileSystem) (s : Segment) : Prop where
  filename : Inside S s.filename
  fd : s.fd.Mine I fs
  fdRead : s.fdRead.Mine I fs
  index : s.index.Confined S I fs

variable {S : Path → Prop} {I : ℕ → Prop} {w₀ w : World} {s : Segment}

theorem Confined.new {fs : FileSystem} {path : RawPath} {baseOffset : ℤ}
    (hl : Inside S (getLogFilename path baseOffset))
    (hx : Inside S (getIndexFilename path baseOffset)) (maxSize : ℤ) :
    (Segment.new path baseOffset maxSize).Confined S I fs :=
  ⟨hl, trivial, trivial, .new hx _ _⟩

theorem Confined.with_index {fs : FileSystem} (hs : s.Confined S I fs) {x : Index}
    (hx : x.Confined S I fs) : { s with index := x }.Confined S I fs :=
  ⟨hs.filename, hs.fd, hs.fdRead, hx⟩

theorem Confined.mono {S' : Path → Prop} {I' : ℕ → Prop} {fs : FileSystem}
    (hs : s.Confined S I fs) (hS : ∀ q, S q → S' q) (hI : ∀ i, I i → I' i) :
    s.Confined S' I' fs := by
  have hin : ∀ {r : RawPath}, Inside S r → Inside S' r := fun hr fs p hp =>
    ⟨hS p (hr fs p hp).1, (hr fs p hp).2⟩
  have hdesc : ∀ {d : Desc}, d.Mine I fs → d.Mine I' fs := by
    intro d hd
    cases d with
    | live num i => exact hd.imp_right (hI i)
    | closed => trivial
    | stale num => trivial
  have haddr : ∀ {a : Addr}, a.Mine I fs → a.Mine I' fs := by
    intro a ha
    cases a with
    | mapped i => exact ha.imp_right (hI i)
    | null => trivial
    | failed => trivial
    | stale i => trivial
  exact ⟨hin hs.filename, hdesc hs.fd, hdesc hs.fdRead, hin hs.index.filename, hdesc hs.index.fd,
    haddr hs.index.addr⟩

/-! ## Rebuilding the index -/

theorem reconstructLoop_frame {fuel : ℕ} {cursor : ℕ} {res : Result Unit} {s' : Segment}
    {w' : World} (h : Frame S I w₀ w) (hs : s.Confined S I w₀.fs)
    (hr : reconstructLoop fuel s cursor w = some (res, s', w')) :
    Frame S I w₀ w' ∧ s'.Confined S I w₀.fs := by
  induction fuel generalizing s cursor w with
  | zero => cases hr
  | succ fuel ih =>
      have h₁ := h.read s.fd cursor offsetSize
      unfold reconstructLoop at hr
      split at hr
      · next w₁ he =>
          rw [he] at h₁
          cases hr
          exact ⟨h₁, hs⟩
      · next bytes w₁ he =>
          rw [he] at h₁
          split_ifs at hr
          · cases hr
            exact ⟨h₁, hs⟩
          · have h₂ := h₁.read s.fd (cursor + bytes.length) sizeSize
            dsimp only at hr
            split at hr
            · next w₂ he₂ =>
                rw [he₂] at h₂
                cases hr
                exact ⟨h₂, hs.filename, hs.fd, hs.fdRead, hs.index⟩
            · next bytes' w₂ he₂ =>
                rw [he₂] at h₂
                split_ifs at hr
                · cases hr
                  exact ⟨h₂, hs.filename, hs.fd, hs.fdRead, hs.index⟩
                · obtain ⟨h₃, hx⟩ := Index.write_frame h₂ hs.index
                    (overlay offsetSize s.nextOffset bytes) s.position
                  split at hr
                  · next e index w₃ he₃ =>
                      rw [he₃] at h₃ hx
                      cases hr
                      exact ⟨h₃, hs.filename, hs.fd, hs.fdRead, hx⟩
                  · next index w₃ he₃ =>
                      rw [he₃] at h₃ hx
                      have h₄ := h₃.lseek s.fd
                        (↑(cursor + bytes.length + bytes'.length) + overlay sizeSize (-1) bytes')
                      split at hr
                      · next w₄ he₄ =>
                          rw [he₄] at h₄
                          cases hr
                          exact ⟨h₄, hs.filename, hs.fd, hs.fdRead, hx⟩
                      · next w₄ he₄ =>
                          rw [he₄] at h₄
                          refine ih h₄ ?_ hr
                          exact ⟨hs.filename, hs.fd, hs.fdRead, hx⟩

/-- Every turn of the loop takes an entry, so it leaves before the room is exceeded. -/
theorem reconstructLoop_isSome (fuel : ℕ) (s : Segment) (cursor : ℕ) (w : World)
    (h : room s.index < fuel) : (reconstructLoop fuel s cursor w).isSome := by
  induction fuel generalizing s cursor w with
  | zero => cases h
  | succ fuel ih =>
      unfold reconstructLoop
      split
      · rfl
      · split_ifs
        · rfl
        · dsimp only
          split
          · rfl
          · split_ifs
            · rfl
            · split
              · rfl
              · next index w₃ he =>
                  split
                  · rfl
                  · apply ih
                    unfold Index.write at he
                    dsimp only at he
                    split_ifs at he with hfull
                    · simp [Utils.err] at he
                    simp only [Prod.mk.injEq] at he
                    obtain ⟨-, rfl, -⟩ := he
                    simp only [room, Index.entryWidth, Index.offsetWidth, Index.positionWidth] at h ⊢
                    omega

/-- Whatever the log holds, the loop leaves after at most one turn for each entry of an emptied index
and a last one, and what it leaves with is what the rebuild answers. -/
theorem reconstruct_ends {s : Segment} (hsize : s.index.size = Index.defaultSize)
    (hposition : s.index.position = 0) (w : World) :
    (∃ res s' w', reconstructLoop 1310721 s 0 w = some (res, s', w')) ∧
      ∀ w₀ : World, w₀.lseek s.fd 0 = (true, w) →
        reconstructLoop 1310721 s 0 w = some (s.reconstructIndexAndGetLastOffset w₀) := by
  have hroom : room s.index = 1310720 := by
    rw [room, hsize, hposition]
    rfl
  obtain ⟨⟨res, s', w'⟩, hloop⟩ := Option.isSome_iff_exists.mp
    (reconstructLoop_isSome 1310721 s 0 w (by omega))
  refine ⟨⟨res, s', w', hloop⟩, fun w₀ hseek => ?_⟩
  unfold reconstructIndexAndGetLastOffset
  rw [hseek]
  dsimp only
  rw [hroom, hloop, Option.getD_some]

/-- A log of one header that sends the cursor back to its own start. -/
theorem reconstruct_ends_backward :
    let opened := (Segment.new ⟨[], []⟩ 0 0).open (World.blank 0)
    let w := (opened.2.2.append opened.2.1.fd (toLE 8 0 ++ toLE 4 (-12))).2
    (∃ res s' w', reconstructLoop 1310721 opened.2.1 0 w = some (res, s', w')) ∧
      ∀ w₀ : World, w₀.lseek opened.2.1.fd 0 = (true, w) →
        reconstructLoop 1310721 opened.2.1 0 w =
          some (opened.2.1.reconstructIndexAndGetLastOffset w₀) := by
  intro opened w
  have hsize : opened.2.1.index.size = Index.defaultSize := by decide +kernel
  have hposition : opened.2.1.index.position = 0 := by decide +kernel
  exact reconstruct_ends hsize hposition w

theorem reconstruct_frame (h : Frame S I w₀ w) (hs : s.Confined S I w₀.fs) :
    Frame S I w₀ (s.reconstructIndexAndGetLastOffset w).2.2 ∧
      (s.reconstructIndexAndGetLastOffset w).2.1.Confined S I w₀.fs := by
  have h₁ := h.lseek s.fd 0
  unfold reconstructIndexAndGetLastOffset
  split
  · next w₁ he =>
      rw [he] at h₁
      exact ⟨h₁, hs⟩
  · next w₁ he =>
      rw [he] at h₁
      have hsome := reconstructLoop_isSome (room s.index + 1) s 0 w₁ (Nat.lt_succ_self _)
      obtain ⟨⟨res, s', w'⟩, hr⟩ := Option.isSome_iff_exists.mp hsome
      rw [hr, Option.getD_some]
      exact reconstructLoop_frame h₁ hs hr

/-! ## Opening, closing, deleting -/

theorem abandon_frame (h : Frame S I w₀ w) (hs : s.Confined S I w₀.fs) (e : Error) :
    Frame S I w₀ (s.abandon w e).2.2 ∧ (s.abandon w e).2.1.Confined S I w₀.fs := by
  have h₁ := h.close s.fd
  unfold abandon
  split
  · next w₁ he =>
      rw [he] at h₁
      exact ⟨h₁, hs.filename, Desc.Mine.released _, hs.fdRead, hs.index⟩
  · next w₁ he =>
      rw [he] at h₁
      have h₂ := h₁.close s.fdRead
      split
      · next w₂ he₂ =>
          rw [he₂] at h₂
          exact ⟨h₂, hs.filename, Desc.Mine.released _, Desc.Mine.released _, hs.index⟩
      · next w₂ he₂ =>
          rw [he₂] at h₂
          exact ⟨h₂, hs.filename, Desc.Mine.released _, Desc.Mine.released _, hs.index⟩

theorem openLog_frame (h : Frame S I w₀ w) (hs : s.Confined S I w₀.fs) :
    Frame S I w₀ (s.openLog w).2.2 ∧ (s.openLog w).2.1.Confined S I w₀.fs := by
  have ho := h.openCreate hs.filename
  unfold openLog
  split
  · next w₁ he =>
      rw [he] at ho
      exact ⟨ho.1, hs.filename, trivial, hs.fdRead, hs.index⟩
  · next fd w₁ hfd he =>
      rw [he] at ho
      obtain ⟨h₁, hd⟩ := ho
      have h₂ := h₁.fstat fd
      dsimp only
      split
      · next w₂ he₂ =>
          rw [he₂] at h₂
          exact ⟨h₂, hs.filename, hd, hs.fdRead, hs.index⟩
      · next buf w₂ he₂ =>
          rw [he₂] at h₂
          have h₃ := h₂.openRead hs.filename
          split
          · next w₃ he₃ =>
              rw [he₃] at h₃
              exact ⟨closeOnError_frame h₃.1 .., hs.filename, Desc.Mine.released _, trivial,
                hs.index⟩
          · next fdRead w₃ hfdr he₃ =>
              rw [he₃] at h₃
              have hs₃ : { s with
                  fd := fd, physicalSize := (buf.size : ℤ), mtime := buf.mtime,
                  fdRead := fdRead }.Confined S I w₀.fs := ⟨hs.filename, hd, h₃.2, hs.index⟩
              have h₄ := reconstruct_frame h₃.1 hs₃
              split
              · next e s' w₄ he₄ =>
                  rw [he₄] at h₄
                  exact abandon_frame h₄.1 h₄.2 e
              · next s' w₄ he₄ =>
                  rw [he₄] at h₄
                  exact h₄

theorem truncateEntries_confined {fs : FileSystem} {x : Index} (hx : x.Confined S I fs) (nb : ℤ) :
    (x.truncateEntries nb).2.Confined S I fs := by
  unfold Index.truncateEntries
  split_ifs
  · exact hx
  · exact ⟨hx.filename, hx.fd, hx.addr⟩

theorem open_frame (h : Frame S I w₀ w) (hs : s.Confined S I w₀.fs) :
    Frame S I w₀ (s.open w).2.2 ∧ (s.open w).2.1.Confined S I w₀.fs := by
  have ho := Index.open_frame h hs.index
  unfold Segment.open
  split
  · next e index w₁ he =>
      rw [he] at ho
      exact ⟨ho.1, hs.with_index ho.2⟩
  · next index w₁ he =>
      rw [he] at ho
      split
      · exact ⟨ho.1, hs.with_index ho.2⟩
      · have ht := truncateEntries_confined ho.2 0
        split
        · next e index' he' =>
            rw [he'] at ht
            exact ⟨ho.1, hs.with_index ht⟩
        · next index' he' =>
            rw [he'] at ht
            exact openLog_frame ho.1 (hs.with_index ht)

theorem close_frame (h : Frame S I w₀ w) (hs : s.Confined S I w₀.fs) :
    Frame S I w₀ (s.close w).2.2 ∧ (s.close w).2.1.Confined S I w₀.fs := by
  unfold Segment.close
  split_ifs
  · exact ⟨h, hs⟩
  · have h₁ := h.close s.fd
    split
    · next w₁ he =>
        rw [he] at h₁
        exact ⟨h₁, hs.filename, Desc.Mine.released _, hs.fdRead, hs.index⟩
    · next w₁ he =>
        rw [he] at h₁
        have h₂ := h₁.close s.fdRead
        split
        · next w₂ he₂ =>
            rw [he₂] at h₂
            exact ⟨h₂, hs.filename, Desc.Mine.released _, Desc.Mine.released _, hs.index⟩
        · next w₂ he₂ =>
            rw [he₂] at h₂
            have h₃ := Index.close_frame h₂ hs.index
            exact ⟨h₃.1, hs.filename, trivial, trivial, h₃.2⟩

theorem destroy_frame (h : Frame S I w₀ w) (hs : s.Confined S I w₀.fs) :
    Frame S I w₀ (s.destroy w) := by
  have hc := close_frame h hs
  unfold destroy
  exact (Index.close_frame hc.1 hc.2.index).1

theorem deleteSegment_frame (h : Frame S I w₀ w) (hs : s.Confined S I w₀.fs) :
    Frame S I w₀ (s.deleteSegment w).2.2 ∧ (s.deleteSegment w).2.1.Confined S I w₀.fs := by
  have hc := close_frame h hs
  have hu := hc.1.unlink hc.2.filename
  unfold deleteSegment
  dsimp only
  split
  · next w₁ he =>
      rw [he] at hu
      exact ⟨hu, hc.2⟩
  · next w₁ he =>
      rw [he] at hu
      exact ⟨Index.deleteIndex_frame hu hc.2.index, hc.2⟩

/-! ## Writing -/

theorem appendPayload_frame (h : Frame S I w₀ w) {fd : Desc} (hd : fd.Mine I w₀.fs)
    (payload : Payload) (payloadSize : ℤ) :
    Frame S I w₀ (appendPayload w fd payload payloadSize).2 := by
  unfold appendPayload
  split_ifs
  · exact h.served
  · exact h.append hd _

theorem writeBuffer_frame (h : Frame S I w₀ w) (hs : s.Confined S I w₀.fs) (payload : Payload)
    (payloadSize : ℤ) :
    Frame S I w₀ (s.writeBuffer payload payloadSize w).2.2 ∧
      (s.writeBuffer payload payloadSize w).2.1.Confined S I w₀.fs := by
  have h₁ := h.append hs.fd (toLE offsetSize s.nextOffset ++ toLE sizeSize payloadSize)
  have h₂ := appendPayload_frame h₁ hs.fd payload payloadSize
  have h₃ := Index.write_frame h₂ hs.index s.nextOffset s.position
  unfold writeBuffer
  dsimp only
  split_ifs
  · exact ⟨h₁, hs⟩
  · exact ⟨h₂, hs⟩
  · split
    · next e index w₃ he =>
        rw [he] at h₃
        exact ⟨h₃.1, hs.with_index h₃.2⟩
    · next index w₃ he =>
        rw [he] at h₃
        exact ⟨h₃.1, hs.filename, hs.fd, hs.fdRead, h₃.2⟩

theorem write_frame (h : Frame S I w₀ w) (hs : s.Confined S I w₀.fs) (payload : Payload) :
    Frame S I w₀ (s.write payload w).2.2 ∧ (s.write payload w).2.1.Confined S I w₀.fs :=
  writeBuffer_frame h hs payload _

theorem readAt_frame (h : Frame S I w₀ w) (s : Segment) (relativeOffset : ℤ) :
    Frame S I w₀ (s.readAt relativeOffset w).2.2 := by
  unfold readAt
  split
  · exact h
  · next relOffset relPosition _ =>
      split_ifs
      · exact h
      · have h₁ := h.lseek s.fdRead relPosition
        split
        · next w₁ he =>
            rw [he] at h₁
            exact h₁
        · next w₁ he =>
            rw [he] at h₁
            have h₂ := h₁.read s.fdRead relPosition.toNat headerSize
            split
            · next w₂ he₂ =>
                rw [he₂] at h₂
                exact h₂
            · next bytes w₂ he₂ =>
                rw [he₂] at h₂
                dsimp only
                split_ifs
                · exact h₂
                · have h₃ := h₂.read s.fdRead (relPosition.toNat + bytes.length)
                    (fromLE ((bytes ++ (toLE offsetSize (-1) ++ toLE sizeSize (-1)).drop
                      bytes.length).drop offsetSize)).toNat
                  split
                  · next w₃ he₃ =>
                      rw [he₃] at h₃
                      exact h₃
                  · next payload w₃ he₃ =>
                      rw [he₃] at h₃
                      split_ifs <;> exact h₃

end Segment

end MyKafka
