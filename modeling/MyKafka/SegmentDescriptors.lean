import MyKafka.Descriptors
import MyKafka.SegmentCalls

/-!
# The descriptors of a segment object

An object has up to three descriptors: two on its log and one on its index. Its error exits close
descriptors whose numbers stay in the fields, and whoever closes the object next closes them again.
As long as no such exit is taken, a number is closed once.
-/

namespace Posix.World

theorem openCreate_live (w : World) (r : RawPath) :
    (w.openCreate r).1 = .closed ∨ ∃ num i, (w.openCreate r).1 = .live num i := by
  unfold World.openCreate
  split
  · exact Or.inl rfl
  · split
    · exact Or.inl rfl
    · exact Or.inr ⟨_, _, rfl⟩

theorem openRead_live (w : World) (r : RawPath) :
    (w.openRead r).1 = .closed ∨ ∃ num i, (w.openRead r).1 = .live num i := by
  unfold World.openRead
  split
  · exact Or.inl rfl
  · split
    · exact Or.inl rfl
    · exact Or.inr ⟨_, _, rfl⟩

theorem ftruncate_stale (w : World) (num : ℕ) (size : ℤ) : (w.ftruncate (.stale num) size).1 = false := by
  unfold World.ftruncate
  split
  · next he => cases he
  · rfl

end Posix.World

namespace MyKafka

open Posix LittleEndian

theorem closeOnError_world {α : Type} (w : World) (fd : Desc) (code : ErrCode)
    (msg closing : String) : (closeOnError (α := α) w fd code msg closing).2 = (w.close fd).2 := by
  unfold closeOnError
  split <;> simp_all

variable {before : List ℕ} {others : Multiset ℕ} {w : World}

/-! ## The descriptor of an index -/

namespace Index

variable {x : Index}

theorem abandon_custody (h : Custody before (x.fd.held + others) w) (hx : x.fd.Owned)
    (msg closing : String) :
    Custody before ((x.abandon w msg closing).2.1.fd.held + others) (x.abandon w msg closing).2.2 := by
  have hc := h.close hx
  unfold abandon
  dsimp only
  rw [closeOnError_world, Desc.held_released, zero_add]
  exact hc

theorem open_custody (h : Custody before (x.fd.held + others) w) :
    Custody before ((x.open w).2.1.fd.held + others) (x.open w).2.2 := by
  have ho := (h.forget (Multiset.le_add_left others x.fd.held)).openCreate x.filename
  have hlive := w.openCreate_live x.filename
  unfold Index.open
  split
  · next w₁ he =>
      rw [he] at ho
      exact ho
  · next fd w₁ hfd he =>
      rw [he] at ho hlive
      have hd : fd.Owned := by
        obtain ⟨num, i, hl⟩ := hlive.resolve_left (fun hc => hfd hc)
        rw [show fd = .live num i from hl]
        exact Desc.owned_live num i
      have h₁ := ho.same (w₁.fstat_sameFds fd)
      dsimp only
      split
      · next w₂ he₂ =>
          rw [he₂] at h₁
          exact abandon_custody h₁ hd _ _
      · next buf w₂ he₂ =>
          rw [he₂] at h₁
          have h₂ := h₁.same (w₂.ftruncate_sameFds fd (Utils.roundDownToMultiple x.size entryWidth))
          split
          · next w₃ he₃ =>
              rw [he₃] at h₂
              exact abandon_custody h₂ hd _ _
          · next w₃ he₃ =>
              rw [he₃] at h₂
              have h₃ := h₂.same (w₃.lseek_sameFds fd
                (Utils.roundDownToMultiple x.size entryWidth - 1))
              split
              · next w₄ he₄ =>
                  rw [he₄] at h₃
                  exact abandon_custody h₃ hd _ _
              · next w₄ he₄ =>
                  rw [he₄] at h₃
                  have h₄ := h₃.same (w₄.pwrite_sameFds fd
                    (Utils.roundDownToMultiple x.size entryWidth - 1).toNat [0])
                  have h₅ := h₄.same (World.mmap_sameFds _ fd x.size)
                  split_ifs
                  · exact abandon_custody h₄ hd _ _
                  · split
                    · next w₆ he₆ =>
                        rw [he₆] at h₅
                        exact abandon_custody h₅ hd _ _
                    · next addr w₆ _ he₆ =>
                        rw [he₆] at h₅
                        exact h₅

theorem write_sameFds (x : Index) (offset position : ℤ) (w : World) :
    SameFds w (x.write offset position w).2.2 := by
  unfold write
  dsimp only
  split_ifs
  · exact .refl w
  · exact (World.store_sameFds ..).trans (World.store_sameFds ..)

/-- A number that is no longer the object's is not closed: the truncation before fails. -/
theorem close_custody (h : Custody before (x.fd.held + others) w) :
    Custody before ((x.close w).2.1.fd.held + others) (x.close w).2.2 := by
  have h₁ := h.same (w.munmap_sameFds x.addr)
  unfold Index.close
  split_ifs with hfd
  · exact h
  · split
    · next w₁ he =>
        rw [he] at h₁
        exact h₁
    · next w₁ he =>
        rw [he] at h₁
        have h₂ := h₁.same (w₁.ftruncate_sameFds x.fd x.position)
        dsimp only
        split
        · next w₂ he₂ =>
            rw [he₂] at h₂
            exact h₂
        · next w₂ he₂ =>
            rw [he₂] at h₂
            have hd : x.fd.Owned := by
              intro num hstale
              have hfail := w₁.ftruncate_stale num x.position
              rw [← hstale, he₂] at hfail
              cases hfail
            have h₃ := h₂.close hd
            split
            · next w₃ he₃ =>
                rw [he₃] at h₃
                simpa using h₃
            · next w₃ he₃ =>
                rw [he₃] at h₃
                simpa using h₃

/-- Every call `open` makes on the descriptor it obtained is served. -/
def OpenServed (x : Index) (w : World) : Prop :=
  match w.openCreate x.filename with
  | (.closed, _) => True
  | (fd, w) =>
    match w.fstat fd with
    | (none, _) => False
    | (some _, w) =>
      match w.ftruncate fd (Utils.roundDownToMultiple x.size entryWidth) with
      | (false, _) => False
      | (true, w) =>
        match w.lseek fd (Utils.roundDownToMultiple x.size entryWidth - 1) with
        | (false, _) => False
        | (true, w) =>
          match w.pwrite fd (Utils.roundDownToMultiple x.size entryWidth - 1).toNat [0] with
          | (n, w) => 0 ≤ n ∧ (w.mmap fd x.size).1 ≠ .failed

theorem open_owned_iff (x : Index) (w : World) : (x.open w).2.1.fd.Owned ↔ x.OpenServed w := by
  have hlive := w.openCreate_live x.filename
  unfold Index.open OpenServed abandon
  rcases he : w.openCreate x.filename with ⟨fd, w₁⟩
  rw [he] at hlive
  dsimp only at hlive
  rcases hlive with rfl | ⟨num, i, rfl⟩
  · simp
  · dsimp only
    rcases w₁.fstat (.live num i) with ⟨_ | buf, w₂⟩
    · simp [Desc.released]
    · dsimp only
      rcases w₂.ftruncate (.live num i) (Utils.roundDownToMultiple x.size entryWidth) with ⟨_ | _, w₃⟩
      · simp [Desc.released]
      · dsimp only
        rcases w₃.lseek (.live num i) (Utils.roundDownToMultiple x.size entryWidth - 1) with
          ⟨_ | _, w₄⟩
        · simp [Desc.released]
        · dsimp only
          rcases w₄.pwrite (.live num i)
            (Utils.roundDownToMultiple x.size entryWidth - 1).toNat [0] with ⟨n, w₅⟩
          dsimp only
          split_ifs with hn
          · simp [Desc.released, hn]
          · rcases w₅.mmap (.live num i) x.size with ⟨_ | _ | j | j, w₆⟩
            · simpa using hn
            · simp [Desc.released]
            · simpa using hn
            · simpa using hn

theorem abandon_fails (x y : Index) (w w' : World) (msg closing : String) :
    x.abandon w msg closing ≠ (.ok (), y, w') := by
  intro h
  have hres := congrArg Prod.fst h
  unfold abandon closeOnError at hres
  dsimp only at hres
  split at hres <;> cases hres

theorem open_owned {y : Index} {w' : World} (h : x.open w = (.ok (), y, w')) : y.fd.Owned := by
  have hlive := w.openCreate_live x.filename
  unfold Index.open at h
  rcases he : w.openCreate x.filename with ⟨fd, w₁⟩
  rw [he] at hlive h
  dsimp only at hlive
  rcases hlive with rfl | ⟨num, i, rfl⟩
  · cases h
  · dsimp only at h
    split at h
    · exact absurd h (abandon_fails _ _ _ _ _ _)
    · split at h
      · exact absurd h (abandon_fails _ _ _ _ _ _)
      · split at h
        · exact absurd h (abandon_fails _ _ _ _ _ _)
        · split_ifs at h
          · exact absurd h (abandon_fails _ _ _ _ _ _)
          · split at h
            · exact absurd h (abandon_fails _ _ _ _ _ _)
            · cases h
              exact Desc.owned_live num i

/-- `close` is refused no `::close`. -/
def CloseServed (x : Index) (w : World) : Prop :=
  if x.fd = .closed then True
  else
    match w.munmap x.addr with
    | (false, _) => True
    | (true, w) =>
      match w.ftruncate x.fd x.position with
      | (false, _) => True
      | (true, w) => (w.close x.fd).1 = true

theorem close_owned_iff (hx : x.fd.Owned) (w : World) :
    (x.close w).2.1.fd.Owned ↔ x.CloseServed w := by
  unfold Index.close CloseServed
  split_ifs with hfd
  · exact iff_of_true hx trivial
  · rcases w.munmap x.addr with ⟨_ | _, w₁⟩
    · exact iff_of_true hx trivial
    · dsimp only
      rcases w₁.ftruncate x.fd x.position with ⟨_ | _, w₂⟩
      · exact iff_of_true hx trivial
      · dsimp only
        rcases w₂.close x.fd with ⟨_ | _, w₃⟩
        · refine iff_of_false ?_ Bool.false_ne_true
          cases hd : x.fd with
          | closed => exact absurd hd hfd
          | live num i => exact Desc.not_owned_stale num
          | stale num => exact absurd hd (hx num)
        · exact iff_of_true Desc.owned_closed rfl

end Index

/-! ## The descriptors of a segment -/

namespace Segment

variable {s : Segment}

/-- The numbers of the descriptors the object has open. -/
def held (s : Segment) : Multiset ℕ := s.index.fd.held + (s.fd.held + s.fdRead.held)

/-- No field holds the number of a descriptor that was closed. -/
structure Owned (s : Segment) : Prop where
  fd : s.fd.Owned
  fdRead : s.fdRead.Owned
  index : s.index.fd.Owned

theorem Owned.new (path : RawPath) (base maxSize : ℤ) : (Segment.new path base maxSize).Owned :=
  ⟨Desc.owned_closed, Desc.owned_closed, Desc.owned_closed⟩

theorem SameDescs.held {t : Segment} (h : s.SameDescs t) : t.held = s.held := by
  rw [Segment.held, h.fd, h.fdRead, h.indexFd, Segment.held]

theorem SameDescs.owned {t : Segment} (h : s.SameDescs t) (hs : s.Owned) : t.Owned :=
  ⟨h.fd ▸ hs.fd, h.fdRead ▸ hs.fdRead, h.indexFd ▸ hs.index⟩

theorem reconstructLoop_sameFds {fuel : ℕ} {cursor : ℕ} {res : Result Unit} {s' : Segment}
    {w w' : World} (hr : reconstructLoop fuel s cursor w = some (res, s', w')) : SameFds w w' := by
  induction fuel generalizing s cursor w with
  | zero => cases hr
  | succ fuel ih =>
      have h₁ := w.read_sameFds s.fd cursor offsetSize
      unfold reconstructLoop at hr
      split at hr
      · next w₁ he =>
          rw [he] at h₁
          cases hr
          exact h₁
      · next bytes w₁ he =>
          rw [he] at h₁
          split_ifs at hr
          · cases hr
            exact h₁
          · have h₂ := h₁.trans (w₁.read_sameFds s.fd (cursor + bytes.length) sizeSize)
            dsimp only at hr
            split at hr
            · next w₂ he₂ =>
                rw [he₂] at h₂
                cases hr
                exact h₂
            · next bytes' w₂ he₂ =>
                rw [he₂] at h₂
                split_ifs at hr
                · cases hr
                  exact h₂
                · have h₃ := h₂.trans (s.index.write_sameFds
                    (overlay offsetSize s.nextOffset bytes) s.position w₂)
                  split at hr
                  · next e index w₃ he₃ =>
                      rw [he₃] at h₃
                      cases hr
                      exact h₃
                  · next index w₃ he₃ =>
                      rw [he₃] at h₃
                      have h₄ := h₃.trans (w₃.lseek_sameFds s.fd
                        (↑(cursor + bytes.length + bytes'.length) + overlay sizeSize (-1) bytes'))
                      split at hr
                      · next w₄ he₄ =>
                          rw [he₄] at h₄
                          cases hr
                          exact h₄
                      · next w₄ he₄ =>
                          rw [he₄] at h₄
                          exact h₄.trans (ih hr)

theorem reconstruct_sameFds (s : Segment) (w : World) :
    SameFds w (s.reconstructIndexAndGetLastOffset w).2.2 := by
  have h₁ := w.lseek_sameFds s.fd 0
  unfold reconstructIndexAndGetLastOffset
  split
  · next w₁ he =>
      rw [he] at h₁
      exact h₁
  · next w₁ he =>
      rw [he] at h₁
      cases hr : reconstructLoop (room s.index + 1) s 0 w₁ with
      | none => exact h₁
      | some r => exact h₁.trans (reconstructLoop_sameFds hr)

/-! ### Opening -/

theorem abandon_custody (h : Custody before s.held w) (hs : s.Owned) (e : Error) :
    Custody before (s.abandon w e).2.1.held (s.abandon w e).2.2 := by
  have hsplit : s.held = s.fd.held + (s.index.fd.held + s.fdRead.held) := by
    rw [held]
    abel
  rw [hsplit] at h
  have h₁ := h.close hs.fd
  unfold abandon
  split
  · next w₁ he =>
      rw [he] at h₁
      simpa [held] using h₁
  · next w₁ he =>
      rw [he, add_comm] at h₁
      have h₂ := h₁.close hs.fdRead
      split
      · next w₂ he₂ =>
          rw [he₂] at h₂
          simpa [held] using h₂
      · next w₂ he₂ =>
          rw [he₂] at h₂
          simpa [held] using h₂

theorem openLog_custody (h : Custody before s.held w) (hs : s.index.fd.Owned) :
    Custody before (s.openLog w).2.1.held (s.openLog w).2.2 := by
  have hkept : s.index.fd.held + s.fdRead.held ≤ s.held := by
    rw [held]
    gcongr
    exact Multiset.le_add_left _ _
  have h₁ := (h.forget hkept).openCreate s.filename
  have hlive := w.openCreate_live s.filename
  unfold openLog
  split
  · next w₁ he =>
      rw [he] at h₁
      simpa [held] using h₁
  · next fd w₁ hfd he =>
      rw [he] at h₁ hlive
      obtain ⟨num, i, hl⟩ := hlive.resolve_left (fun hc => hfd hc)
      obtain rfl : fd = .live num i := hl
      have h₂ := h₁.same (w₁.fstat_sameFds (.live num i))
      dsimp only
      split
      · next w₂ he₂ =>
          rw [he₂] at h₂
          convert h₂ using 1
          rw [held]
          abel
      · next buf w₂ he₂ =>
          rw [he₂] at h₂
          have hkept' : (Desc.live num i).held + s.index.fd.held ≤
              (Desc.live num i).held + (s.index.fd.held + s.fdRead.held) := by
            gcongr
            exact Multiset.le_add_right _ _
          have h₃ := (h₂.forget hkept').openRead s.filename
          have hlive' := w₂.openRead_live s.filename
          split
          · next w₃ he₃ =>
              rw [he₃] at h₃
              rw [Desc.held_closed, zero_add] at h₃
              have h₄ := h₃.close (Desc.owned_live num i)
              dsimp only
              rw [closeOnError_world]
              simpa [held] using h₄
          · next fdRead w₃ hfdr he₃ =>
              rw [he₃] at h₃ hlive'
              obtain ⟨num', i', hl'⟩ := hlive'.resolve_left (fun hc => hfdr hc)
              obtain rfl : fdRead = .live num' i' := hl'
              have hr := reconstruct_descs { s with
                fd := .live num i, physicalSize := buf.size, mtime := buf.mtime,
                fdRead := .live num' i' } w₃
              have hf := reconstruct_sameFds { s with
                fd := .live num i, physicalSize := buf.size, mtime := buf.mtime,
                fdRead := .live num' i' } w₃
              have hheld : Segment.held { s with
                  fd := .live num i, physicalSize := buf.size, mtime := buf.mtime,
                  fdRead := .live num' i' } =
                  (Desc.live num' i').held + ((Desc.live num i).held + s.index.fd.held) := by
                rw [held]
                abel
              rw [← hheld] at h₃
              have h₄ := h₃.same hf
              rw [← hr.held] at h₄
              split
              · next e s' w₄ he₄ =>
                  rw [he₄] at h₄ hr
                  refine abandon_custody h₄ (hr.owned ?_) e
                  exact ⟨Desc.owned_live num i, Desc.owned_live num' i', hs⟩
              · next s' w₄ he₄ =>
                  rw [he₄] at h₄
                  exact h₄

theorem truncateEntries_fd (x : Index) (nb : ℤ) : (x.truncateEntries nb).2.fd = x.fd := by
  unfold Index.truncateEntries
  split <;> rfl

theorem open_custody (h : Custody before s.held w) :
    Custody before (s.open w).2.1.held (s.open w).2.2 := by
  have hx := Index.open_custody h
  unfold Segment.open
  split
  · next e x w₁ he =>
      rw [he] at hx
      exact hx
  · next x w₁ he =>
      have hlive : x.fd.Owned := Index.open_owned he
      rw [he] at hx
      split
      · exact hx
      · have hfd := truncateEntries_fd x 0
        split
        · next e x' he' =>
            rw [he'] at hfd
            rw [held, show x'.fd = x.fd from hfd]
            exact hx
        · next x' he' =>
            rw [he'] at hfd
            have hfd : x'.fd = x.fd := hfd
            refine openLog_custody ?_ (hfd ▸ hlive)
            rw [held, hfd]
            exact hx

/-- Once the log is open and its size is known, it is opened for reading too, and rebuilt. -/
def LogServed (s : Segment) (w : World) : Prop :=
  match w.openCreate s.filename with
  | (.closed, _) => True
  | (fd, w) =>
    match w.fstat fd with
    | (none, _) => True
    | (some buf, w) =>
      match w.openRead s.filename with
      | (.closed, _) => False
      | (fdRead, w) =>
        match { s with
            fd := fd, physicalSize := buf.size, mtime := buf.mtime,
            fdRead := fdRead }.reconstructIndexAndGetLastOffset w with
        | (.error _, _, _) => False
        | (.ok _, _, _) => True

/-- `open` closes nothing of what it opened. -/
def OpenServed (s : Segment) (w : World) : Prop :=
  s.index.OpenServed w ∧
    match s.index.open w with
    | (.error _, _, _) => True
    | (.ok _, index, w) =>
      match index.sanityCheck w with
      | .error _ => True
      | .ok _ =>
        match index.truncateEntries 0 with
        | (.error _, _) => True
        | (.ok _, index) => { s with index := index }.LogServed w

theorem abandon_not_owned {num i : ℕ} (hfd : s.fd = .live num i) (w : World) (e : Error) :
    ¬ (s.abandon w e).2.1.Owned := by
  intro h
  have hd := h.fd
  rw [abandon_fd, hfd] at hd
  exact Desc.not_owned_stale num hd

theorem openLog_owned_iff (hs : s.Owned) (w : World) : (s.openLog w).2.1.Owned ↔ s.LogServed w := by
  have hlive := w.openCreate_live s.filename
  unfold openLog LogServed
  rcases he : w.openCreate s.filename with ⟨fd, w₁⟩
  rw [he] at hlive
  dsimp only at hlive
  rcases hlive with rfl | ⟨num, i, rfl⟩
  · exact iff_of_true ⟨Desc.owned_closed, hs.fdRead, hs.index⟩ trivial
  · dsimp only
    rcases w₁.fstat (.live num i) with ⟨_ | buf, w₂⟩
    · exact iff_of_true ⟨Desc.owned_live num i, hs.fdRead, hs.index⟩ trivial
    · dsimp only
      have hlive' := w₂.openRead_live s.filename
      rcases he' : w₂.openRead s.filename with ⟨fdRead, w₃⟩
      rw [he'] at hlive'
      dsimp only at hlive'
      rcases hlive' with rfl | ⟨num', i', rfl⟩
      · exact iff_of_false (fun h => Desc.not_owned_stale num h.fd) id
      · dsimp only
        have hr := reconstruct_descs { s with
          fd := .live num i, physicalSize := buf.size, mtime := buf.mtime,
          fdRead := .live num' i' } w₃
        rcases hrec : Segment.reconstructIndexAndGetLastOffset { s with
          fd := .live num i, physicalSize := buf.size, mtime := buf.mtime,
          fdRead := .live num' i' } w₃ with ⟨_ | _, s', w₄⟩
        · rw [hrec] at hr
          exact iff_of_false (abandon_not_owned hr.fd w₄ _) id
        · rw [hrec] at hr
          refine iff_of_true (hr.owned ?_) trivial
          exact ⟨Desc.owned_live num i, Desc.owned_live num' i', hs.index⟩

/-- An `open` leaves the number of a closed descriptor behind when it closes what it opened. -/
theorem open_owned_iff (hs : s.Owned) (w : World) : (s.open w).2.1.Owned ↔ s.OpenServed w := by
  have hx := s.index.open_owned_iff w
  have hwith : ∀ x : Index, { s with index := x }.Owned ↔ x.fd.Owned :=
    fun x => ⟨fun h => h.index, fun h => ⟨hs.fd, hs.fdRead, h⟩⟩
  unfold Segment.open OpenServed
  rcases he : s.index.open w with ⟨_ | _, x, w₁⟩
  · rw [he] at hx
    rw [← hx]
    exact (hwith x).trans (and_iff_left trivial).symm
  · rw [he] at hx
    have hlive : x.fd.Owned := Index.open_owned he
    rw [← hx, and_iff_right hlive]
    dsimp only
    rcases x.sanityCheck w₁ with _ | _
    · exact iff_of_true ((hwith x).mpr hlive) trivial
    · dsimp only
      have hfd := truncateEntries_fd x 0
      rcases ht : x.truncateEntries 0 with ⟨_ | _, x'⟩ <;> rw [ht] at hfd
      · exact iff_of_true ((hwith x').mpr (hfd ▸ hlive)) trivial
      · exact openLog_owned_iff ((hwith x').mpr (hfd ▸ hlive)) w₁

/-! ### Closing -/

/-- `close` is refused no `::close`. -/
def CloseServed (s : Segment) (w : World) : Prop :=
  if s.fd = .closed then True
  else
    match w.close s.fd with
    | (false, _) => False
    | (true, w) =>
      match w.close s.fdRead with
      | (false, _) => False
      | (true, w) => s.index.CloseServed w

theorem close_owned_iff (hs : s.Owned) (w : World) : (s.close w).2.1.Owned ↔ s.CloseServed w := by
  unfold Segment.close CloseServed
  split_ifs with hfd
  · exact iff_of_true hs trivial
  · have hstale : ¬ s.fd.released.Owned := by
      cases hd : s.fd with
      | closed => exact absurd hd hfd
      | live num i => exact Desc.not_owned_stale num
      | stale num => exact absurd hd (hs.fd num)
    rcases w.close s.fd with ⟨_ | _, w₁⟩
    · exact iff_of_false (fun h => hstale h.fd) id
    · dsimp only
      rcases w₁.close s.fdRead with ⟨_ | _, w₂⟩
      · exact iff_of_false (fun h => hstale h.fd) id
      · dsimp only
        rw [← Index.close_owned_iff hs.index]
        exact ⟨fun h => h.index, fun h => ⟨Desc.owned_closed, Desc.owned_closed, h⟩⟩

theorem close_custody (h : Custody before s.held w) (hfd : s.fd.Owned) (hfdr : s.fdRead.Owned) :
    Custody before (s.close w).2.1.held (s.close w).2.2 := by
  unfold Segment.close
  split_ifs with hclosed
  · exact h
  · have hsplit : s.held = s.fd.held + (s.fdRead.held + s.index.fd.held) := by
      rw [held]
      abel
    rw [hsplit] at h
    have h₁ := h.close hfd
    split
    · next w₁ he =>
        rw [he, add_comm] at h₁
        simpa [held] using h₁
    · next w₁ he =>
        rw [he] at h₁
        have h₂ := h₁.close hfdr
        split
        · next w₂ he₂ =>
            rw [he₂] at h₂
            simpa [held] using h₂
        · next w₂ he₂ =>
            rw [he₂] at h₂
            rw [← add_zero s.index.fd.held] at h₂
            have h₃ := Index.close_custody h₂
            simpa [held] using h₃

/-- The destructor of the index finds what the one of the segment left. -/
theorem destroy_custody (h : Custody before s.held w) (hfd : s.fd.Owned) (hfdr : s.fdRead.Owned) :
    ∃ ns, (s.destroy w).closed = ns ++ before ∧ ns.Nodup := by
  have h₁ := close_custody h hfd hfdr
  unfold destroy
  exact (Index.close_custody h₁).once

theorem deleteSegment_sameFds (s : Segment) (w : World) :
    SameFds (s.close w).2.2 (s.deleteSegment w).2.2 := by
  have h₁ := (s.close w).2.2.unlink_sameFds (s.close w).2.1.filename
  unfold deleteSegment
  dsimp only
  split
  · next w₁ he =>
      rw [he] at h₁
      exact h₁
  · next w₁ he =>
      rw [he] at h₁
      have h₂ := h₁.trans (w₁.unlink_sameFds (s.close w).2.1.index.filename)
      unfold Index.deleteIndex
      split
      · next w₂ he₂ =>
          rw [he₂] at h₂
          exact h₂
      · next w₂ he₂ =>
          rw [he₂] at h₂
          exact h₂

theorem appendPayload_sameFds (w : World) (fd : Desc) (payload : Payload) (payloadSize : ℤ) :
    SameFds w (appendPayload w fd payload payloadSize).2 := by
  unfold appendPayload
  split_ifs
  · exact w.served_sameFds
  · exact w.append_sameFds fd _

theorem writeBuffer_sameFds (s : Segment) (payload : Payload) (payloadSize : ℤ) (w : World) :
    SameFds w (s.writeBuffer payload payloadSize w).2.2 := by
  have h₁ := w.append_sameFds s.fd (toLE offsetSize s.nextOffset ++ toLE sizeSize payloadSize)
  have h₂ := h₁.trans (appendPayload_sameFds _ s.fd payload payloadSize)
  have h₃ := h₂.trans (s.index.write_sameFds s.nextOffset s.position _)
  unfold writeBuffer
  dsimp only
  split_ifs
  · exact h₁
  · exact h₂
  · split
    · next e x w₂ he =>
        rw [he] at h₃
        exact h₃
    · next x w₂ he =>
        rw [he] at h₃
        exact h₃

theorem write_sameFds (s : Segment) (payload : Payload) (w : World) :
    SameFds w (s.write payload w).2.2 := s.writeBuffer_sameFds payload _ w

theorem readAt_sameFds (s : Segment) (relativeOffset : ℤ) (w : World) :
    SameFds w (s.readAt relativeOffset w).2.2 := by
  unfold readAt
  split
  · exact .refl w
  · next relOffset relPosition _ =>
      split_ifs
      · exact .refl w
      · have h₁ := w.lseek_sameFds s.fdRead relPosition
        split
        · next w₁ he =>
            rw [he] at h₁
            exact h₁
        · next w₁ he =>
            rw [he] at h₁
            have h₂ := h₁.trans (w₁.read_sameFds s.fdRead relPosition.toNat headerSize)
            split
            · next w₂ he₂ =>
                rw [he₂] at h₂
                exact h₂
            · next bytes w₂ he₂ =>
                rw [he₂] at h₂
                dsimp only
                split_ifs
                · exact h₂
                · have h₃ := h₂.trans (w₂.read_sameFds s.fdRead (relPosition.toNat + bytes.length)
                    (fromLE ((bytes ++ (toLE offsetSize (-1) ++ toLE sizeSize (-1)).drop
                      bytes.length).drop offsetSize)).toNat)
                  split
                  · next w₃ he₃ =>
                      rw [he₃] at h₃
                      exact h₃
                  · next payload w₃ he₃ =>
                      rw [he₃] at h₃
                      split_ifs <;> exact h₃

end Segment

/-! ## Runs -/

namespace SegmentHost

variable {h : SegmentHost}

/-- The call does not close a descriptor at an exit that keeps its number. -/
def Served (h : SegmentHost) : SegmentCall → Prop
  | .open => h.segment.OpenServed h.world
  | .write _ => True
  | .readAt _ => True
  | .close => h.segment.CloseServed h.world
  | .deleteSegment => h.segment.CloseServed h.world

/-- The destruction of the object. -/
def destroy (h : SegmentHost) : World := h.segment.destroy h.world

/-- Of the numbers closed after `w` none was closed twice. -/
def ClosesOnce (w w' : World) : Prop := ∃ ns, w'.closed = ns ++ w.closed ∧ ns.Nodup

theorem call_owned_iff (hs : h.segment.Owned) (c : SegmentCall) :
    (h.call c).2.segment.Owned ↔ h.Served c := by
  cases c with
  | «open» => exact Segment.open_owned_iff hs h.world
  | write payload => exact iff_of_true ((h.segment.write_descs payload h.world).owned hs) trivial
  | readAt relativeOffset => exact iff_of_true hs trivial
  | close => exact Segment.close_owned_iff hs h.world
  | deleteSegment =>
      show (h.segment.deleteSegment h.world).2.1.Owned ↔ _
      rw [Segment.deleteSegment_segment]
      exact Segment.close_owned_iff hs h.world

theorem call_custody (hc : Custody before h.segment.held h.world) (hs : h.segment.Owned)
    (c : SegmentCall) : Custody before (h.call c).2.segment.held (h.call c).2.world := by
  cases c with
  | «open» => exact Segment.open_custody hc
  | write payload =>
      have hw := hc.same (h.segment.write_sameFds payload h.world)
      rw [← (h.segment.write_descs payload h.world).held] at hw
      exact hw
  | readAt relativeOffset => exact hc.same (h.segment.readAt_sameFds relativeOffset h.world)
  | close => exact Segment.close_custody hc hs.fd hs.fdRead
  | deleteSegment =>
      have hw := (Segment.close_custody hc hs.fd hs.fdRead).same
        (h.segment.deleteSegment_sameFds h.world)
      rw [← Segment.deleteSegment_segment] at hw
      exact hw

end SegmentHost

namespace SegmentHost

theorem always_owned_iff (hs : h.segment.Owned) (calls : List SegmentCall) :
    Runs.Always call (fun h c => (h.call c).2.segment.Owned) h calls ↔
      Runs.Always call Served h calls := by
  have hany : Runs.Always call (fun _ _ => True) h calls := Runs.always_inputs fun _ _ => trivial
  refine Runs.always_congr (P := fun h : SegmentHost => h.segment.Owned) ?_ ?_ hs hany
  · intro h c hs _
    exact call_owned_iff hs c
  · intro h c _ _ howned
    exact howned

theorem run_custody {calls : List SegmentCall} (hc : Custody before h.segment.held h.world)
    (hs : h.segment.Owned) (hserved : Runs.Always call Served h calls) :
    Custody before (Runs.final call h calls).segment.held (Runs.final call h calls).world ∧
      (Runs.final call h calls).segment.Owned := by
  refine Runs.invariant (P := fun h => Custody before h.segment.held h.world ∧ h.segment.Owned)
    ?_ ⟨hc, hs⟩ hserved
  rintro h c ⟨hc, hs⟩ hserved
  exact ⟨call_custody hc hs c, (call_owned_iff hs c).mpr hserved⟩

end SegmentHost

/-- Whatever the two files hold and the kernel answers: wherever the run ends, no number was closed
twice, and no call leaves a number that was closed in a field, if and only if no call of the run takes
an exit that closes a descriptor and keeps its number. -/
theorem closes_once_iff (path : RawPath) (base maxSize : ℤ) (w : World) (calls : List SegmentCall) :
    ((∀ k, SegmentHost.ClosesOnce w
        ((Runs.final SegmentHost.call (.create path base maxSize w) (calls.take k)).destroy)) ∧
      Runs.Always SegmentHost.call (fun h c => (h.call c).2.segment.Owned)
        (.create path base maxSize w) calls) ↔
      Runs.Always SegmentHost.call SegmentHost.Served (.create path base maxSize w) calls := by
  have hs : (SegmentHost.create path base maxSize w).segment.Owned :=
    Segment.Owned.new path base maxSize
  rw [SegmentHost.always_owned_iff hs]
  refine ⟨And.right, fun hserved => ⟨fun k => ?_, hserved⟩⟩
  have hstart : Custody w.closed (SegmentHost.create path base maxSize w).segment.held
      (SegmentHost.create path base maxSize w).world := Custody.start w
  rw [← List.take_append_drop k calls, Runs.always_append] at hserved
  obtain ⟨hc, hs'⟩ := SegmentHost.run_custody hstart hs hserved.1
  exact Segment.destroy_custody hc hs'.fd hs'.fdRead

/-- A log that is cut off inside the header of its first record. -/
theorem abandoned_log_closed_twice :
    let created := (World.blank 0).openCreate (getLogFilename ⟨[], []⟩ 0)
    let w := (created.2.append created.1 [0, 0, 0, 0, 0, 0, 0, 0]).2
    ¬ SegmentHost.ClosesOnce w
      (Runs.final SegmentHost.call (.create ⟨[], []⟩ 0 100 w) [.open]).destroy := by
  intro created w h
  obtain ⟨ns, hns, hnodup⟩ := h
  rw [show w.closed = [] by decide +kernel, List.append_nil] at hns
  revert hnodup
  rw [← hns]
  decide +kernel

end MyKafka
