import MyKafka.Segment

/-!
# What a segment has open

A segment keeps inodes open, also inodes whose name is gone. Whatever the kernel answers, an operation
only adds inodes that were handed out by the time it returns, so that an inode which is created later
is no one's yet. Reading depends on the inodes that are open only.
-/

namespace Posix

def Desc.Uses (d : Desc) (i : ℕ) : Prop := ∃ num, d = .live num i

def Addr.Uses (a : Addr) (i : ℕ) : Prop := a = .mapped i

@[simp] theorem Desc.not_uses_closed (i : ℕ) : ¬ Desc.closed.Uses i := by
  rintro ⟨num, h⟩
  cases h

@[simp] theorem Desc.not_uses_released (d : Desc) (i : ℕ) : ¬ d.released.Uses i := by
  rintro ⟨num, h⟩
  cases d <;> cases h

@[simp] theorem Addr.not_uses_null (i : ℕ) : ¬ Addr.null.Uses i := by
  intro h
  cases h

@[simp] theorem Addr.not_uses_released (a : Addr) (i : ℕ) : ¬ a.released.Uses i := by
  intro h
  cases a <;> cases h

@[simp] theorem Addr.not_uses_failed (i : ℕ) : ¬ Addr.failed.Uses i := by
  intro h
  cases h

/-- From `w` to `w'` inodes were only handed out, and what is open in the end was open before or was
handed out by then. -/
structure Grows (uses uses' : ℕ → Prop) (w w' : World) : Prop where
  next : w.fs.nextIno ≤ w'.fs.nextIno
  uses : ∀ i, uses' i → uses i ∨ i < w'.fs.nextIno

namespace Grows

variable {U V V' : ℕ → Prop} {w w₁ w₂ : World}

theorem refl (U : ℕ → Prop) (w : World) : Grows U U w w := ⟨le_rfl, fun _ => Or.inl⟩

theorem trans (h : Grows U V w w₁) (h' : Grows V V' w₁ w₂) : Grows U V' w w₂ where
  next := h.next.trans h'.next
  uses i hi := by
    rcases h'.uses i hi with hi | hi
    · exact (h.uses i hi).imp_right (fun hlt => hlt.trans_le h'.next)
    · exact Or.inr hi

theorem sub (h : Grows U V w w₁) (hV : ∀ i, V' i → V i) : Grows U V' w w₁ :=
  ⟨h.next, fun i hi => h.uses i (hV i hi)⟩

theorem of_sub (h : Grows V V' w w₁) (hU : ∀ i, V i → U i) : Grows U V' w w₁ :=
  ⟨h.next, fun i hi => (h.uses i hi).imp_left (hU i)⟩

theorem same (h : Grows U V w w₁) (he : w₂.fs.nextIno = w₁.fs.nextIno) : Grows U V w w₂ where
  next := h.next.trans_eq he.symm
  uses i hi := by
    rw [he]
    exact h.uses i hi

theorem beside (h : Grows U V w w₁) (R : ℕ → Prop) :
    Grows (fun i => R i ∨ U i) (fun i => R i ∨ V i) w w₁ where
  next := h.next
  uses i hi := by
    rcases hi with hi | hi
    · exact Or.inl (Or.inl hi)
    · exact (h.uses i hi).imp_left Or.inr

end Grows

namespace World

variable {w : World}

/-- What a call that succeeds has found. -/
theorem lseek_inv {w w' : World} {d : Desc} {target : ℤ} (h : w.lseek d target = (true, w')) :
    0 ≤ target ∧ ∃ num i, d = .live num i := by
  unfold World.lseek at h
  split at h
  · next num i _ =>
      rw [Prod.mk.injEq, decide_eq_true_eq] at h
      exact ⟨h.1, num, i, rfl⟩
  · cases h

theorem read_inv {w w' : World} {num i pos n : ℕ} {bytes : List UInt8}
    (h : w.read (.live num i) pos n = (some bytes, w')) :
    bytes = (w.fs.data i).image.read pos n := by
  have hs := w.fs_served
  unfold World.read at h
  split at h
  · next w₁ num' i' he hd =>
      rw [he] at hs
      cases hd
      rw [Prod.mk.injEq, Option.some.injEq] at h
      rw [← h.1, ← hs]
  · cases h

@[simp] theorem nextIno_fstat (w : World) (d : Desc) : (w.fstat d).2.fs.nextIno = w.fs.nextIno := by
  have hs := w.fs_served
  unfold World.fstat
  split <;> simp_all

@[simp] theorem nextIno_ftruncate (w : World) (d : Desc) (size : ℤ) :
    (w.ftruncate d size).2.fs.nextIno = w.fs.nextIno := by
  have hs := w.fs_served
  unfold World.ftruncate
  split
  · split_ifs <;> simp_all [World.setImage]
  · simp_all

@[simp] theorem nextIno_lseek (w : World) (d : Desc) (target : ℤ) :
    (w.lseek d target).2.fs.nextIno = w.fs.nextIno := by rw [fs_lseek]

@[simp] theorem nextIno_read (w : World) (d : Desc) (pos n : ℕ) :
    (w.read d pos n).2.fs.nextIno = w.fs.nextIno := by rw [fs_read]

@[simp] theorem nextIno_pwrite (w : World) (d : Desc) (pos : ℕ) (bs : List UInt8) :
    (w.pwrite d pos bs).2.fs.nextIno = w.fs.nextIno := by
  have hs := w.fs_next
  unfold World.pwrite
  split <;> simp_all [World.setImage]

@[simp] theorem nextIno_append (w : World) (d : Desc) (bs : List UInt8) :
    (w.append d bs).2.fs.nextIno = w.fs.nextIno := by
  have hs := w.fs_next
  unfold World.append
  split <;> simp_all [World.setImage]

@[simp] theorem nextIno_mmap (w : World) (d : Desc) (size : ℤ) :
    (w.mmap d size).2.fs.nextIno = w.fs.nextIno := by
  have hs := w.fs_served
  unfold World.mmap
  split <;> simp_all

@[simp] theorem nextIno_munmap (w : World) (a : Addr) :
    (w.munmap a).2.fs.nextIno = w.fs.nextIno := by rw [fs_munmap]

@[simp] theorem nextIno_close (w : World) (d : Desc) : (w.close d).2.fs.nextIno = w.fs.nextIno := by
  rw [fs_close]

@[simp] theorem nextIno_store (w : World) (a : Addr) (addr : ℕ) (bs : List UInt8) :
    (w.store a addr bs).fs.nextIno = w.fs.nextIno := by
  cases a <;> rfl

@[simp] theorem nextIno_unlink (w : World) (r : RawPath) :
    (w.unlink r).2.fs.nextIno = w.fs.nextIno := by
  have hs := w.fs_served
  unfold World.unlink
  split
  · simp_all
  · split
    · simp_all
    · split
      · simp_all [FileSystem.erase, FileSystem.discard]
      · simp_all

@[simp] theorem nextIno_remove (w : World) (r : RawPath) :
    (w.remove r).fs.nextIno = w.fs.nextIno := by
  unfold World.remove
  split
  · rfl
  · split
    · rfl
    · rfl
    · split_ifs <;> rfl

@[simp] theorem nextIno_removeAll (w : World) (r : RawPath) :
    (w.removeAll r).fs.nextIno = w.fs.nextIno := by
  unfold World.removeAll
  split <;> rfl

theorem nextIno_mkdirs (fs : FileSystem) (cur : Path) (ns : List Name) :
    (fs.mkdirs cur ns).2.nextIno = fs.nextIno := by
  induction ns generalizing cur fs with
  | nil => rfl
  | cons n ns ih =>
      rw [FileSystem.mkdirs]
      split
      · exact ih ..
      · rfl
      · exact (ih ..).trans rfl

@[simp] theorem nextIno_createDirectories (w : World) (r : RawPath) :
    (w.createDirectories r).2.fs.nextIno = w.fs.nextIno := by
  have hs := w.fs_served
  unfold World.createDirectories
  split
  · simp_all
  · next w' he =>
      rw [he] at hs
      exact (nextIno_mkdirs ..).trans (congrArg FileSystem.nextIno hs)

/-! ## Opening -/

theorem openCreate_grows (w : World) (r : RawPath) (U : ℕ → Prop) :
    Grows U (fun i => U i ∨ (w.openCreate r).1.Uses i) w (w.openCreate r).2 := by
  suffices h : Grows U (w.openCreate r).1.Uses w (w.openCreate r).2 from
    ⟨h.next, fun i hi => hi.elim Or.inl (h.uses i)⟩
  have hs := w.fs_served
  unfold World.openCreate
  split
  · next w' he =>
      rw [he] at hs
      exact ⟨(congrArg FileSystem.nextIno hs).ge, by simp⟩
  · next w' he =>
      rw [he] at hs
      dsimp only at hs
      split
      · exact ⟨(congrArg FileSystem.nextIno hs).ge, by simp⟩
      · next i fs ho =>
          rw [hs] at ho
          unfold FileSystem.openCreate at ho
          split at ho
          · cases ho
          · next p hp =>
              split at ho
              · cases ho
              · next j hj =>
                  simp only [Option.some.injEq, Prod.mk.injEq] at ho
                  obtain ⟨rfl, rfl⟩ := ho
                  refine ⟨le_rfl, ?_⟩
                  rintro _ ⟨num, ⟨⟩⟩
                  exact Or.inr (FileSystem.node?_lt hj)
              · split_ifs at ho
                simp only [Option.some.injEq, Prod.mk.injEq] at ho
                obtain ⟨rfl, rfl⟩ := ho
                refine ⟨Nat.le_succ _, ?_⟩
                rintro _ ⟨num, ⟨⟩⟩
                exact Or.inr (Nat.lt_succ_self _)

theorem openRead_grows (w : World) (r : RawPath) (U : ℕ → Prop) :
    Grows U (fun i => U i ∨ (w.openRead r).1.Uses i) w (w.openRead r).2 := by
  suffices h : Grows U (w.openRead r).1.Uses w (w.openRead r).2 from
    ⟨h.next, fun i hi => hi.elim Or.inl (h.uses i)⟩
  have hs := w.fs_served
  unfold World.openRead
  split
  · next w' he =>
      rw [he] at hs
      exact ⟨(congrArg FileSystem.nextIno hs).ge, by simp⟩
  · next w' he =>
      rw [he] at hs
      dsimp only at hs
      split
      · exact ⟨(congrArg FileSystem.nextIno hs).ge, by simp⟩
      · next i ho =>
          refine ⟨(congrArg FileSystem.nextIno hs).ge, ?_⟩
          rintro _ ⟨num, ⟨⟩⟩
          rw [hs] at ho ⊢
          unfold FileSystem.fileAt at ho
          split at ho
          · cases ho
          · next p hp =>
              split at ho
              · next hj =>
                  cases ho
                  exact Or.inr (FileSystem.node?_lt hj)
              · cases ho

theorem mmap_uses {d : Desc} {size : ℤ} {a : Addr} {w' : World} (he : w.mmap d size = (a, w'))
    {i : ℕ} (h : a.Uses i) : d.Uses i := by
  rw [show a = (w.mmap d size).1 by rw [he]] at h
  unfold World.mmap at h
  split at h
  · next w' num j he =>
      dsimp only at h
      split_ifs at h
      · cases h
        exact ⟨num, rfl⟩
      · simp at h
  · simp at h

end World

end Posix

namespace MyKafka

open Posix LittleEndian

variable {w : World}

theorem nextIno_closeOnError {α : Type} (w : World) (fd : Desc) (code : ErrCode)
    (msg closing : String) :
    (closeOnError (α := α) w fd code msg closing).2.fs.nextIno = w.fs.nextIno := by
  have hc := w.nextIno_close fd
  unfold closeOnError
  split <;> simp_all

/-! ## Indexes -/

namespace Index

def Uses (x : Index) (i : ℕ) : Prop := x.fd.Uses i ∨ x.addr.Uses i

variable {x : Index} {U V : ℕ → Prop} {w₀ : World}

theorem abandon_grows (h : Grows U V w₀ w) (hx : ∀ i, x.Uses i → V i) (msg closing : String) :
    Grows U (x.abandon w msg closing).2.1.Uses w₀ (x.abandon w msg closing).2.2 := by
  unfold abandon
  split
  next e w₁ he =>
    have hc := nextIno_closeOnError (α := Unit) w x.fd .fileError
      (msg ++ pathText x.filename ++ " because: ") (closing ++ pathText x.filename ++ " because: ")
    rw [he] at hc
    refine (h.sub ?_).same hc
    rintro i (hi | hi)
    · exact absurd hi (Desc.not_uses_released _ i)
    · exact hx i (Or.inr hi)

theorem open_grows (x : Index) (w : World) :
    Grows x.Uses (x.open w).2.1.Uses w (x.open w).2.2 := by
  have h₁ := w.openCreate_grows x.filename x.Uses
  unfold «open»
  split
  · next w₁ he =>
      rw [he] at h₁
      refine h₁.sub ?_
      rintro i (hi | hi)
      · exact absurd hi (Desc.not_uses_closed i)
      · exact Or.inl (Or.inr hi)
  · next fd w₁ hfd he =>
      rw [he] at h₁
      have hopened : ∀ (position : ℤ) i,
          { x with fd := fd, position := position }.Uses i → x.Uses i ∨ fd.Uses i := by
        rintro position i (hi | hi)
        · exact Or.inr hi
        · exact Or.inl (Or.inr hi)
      dsimp only
      split
      · next w₂ he₂ =>
          have h₂ := h₁.same (w₁.nextIno_fstat fd)
          rw [he₂] at h₂
          exact abandon_grows h₂ (hopened _) ..
      · next buf w₂ he₂ =>
          have h₂ := h₁.same (w₁.nextIno_fstat fd)
          rw [he₂] at h₂
          have h₃ := h₂.same (w₂.nextIno_ftruncate fd (Utils.roundDownToMultiple x.size entryWidth))
          split
          · next w₃ he₃ =>
              rw [he₃] at h₃
              exact abandon_grows h₃ (hopened _) ..
          · next w₃ he₃ =>
              rw [he₃] at h₃
              have h₄ := h₃.same (w₃.nextIno_lseek fd
                (Utils.roundDownToMultiple x.size entryWidth - 1))
              split
              · next w₄ he₄ =>
                  rw [he₄] at h₄
                  exact abandon_grows h₄ (hopened _) ..
              · next w₄ he₄ =>
                  rw [he₄] at h₄
                  have h₅ := h₄.same (w₄.nextIno_pwrite fd
                    (Utils.roundDownToMultiple x.size entryWidth - 1).toNat [0])
                  have h₆ := h₅.same (World.nextIno_mmap _ fd x.size)
                  split_ifs
                  · exact abandon_grows h₅ (hopened _) ..
                  · split
                    · next w₆ he₆ =>
                        rw [he₆] at h₆
                        refine abandon_grows h₆ ?_ ..
                        rintro i (hi | hi)
                        · exact Or.inr hi
                        · exact absurd hi (Addr.not_uses_failed i)
                    · next addr w₆ haddr he₆ =>
                        rw [he₆] at h₆
                        refine h₆.sub ?_
                        rintro i (hi | hi)
                        · exact Or.inr hi
                        · exact Or.inr (World.mmap_uses he₆ hi)

theorem write_grows (h : Grows U x.Uses w₀ w) (offset position : ℤ) :
    Grows U (x.write offset position w).2.1.Uses w₀ (x.write offset position w).2.2 := by
  unfold write
  dsimp only
  split_ifs
  · exact h
  · exact h.same (by simp)

theorem close_grows (h : Grows U V w₀ w) (hx : ∀ i, x.Uses i → V i) :
    Grows U (x.close w).2.1.Uses w₀ (x.close w).2.2 := by
  have hgone : ∀ i, { x with addr := x.addr.released }.Uses i → V i := by
    rintro i (hi | hi)
    · exact hx i (Or.inl hi)
    · exact absurd hi (Addr.not_uses_released _ i)
  unfold close
  split_ifs
  · exact h.sub hx
  · have h₁ := h.same (w.nextIno_munmap x.addr)
    split
    · next w₁ he =>
        rw [he] at h₁
        exact h₁.sub hx
    · next w₁ he =>
        rw [he] at h₁
        have h₂ := h₁.same (w₁.nextIno_ftruncate x.fd x.position)
        dsimp only
        split
        · next w₂ he₂ =>
            rw [he₂] at h₂
            exact h₂.sub hgone
        · next w₂ he₂ =>
            rw [he₂] at h₂
            have h₃ := h₂.same (w₂.nextIno_close x.fd)
            split
            · next w₃ he₃ =>
                rw [he₃] at h₃
                refine h₃.sub ?_
                rintro i (hi | hi)
                · exact absurd hi (Desc.not_uses_released _ i)
                · exact absurd hi (Addr.not_uses_released _ i)
            · next w₃ he₃ =>
                rw [he₃] at h₃
                refine h₃.sub ?_
                rintro i (hi | hi)
                · exact absurd hi (Desc.not_uses_closed i)
                · exact absurd hi (Addr.not_uses_released _ i)

theorem deleteIndex_grows (h : Grows U V w₀ w) (x : Index) : Grows U V w₀ (x.deleteIndex w).2 := by
  have hu := w.nextIno_unlink x.filename
  unfold deleteIndex
  split
  · next w₁ he =>
      rw [he] at hu
      exact h.same hu
  · next w₁ he =>
      rw [he] at hu
      exact h.same hu

theorem truncateEntries_uses (nb : ℤ) {i : ℕ} (h : (x.truncateEntries nb).2.Uses i) : x.Uses i := by
  unfold truncateEntries at h
  split_ifs at h
  · exact h
  · exact h

end Index

/-! ## Segments -/

namespace Segment

/-- The segment has the inode open or mapped. -/
def Uses (s : Segment) (i : ℕ) : Prop :=
  (∃ num, s.fd = .live num i) ∨ (∃ num, s.fdRead = .live num i) ∨
    (∃ num, s.index.fd = .live num i) ∨ s.index.addr = .mapped i

variable {s : Segment} {U V : ℕ → Prop} {w₀ : World}

theorem index_write_grows (h : Grows U s.Uses w₀ w) (offset position : ℤ) :
    Grows U { s with index := (s.index.write offset position w).2.1 }.Uses w₀
      (s.index.write offset position w).2.2 := by
  have hx := (Index.write_grows (.refl s.index.Uses w) offset position).beside
    (fun i => s.fd.Uses i ∨ s.fdRead.Uses i)
  exact (h.trans (hx.of_sub (fun i hi => or_assoc.mp hi))).sub (fun i hi => or_assoc.mpr hi)

theorem reconstructLoop_grows {fuel cursor : ℕ} {res : Result Unit} {s' : Segment} {w' : World}
    (h : Grows U s.Uses w₀ w) (hr : reconstructLoop fuel s cursor w = some (res, s', w')) :
    Grows U s'.Uses w₀ w' := by
  induction fuel generalizing s cursor w with
  | zero => cases hr
  | succ fuel ih =>
      have h₁ := h.same (w.nextIno_read s.fd cursor offsetSize)
      unfold reconstructLoop at hr
      split at hr
      · next w₁ he =>
          rw [he] at h₁
          cases hr
          exact h₁
      · next bytes w₁ he =>
          rw [he] at h₁
          split_ifs at hr
          · cases hr
            exact h₁
          · have h₂ := h₁.same (w₁.nextIno_read s.fd (cursor + bytes.length) sizeSize)
            dsimp only at hr
            split at hr
            · next w₂ he₂ =>
                rw [he₂] at h₂
                cases hr
                exact h₂
            · next bytes' w₂ he₂ =>
                rw [he₂] at h₂
                split_ifs at hr
                · cases hr
                  exact h₂
                · have h₃ := index_write_grows h₂ (overlay offsetSize s.nextOffset bytes) s.position
                  split at hr
                  · next e index w₃ he₃ =>
                      rw [he₃] at h₃
                      cases hr
                      exact h₃
                  · next index w₃ he₃ =>
                      rw [he₃] at h₃
                      have h₄ := h₃.same (w₃.nextIno_lseek s.fd
                        (↑(cursor + bytes.length + bytes'.length) + overlay sizeSize (-1) bytes'))
                      split at hr
                      · next w₄ he₄ =>
                          rw [he₄] at h₄
                          cases hr
                          exact h₄
                      · next w₄ he₄ =>
                          rw [he₄] at h₄
                          refine ih ?_ hr
                          exact h₄

theorem reconstruct_grows (h : Grows U s.Uses w₀ w) :
    Grows U (s.reconstructIndexAndGetLastOffset w).2.1.Uses w₀
      (s.reconstructIndexAndGetLastOffset w).2.2 := by
  have h₁ := h.same (w.nextIno_lseek s.fd 0)
  unfold reconstructIndexAndGetLastOffset
  split
  · next w₁ he =>
      rw [he] at h₁
      exact h₁
  · next w₁ he =>
      rw [he] at h₁
      cases hr : reconstructLoop (room s.index + 1) s 0 w₁ with
      | none => exact h₁
      | some out => exact reconstructLoop_grows h₁ hr

theorem abandon_grows (h : Grows U s.Uses w₀ w) (e : Error) :
    Grows U (s.abandon w e).2.1.Uses w₀ (s.abandon w e).2.2 := by
  have h₁ := h.same (w.nextIno_close s.fd)
  unfold abandon
  split
  · next w₁ he =>
      rw [he] at h₁
      exact h₁.sub (fun i hi => hi.imp_left (fun hi => absurd hi (Desc.not_uses_released _ i)))
  · next w₁ he =>
      rw [he] at h₁
      have h₂ := h₁.same (w₁.nextIno_close s.fdRead)
      have hclosed : ∀ i, { s with fd := s.fd.released, fdRead := s.fdRead.released }.Uses i →
          s.Uses i := by
        rintro i (hi | hi | hi)
        · exact absurd hi (Desc.not_uses_released _ i)
        · exact absurd hi (Desc.not_uses_released _ i)
        · exact Or.inr (Or.inr hi)
      split
      · next w₂ he₂ =>
          rw [he₂] at h₂
          exact h₂.sub hclosed
      · next w₂ he₂ =>
          rw [he₂] at h₂
          exact h₂.sub hclosed

theorem openLog_grows (s : Segment) (w : World) :
    Grows s.Uses (s.openLog w).2.1.Uses w (s.openLog w).2.2 := by
  have h₁ := w.openCreate_grows s.filename s.Uses
  unfold openLog
  split
  · next w₁ he =>
      rw [he] at h₁
      refine h₁.sub ?_
      rintro i (hi | hi)
      · exact absurd hi (Desc.not_uses_closed i)
      · exact Or.inl (Or.inr hi)
  · next fd w₁ hfd he =>
      rw [he] at h₁
      have hopened : ∀ i, { s with fd := fd }.Uses i → s.Uses i ∨ fd.Uses i := by
        rintro i (hi | hi)
        · exact Or.inr hi
        · exact Or.inl (Or.inr hi)
      have h₂ := h₁.same (w₁.nextIno_fstat fd)
      dsimp only
      split
      · next w₂ he₂ =>
          rw [he₂] at h₂
          exact h₂.sub hopened
      · next buf w₂ he₂ =>
          rw [he₂] at h₂
          have h₃ := h₂.trans (w₂.openRead_grows s.filename (fun i => s.Uses i ∨ fd.Uses i))
          split
          · next w₃ he₃ =>
              rw [he₃] at h₃
              refine (h₃.same (nextIno_closeOnError w₃ fd .fileError _ _)).sub ?_
              rintro i (hi | hi | hi)
              · exact absurd hi (Desc.not_uses_released _ i)
              · exact absurd hi (Desc.not_uses_closed i)
              · exact Or.inl (Or.inl (Or.inr (Or.inr hi)))
          · next fdRead w₃ hfdr he₃ =>
              rw [he₃] at h₃
              have h₄ := reconstruct_grows (s := { s with
                fd := fd, physicalSize := (buf.size : ℤ), mtime := buf.mtime,
                fdRead := fdRead }) (h₃.sub (by
                  rintro i (hi | hi | hi)
                  · exact Or.inl (Or.inr hi)
                  · exact Or.inr hi
                  · exact Or.inl (Or.inl (Or.inr (Or.inr hi)))))
              split
              · next e s' w₄ he₄ =>
                  rw [he₄] at h₄
                  exact abandon_grows h₄ e
              · next s' w₄ he₄ =>
                  rw [he₄] at h₄
                  exact h₄

theorem open_grows (s : Segment) (w : World) :
    Grows s.Uses (s.open w).2.1.Uses w (s.open w).2.2 := by
  have hx := (s.index.open_grows w).beside (fun i => s.fd.Uses i ∨ s.fdRead.Uses i)
  replace hx : Grows s.Uses _ w _ := hx.of_sub (fun i hi => or_assoc.mp hi)
  unfold Segment.open
  split
  · next e index w₁ he =>
      rw [he] at hx
      exact hx.sub (fun i hi => or_assoc.mpr hi)
  · next index w₁ he =>
      rw [he] at hx
      replace hx : Grows s.Uses { s with index := index }.Uses w w₁ :=
        hx.sub (fun i hi => or_assoc.mpr hi)
      split
      · exact hx
      · have ht : ∀ i, (index.truncateEntries 0).2.Uses i → index.Uses i :=
          fun i => Index.truncateEntries_uses 0
        split
        · next e index' he' =>
            rw [he'] at ht
            exact hx.sub (fun i hi => hi.imp_right (Or.imp_right (ht i)))
        · next index' he' =>
            rw [he'] at ht
            refine (hx.sub (fun i hi => ?_)).trans (openLog_grows { s with index := index' } w₁)
            exact hi.imp_right (Or.imp_right (ht i))

theorem close_grows (s : Segment) (w : World) :
    Grows s.Uses (s.close w).2.1.Uses w (s.close w).2.2 := by
  have h := Grows.refl s.Uses w
  unfold Segment.close
  split_ifs
  · exact h
  · have h₁ := h.same (w.nextIno_close s.fd)
    split
    · next w₁ he =>
        rw [he] at h₁
        exact h₁.sub (fun i hi => hi.imp_left (fun hi => absurd hi (Desc.not_uses_released _ i)))
    · next w₁ he =>
        rw [he] at h₁
        have h₂ := h₁.same (w₁.nextIno_close s.fdRead)
        split
        · next w₂ he₂ =>
            rw [he₂] at h₂
            refine h₂.sub ?_
            rintro i (hi | hi | hi)
            · exact absurd hi (Desc.not_uses_released _ i)
            · exact absurd hi (Desc.not_uses_released _ i)
            · exact Or.inr (Or.inr hi)
        · next w₂ he₂ =>
            rw [he₂] at h₂
            have h₃ := Index.close_grows h₂ (x := s.index) (fun i hi => Or.inr (Or.inr hi))
            refine h₃.sub ?_
            rintro i (hi | hi | hi)
            · exact absurd hi (Desc.not_uses_closed i)
            · exact absurd hi (Desc.not_uses_closed i)
            · exact hi

theorem destroy_grows (h : Grows U V w₀ w) (s : Segment) : Grows U V w₀ (s.destroy w) := by
  have hc := s.close_grows w
  have hx := Index.close_grows hc (x := (s.close w).2.1.index) (fun i hi => Or.inr (Or.inr hi))
  refine ⟨h.next.trans hx.next, fun i hi => (h.uses i hi).imp_right (fun hlt => ?_)⟩
  exact hlt.trans_le hx.next

theorem deleteSegment_grows (s : Segment) (w : World) :
    Grows s.Uses (s.deleteSegment w).2.1.Uses w (s.deleteSegment w).2.2 := by
  have hc := s.close_grows w
  have hu := hc.same ((s.close w).2.2.nextIno_unlink (s.close w).2.1.filename)
  unfold deleteSegment
  dsimp only
  split
  · next w₁ he =>
      rw [he] at hu
      exact hu
  · next w₁ he =>
      rw [he] at hu
      exact Index.deleteIndex_grows hu (s.close w).2.1.index

theorem nextIno_appendPayload (w : World) (fd : Desc) (payload : Payload) (payloadSize : ℤ) :
    (appendPayload w fd payload payloadSize).2.fs.nextIno = w.fs.nextIno := by
  unfold appendPayload
  split_ifs
  · exact congrArg FileSystem.nextIno w.fs_served
  · exact w.nextIno_append fd _

theorem writeBuffer_grows (s : Segment) (payload : Payload) (payloadSize : ℤ) (w : World) :
    Grows s.Uses (s.writeBuffer payload payloadSize w).2.1.Uses w
      (s.writeBuffer payload payloadSize w).2.2 := by
  have h₁ := (Grows.refl s.Uses w).same (w.nextIno_append s.fd
    (toLE offsetSize s.nextOffset ++ toLE sizeSize payloadSize))
  have h₂ := h₁.same (nextIno_appendPayload _ s.fd payload payloadSize)
  have h₃ := index_write_grows h₂ s.nextOffset s.position
  unfold writeBuffer
  dsimp only
  split_ifs
  · exact h₁
  · exact h₂
  · split
    · next e index w₃ he =>
        rw [he] at h₃
        exact h₃
    · next index w₃ he =>
        rw [he] at h₃
        exact h₃

theorem write_grows (s : Segment) (payload : Payload) (w : World) :
    Grows s.Uses (s.write payload w).2.1.Uses w (s.write payload w).2.2 :=
  s.writeBuffer_grows payload _ w

theorem not_uses_new (path : RawPath) (base maxSize : ℤ) (i : ℕ) :
    ¬ (Segment.new path base maxSize).Uses i := by
  rintro (hi | hi | hi | hi)
  · exact Desc.not_uses_closed i hi
  · exact Desc.not_uses_closed i hi
  · exact Desc.not_uses_closed i hi
  · exact Addr.not_uses_null i hi

/-- Opening a new segment beside what is open. -/
theorem open_new_grows (h : Grows U V w₀ w) (path : RawPath) (base maxSize : ℤ) :
    Grows U (fun i => V i ∨ ((Segment.new path base maxSize).open w).2.1.Uses i) w₀
      ((Segment.new path base maxSize).open w).2.2 := by
  refine h.trans ((((Segment.new path base maxSize).open_grows w).beside V).of_sub ?_)
  rintro i (hi | hi)
  · exact hi
  · exact absurd hi (not_uses_new path base maxSize i)

end Segment

/-! ## Reading -/

/-- Two worlds in which the inodes of a reader hold the same. -/
def SameData (uses : ℕ → Prop) (w w' : World) : Prop := ∀ i, uses i → w'.fs.data i = w.fs.data i

theorem SameData.sub {U V : ℕ → Prop} {w w' : World} (h : SameData U w w') (hV : ∀ i, V i → U i) :
    SameData V w w' := fun i hi => h i (hV i hi)

theorem load_same {a : Addr} {w' : World} (h : SameData a.Uses w w') (addr : ℤ) (width : ℕ) :
    w'.load a addr width = w.load a addr width := by
  cases a with
  | null => rfl
  | failed => rfl
  | mapped i => simp only [World.load, h i rfl]
  | stale i => rfl

theorem Index.read_same {x : Index} {w' : World} (h : SameData x.Uses w w') (relativeOffset : ℤ) :
    x.read relativeOffset w' = x.read relativeOffset w := by
  have haddr : SameData x.addr.Uses w w' := h.sub (fun i => Or.inr)
  unfold Index.read
  rw [load_same haddr, load_same haddr]

namespace Segment

variable {s : Segment} {w' : World}

theorem findEntryLoop_same {x : Index} (h : SameData x.Uses w w') (searchOffset : ℤ) (fuel : ℕ) :
    ∀ first last pos relOffset relPosition : ℤ,
      findEntryLoop x searchOffset w' fuel first last pos relOffset relPosition =
        findEntryLoop x searchOffset w fuel first last pos relOffset relPosition := by
  induction fuel with
  | zero => exact fun _ _ _ _ _ => rfl
  | succ fuel ih =>
      intro first last pos relOffset relPosition
      simp only [findEntryLoop, Index.read_same h, ih]

theorem findEntry_same (h : SameData s.Uses w w') (relPosition searchOffset : ℤ) :
    s.findEntry relPosition searchOffset w' = s.findEntry relPosition searchOffset w := by
  unfold findEntry
  simp only [findEntryLoop_same (h.sub (fun i hi => Or.inr (Or.inr hi)))]

theorem fs_readAt (s : Segment) (relativeOffset : ℤ) (w : World) :
    (s.readAt relativeOffset w).2.2.fs = w.fs := by
  unfold readAt
  split
  · rfl
  · next relOffset relPosition _ =>
      split_ifs
      · rfl
      · have h₁ := w.fs_lseek s.fdRead relPosition
        split
        · next w₁ he₁ =>
            rw [he₁] at h₁
            exact h₁
        · next w₁ he₁ =>
            rw [he₁] at h₁
            have h₂ := (w₁.fs_read s.fdRead relPosition.toNat headerSize).trans h₁
            split
            · next w₂ he₂ =>
                rw [he₂] at h₂
                exact h₂
            · next bytes w₂ he₂ =>
                rw [he₂] at h₂
                dsimp only
                split_ifs
                · exact h₂
                · split
                  · next w₃ he₃ =>
                      rw [← h₂, ← w₂.fs_read s.fdRead, he₃]
                  · next payload w₃ he₃ =>
                      have h₃ : w₃.fs = w.fs := by rw [← h₂, ← w₂.fs_read s.fdRead, he₃]
                      split_ifs <;> exact h₃

/-- What is read depends on the inodes of the segment only. -/
theorem readAt_same (hw : w.Calm) (hw' : w'.Calm) (h : SameData s.Uses w w') (relativeOffset : ℤ) :
    (s.readAt relativeOffset w').1 = (s.readAt relativeOffset w).1 ∧
      (s.readAt relativeOffset w').2.1 = (s.readAt relativeOffset w).2.1 := by
  have hseek : ∀ target, w.lseek s.fdRead target = ((w.lseek s.fdRead target).1, w) ∧
      w'.lseek s.fdRead target = ((w.lseek s.fdRead target).1, w') := by
    intro target
    cases hd : s.fdRead <;> simp [World.lseek, hw, hw']
  have hread : ∀ pos n, w.read s.fdRead pos n = ((w.read s.fdRead pos n).1, w) ∧
      w'.read s.fdRead pos n = ((w.read s.fdRead pos n).1, w') := by
    intro pos n
    cases hd : s.fdRead with
    | closed => simp [World.read, hw, hw']
    | stale num => simp [World.read, hw, hw']
    | live num i => simp [World.read, hw, hw', h i (Or.inr (Or.inl ⟨num, hd⟩))]
  unfold readAt
  rw [findEntry_same h]
  rcases s.findEntry (-1) relativeOffset w with _ | ⟨relOffset, relPosition⟩
  · exact ⟨rfl, rfl⟩
  · dsimp only
    split_ifs
    · exact ⟨rfl, rfl⟩
    · rw [(hseek relPosition).1, (hseek relPosition).2]
      cases (w.lseek s.fdRead relPosition).1
      · exact ⟨rfl, rfl⟩
      · dsimp only
        rw [(hread _ headerSize).1, (hread _ headerSize).2]
        cases (w.read s.fdRead relPosition.toNat headerSize).1 with
        | none => exact ⟨rfl, rfl⟩
        | some bytes =>
            dsimp only
            split_ifs
            · exact ⟨rfl, rfl⟩
            · rw [(hread _ _).1, (hread _ _).2]
              cases (w.read s.fdRead _ _).1 with
              | none => exact ⟨rfl, rfl⟩
              | some payload =>
                  dsimp only
                  split_ifs <;> exact ⟨rfl, rfl⟩

end Segment

end MyKafka
