import MyKafka.World

/-!
# Who holds a descriptor

A program obtains the number of a descriptor from `open` and gives it back with `close`. `Custody`
says of the numbers it holds and of those it gave back that they are all different, so that a number
that is given back while it is held was not given back before.
-/

namespace Posix

/-- The numbers of the open descriptors in a field. -/
def Desc.held : Desc → Multiset ℕ
  | .live num _ => {num}
  | _ => 0

/-- The field does not hold the number of a descriptor that was closed. -/
def Desc.Owned (d : Desc) : Prop := ∀ num, d ≠ .stale num

instance (d : Desc) : Decidable d.Owned :=
  match d with
  | .closed => isTrue (fun _ => Desc.noConfusion)
  | .live _ _ => isTrue (fun _ => Desc.noConfusion)
  | .stale num => isFalse (fun h => h num rfl)

@[simp] theorem Desc.held_closed : Desc.closed.held = 0 := rfl

@[simp] theorem Desc.held_live (num i : ℕ) : (Desc.live num i).held = {num} := rfl

@[simp] theorem Desc.held_stale (num : ℕ) : (Desc.stale num).held = 0 := rfl

@[simp] theorem Desc.held_released (d : Desc) : d.released.held = 0 := by
  cases d <;> rfl

@[simp] theorem Desc.owned_closed : Desc.closed.Owned := fun _ => Desc.noConfusion

@[simp] theorem Desc.owned_live (num i : ℕ) : (Desc.live num i).Owned := fun _ => Desc.noConfusion

@[simp] theorem Desc.not_owned_stale (num : ℕ) : ¬ (Desc.stale num).Owned := fun h => h num rfl

/-- No descriptor was obtained, and none was closed. -/
structure SameFds (w w' : World) : Prop where
  nextFd : w'.nextFd = w.nextFd
  closed : w'.closed = w.closed

namespace SameFds

variable {w₁ w₂ w₃ : World}

theorem refl (w : World) : SameFds w w := ⟨rfl, rfl⟩

theorem trans (h : SameFds w₁ w₂) (h' : SameFds w₂ w₃) : SameFds w₁ w₃ :=
  ⟨h'.nextFd.trans h.nextFd, h'.closed.trans h.closed⟩

end SameFds

namespace World

variable (w : World)

theorem next_sameFds : SameFds w w.next.2 := by
  unfold World.next
  split <;> exact ⟨rfl, rfl⟩

theorem served_sameFds : SameFds w w.served.2 := by
  have hn := w.next_sameFds
  unfold World.served
  split <;> simp_all

theorem setImage_sameFds (i : ℕ) (im : Image) : SameFds w (w.setImage i im) := ⟨rfl, rfl⟩

theorem store_sameFds (a : Addr) (addr : ℕ) (bs : List UInt8) : SameFds w (w.store a addr bs) := by
  cases a <;> exact ⟨rfl, rfl⟩

theorem fstat_sameFds (d : Desc) : SameFds w (w.fstat d).2 := by
  have hs := w.served_sameFds
  unfold World.fstat
  split <;> simp_all

theorem ftruncate_sameFds (d : Desc) (size : ℤ) : SameFds w (w.ftruncate d size).2 := by
  have hs := w.served_sameFds
  unfold World.ftruncate
  split
  · next w₁ num i he =>
      rw [he] at hs
      split_ifs
      · exact hs
      · exact hs.trans (setImage_sameFds _ _ _)
  · simp_all

theorem lseek_sameFds (d : Desc) (target : ℤ) : SameFds w (w.lseek d target).2 := by
  have hs := w.served_sameFds
  unfold World.lseek
  split <;> simp_all

theorem read_sameFds (d : Desc) (pos n : ℕ) : SameFds w (w.read d pos n).2 := by
  have hs := w.served_sameFds
  unfold World.read
  split <;> simp_all

theorem pwrite_sameFds (d : Desc) (pos : ℕ) (bs : List UInt8) : SameFds w (w.pwrite d pos bs).2 := by
  have hn := w.next_sameFds
  unfold World.pwrite
  split
  · next w₁ num i he =>
      rw [he] at hn
      exact hn.trans (setImage_sameFds _ _ _)
  · next n w₁ num i he =>
      rw [he] at hn
      exact hn.trans (setImage_sameFds _ _ _)
  · simp_all

theorem append_sameFds (d : Desc) (bs : List UInt8) : SameFds w (w.append d bs).2 := by
  have hn := w.next_sameFds
  unfold World.append
  split
  · next w₁ num i he =>
      rw [he] at hn
      exact hn.trans (setImage_sameFds _ _ _)
  · next n w₁ num i he =>
      rw [he] at hn
      exact hn.trans (setImage_sameFds _ _ _)
  · simp_all

theorem mmap_sameFds (d : Desc) (size : ℤ) : SameFds w (w.mmap d size).2 := by
  have hs := w.served_sameFds
  unfold World.mmap
  split <;> simp_all

theorem munmap_sameFds (a : Addr) : SameFds w (w.munmap a).2 := by
  have hs := w.served_sameFds
  unfold World.munmap
  split <;> simp_all

theorem unlink_sameFds (r : RawPath) : SameFds w (w.unlink r).2 := by
  have hs := w.served_sameFds
  unfold World.unlink
  split
  · simp_all
  · next w₁ he =>
      rw [he] at hs
      split
      · exact hs
      · split
        · exact hs.trans ⟨rfl, rfl⟩
        · exact hs

end World

/-- The program holds the numbers `held` and has closed some since `before` was closed: they are all
different. -/
def Custody (before : List ℕ) (held : Multiset ℕ) (w : World) : Prop :=
  ∃ ns : List ℕ, w.closed = ns ++ before ∧ (held + ns).Nodup ∧ ∀ n ∈ held + ns, n < w.nextFd

namespace Custody

variable {before : List ℕ} {held : Multiset ℕ} {w w' : World}

theorem start (w : World) : Custody w.closed 0 w := ⟨[], rfl, by simp, by simp⟩

theorem same (h : Custody before held w) (hs : SameFds w w') : Custody before held w' := by
  obtain ⟨ns, hclosed, hnodup, hlt⟩ := h
  refine ⟨ns, hs.closed.trans hclosed, hnodup, ?_⟩
  rw [hs.nextFd]
  exact hlt

theorem forget {kept : Multiset ℕ} (h : Custody before held w) (hle : kept ≤ held) :
    Custody before kept w := by
  obtain ⟨ns, hclosed, hnodup, hlt⟩ := h
  have hsum : kept + (ns : Multiset ℕ) ≤ held + ns := by gcongr
  exact ⟨ns, hclosed, Multiset.nodup_of_le hsum hnodup, fun n hn =>
    hlt n (Multiset.mem_of_le hsum hn)⟩

theorem once (h : Custody before held w) : ∃ ns, w.closed = ns ++ before ∧ ns.Nodup := by
  obtain ⟨ns, hclosed, hnodup, -⟩ := h
  exact ⟨ns, hclosed, Multiset.coe_nodup.mp (Multiset.nodup_of_le (Multiset.le_add_left _ _) hnodup)⟩

theorem obtain_next (h : Custody before held w) (i : ℕ) {fs : FileSystem} :
    Custody before ((Desc.live w.nextFd i).held + held)
      { w with fs := fs, nextFd := w.nextFd + 1 } := by
  obtain ⟨ns, hclosed, hnodup, hlt⟩ := h
  have hfresh : w.nextFd ∉ held + (ns : Multiset ℕ) := fun hmem => lt_irrefl _ (hlt _ hmem)
  refine ⟨ns, hclosed, ?_, ?_⟩
  · rw [Desc.held_live, Multiset.singleton_add, Multiset.cons_add]
    exact Multiset.nodup_cons.mpr ⟨hfresh, hnodup⟩
  · intro n hn
    rw [Desc.held_live, Multiset.singleton_add, Multiset.cons_add, Multiset.mem_cons] at hn
    rcases hn with rfl | hn
    · exact Nat.lt_succ_self _
    · exact (hlt n hn).trans (Nat.lt_succ_self _)

theorem openCreate (h : Custody before held w) (r : RawPath) :
    Custody before ((w.openCreate r).1.held + held) (w.openCreate r).2 := by
  have hs := h.same w.served_sameFds
  unfold World.openCreate
  split
  · next w₁ he =>
      rw [he] at hs
      simpa using hs
  · next w₁ he =>
      rw [he] at hs
      split
      · simpa using hs
      · next i fs _ => exact hs.obtain_next i

theorem openRead (h : Custody before held w) (r : RawPath) :
    Custody before ((w.openRead r).1.held + held) (w.openRead r).2 := by
  have hs := h.same w.served_sameFds
  unfold World.openRead
  split
  · next w₁ he =>
      rw [he] at hs
      simpa using hs
  · next w₁ he =>
      rw [he] at hs
      split
      · simpa using hs
      · next i _ => exact hs.obtain_next i

theorem close {d : Desc} (h : Custody before (d.held + held) w) (hd : d.Owned) :
    Custody before held (w.close d).2 := by
  have hs := h.same w.served_sameFds
  unfold World.close
  split
  · next b w₁ num i he =>
      rw [he] at hs
      obtain ⟨ns, hclosed, hnodup, hlt⟩ := hs
      have hmove : (Desc.live num i).held + held + (ns : Multiset ℕ) = held + (num :: ns : List ℕ) := by
        rw [Desc.held_live, ← Multiset.cons_coe, Multiset.singleton_add, Multiset.cons_add,
          Multiset.add_cons]
      rw [hmove] at hnodup hlt
      refine ⟨num :: ns, ?_, hnodup, hlt⟩
      show num :: w₁.closed = _
      rw [show w₁.closed = ns ++ before from hclosed]
      rfl
  · next num _ => exact absurd hd (Desc.not_owned_stale num)
  · next b w₁ he =>
      rw [he] at hs
      simpa using hs

end Custody

end Posix
