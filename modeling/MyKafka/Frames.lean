import MyKafka.World

/-!
# Frames of system calls

Whatever the kernel answers, a call touches no more than the names and inodes it was given.
`Frame S I w₀ w` collects what is known after any number of calls from `w₀` on: names outside `S`
and inodes that are neither new nor in `I` are as they were, and so are the clock and the listing
order. Every lemma carries a frame over one call, so that frames of programs are read off their
text.
-/

namespace Posix

open FileSystem

/-- What calls confined to the names `S` and the inodes `I` keep of the world they started from. -/
structure Frame (S : Path → Prop) (I : ℕ → Prop) (w₀ w : World) : Prop where
  within : Within S I w₀.fs w.fs
  now : w.now = w₀.now
  order : w.order = w₀.order
  outcomes : w.outcomes <:+ w₀.outcomes

/-- Wherever the path leads, it leads to a name in `S` below the root. -/
def Inside (S : Path → Prop) (r : RawPath) : Prop :=
  ∀ fs p, FileSystem.resolve fs r = some p → S p ∧ p ≠ []

/-- A descriptor on which a call stays within `I`. -/
def Desc.Mine (I : ℕ → Prop) (fs : FileSystem) : Desc → Prop
  | .live _ i => FileSystem.Mine I fs i
  | _ => True

def Addr.Mine (I : ℕ → Prop) (fs : FileSystem) : Addr → Prop
  | .mapped i => FileSystem.Mine I fs i
  | _ => True

theorem Desc.Mine.released {I : ℕ → Prop} {fs : FileSystem} (d : Desc) :
    d.released.Mine I fs := by
  cases d <;> trivial

theorem Addr.Mine.released {I : ℕ → Prop} {fs : FileSystem} (a : Addr) :
    a.released.Mine I fs := by
  cases a <;> trivial

namespace Frame

variable {S : Path → Prop} {I : ℕ → Prop} {w₀ w : World}

theorem refl (h : ∀ i, Named S w.fs i → I i) : Frame S I w w :=
  ⟨.refl h, rfl, rfl, List.suffix_refl _⟩

theorem calm (h : Frame S I w₀ w) (hw : w₀.Calm) : w.Calm := by
  have ho := h.outcomes
  rw [show w₀.outcomes = [] from hw, List.suffix_nil] at ho
  exact ho

theorem obliging (h : Frame S I w₀ w) (hw : w₀.Obliging) : w.Obliging :=
  fun o ho => hw o (h.outcomes.mem ho)

theorem of_fs {w' : World} (h : Frame S I w₀ w) (hfs : w'.fs = w.fs) (hn : w'.now = w.now)
    (ho : w'.order = w.order) (hc : w'.outcomes = w.outcomes) : Frame S I w₀ w' where
  within := hfs ▸ h.within
  now := hn.trans h.now
  order := ho.trans h.order
  outcomes := hc ▸ h.outcomes

theorem widen {T : Path → Prop} {J : ℕ → Prop} (h : Frame S I w₀ w) (hS : ∀ q, S q → T q)
    (hI : ∀ i, I i → J i) (hnamed : ∀ i, Named T w₀.fs i → J i) : Frame T J w₀ w where
  within := {
    node := fun q hq => h.within.node q (fun hSq => hq (hS q hSq))
    data := fun i hi => h.within.data i (fun hmine => hi (hmine.imp_right (hI i)))
    next := h.within.next
    mine := by
      intro q i hq hi
      by_cases hSq : S q
      · exact (h.within.mine q i hSq hi).imp_right (hI i)
      · rw [h.within.node q hSq] at hi
        exact Or.inr (hnamed i ⟨q, hq, hi⟩) }
  now := h.now
  order := h.order
  outcomes := h.outcomes

theorem with_fs {fs : FileSystem} (h : Frame S I w₀ w) (hfs : Within S I w₀.fs fs) (n : ℕ) :
    Frame S I w₀ { w with fs := fs, nextFd := n } := ⟨hfs, h.now, h.order, h.outcomes⟩

theorem next (h : Frame S I w₀ w) : Frame S I w₀ w.next.2 where
  within := by
    unfold World.next
    split <;> exact h.within
  now := by
    unfold World.next
    split <;> exact h.now
  order := by
    unfold World.next
    split <;> exact h.order
  outcomes := by
    unfold World.next
    split
    · exact h.outcomes
    · next o os he =>
        have ho := h.outcomes
        rw [he] at ho
        exact (List.suffix_cons o os).trans ho

theorem served (h : Frame S I w₀ w) : Frame S I w₀ w.served.2 := by
  have hn := h.next
  unfold World.served
  split <;> simp_all

theorem setImage (h : Frame S I w₀ w) {i : ℕ} (hi : FileSystem.Mine I w₀.fs i) (im : Image) :
    Frame S I w₀ (w.setImage i im) := ⟨h.within.setData hi _, h.now, h.order, h.outcomes⟩

theorem store (h : Frame S I w₀ w) {a : Addr} (ha : a.Mine I w₀.fs) (addr : ℕ)
    (bs : List UInt8) : Frame S I w₀ (w.store a addr bs) := by
  cases a with
  | null => exact h
  | failed => exact h
  | mapped i => exact ⟨h.within.setData ha _, h.now, h.order, h.outcomes⟩
  | stale i => exact h

/-! ## Calls on paths -/

theorem openCreate (h : Frame S I w₀ w) {r : RawPath} (hr : Inside S r) :
    Frame S I w₀ (w.openCreate r).2 ∧ (w.openCreate r).1.Mine I w₀.fs := by
  have hs := h.served
  unfold World.openCreate
  split
  · next w' he =>
      rw [he] at hs
      exact ⟨hs, trivial⟩
  · next w' he =>
      rw [he] at hs
      split
      · exact ⟨hs, trivial⟩
      · next i fs ho =>
          unfold FileSystem.openCreate at ho
          split at ho
          · cases ho
          · next p hp =>
              obtain ⟨hS, hne⟩ := hr _ p hp
              split at ho
              · cases ho
              · next j hj =>
                  simp only [Option.some.injEq, Prod.mk.injEq] at ho
                  obtain ⟨rfl, rfl⟩ := ho
                  exact ⟨hs.with_fs hs.within _, hs.within.mine p _ hS hj⟩
              · split_ifs at ho
                simp only [Option.some.injEq, Prod.mk.injEq] at ho
                obtain ⟨rfl, rfl⟩ := ho
                exact ⟨hs.with_fs (hs.within.create hS hne _) _, Or.inl hs.within.next⟩

theorem openRead (h : Frame S I w₀ w) {r : RawPath} (hr : Inside S r) :
    Frame S I w₀ (w.openRead r).2 ∧ (w.openRead r).1.Mine I w₀.fs := by
  have hs := h.served
  unfold World.openRead
  split
  · next w' he =>
      rw [he] at hs
      exact ⟨hs, trivial⟩
  · next w' he =>
      rw [he] at hs
      split
      · exact ⟨hs, trivial⟩
      · next i ho =>
          refine ⟨hs.with_fs hs.within _, ?_⟩
          unfold FileSystem.fileAt at ho
          split at ho
          · cases ho
          · next p hp =>
              split at ho
              · next hj =>
                  cases ho
                  exact hs.within.mine p i (hr _ p hp).1 hj
              · cases ho

theorem unlink (h : Frame S I w₀ w) {r : RawPath} (hr : Inside S r) :
    Frame S I w₀ (w.unlink r).2 := by
  have hs := h.served
  unfold World.unlink
  split
  · next w' he =>
      rw [he] at hs
      exact hs
  · next w' he =>
      rw [he] at hs
      split
      · exact hs
      · next p hp =>
          split
          · exact ⟨hs.within.erase (hr _ p hp).1, hs.now, hs.order, hs.outcomes⟩
          · exact hs

theorem removeAll (h : Frame S I w₀ w) {r : RawPath}
    (hr : ∀ fs p, FileSystem.resolve fs r = some p → ∀ q, p <+: q → S q) :
    Frame S I w₀ (w.removeAll r) := by
  unfold World.removeAll
  split
  · exact h
  · next p hp =>
      exact ⟨h.within.discard (fun q hq => hr _ p hp q (List.isPrefixOf_iff_prefix.mp hq)), h.now,
        h.order, h.outcomes⟩

theorem remove (h : Frame S I w₀ w) {r : RawPath} (hr : Inside S r) :
    Frame S I w₀ (w.remove r) := by
  unfold World.remove
  split
  · exact h
  · next p hp =>
      have he := h.within.erase (hr _ p hp).1
      split
      · exact h
      · exact ⟨he, h.now, h.order, h.outcomes⟩
      · split_ifs
        · exact ⟨he, h.now, h.order, h.outcomes⟩
        · exact h

/-! ## Calls on descriptors -/

theorem fstat (h : Frame S I w₀ w) (d : Desc) : Frame S I w₀ (w.fstat d).2 := by
  have hs := h.served
  unfold World.fstat
  split <;> simp_all

theorem ftruncate (h : Frame S I w₀ w) {d : Desc} (hd : d.Mine I w₀.fs) (size : ℤ) :
    Frame S I w₀ (w.ftruncate d size).2 := by
  have hs := h.served
  unfold World.ftruncate
  split
  · next w' num i he =>
      rw [he] at hs
      split_ifs
      · exact hs
      · exact hs.setImage hd _
  · simp_all

theorem lseek (h : Frame S I w₀ w) (d : Desc) (target : ℤ) : Frame S I w₀ (w.lseek d target).2 := by
  have hs := h.served
  unfold World.lseek
  split <;> simp_all

theorem read (h : Frame S I w₀ w) (d : Desc) (pos n : ℕ) : Frame S I w₀ (w.read d pos n).2 := by
  have hs := h.served
  unfold World.read
  split <;> simp_all

theorem pwrite (h : Frame S I w₀ w) {d : Desc} (hd : d.Mine I w₀.fs) (pos : ℕ) (bs : List UInt8) :
    Frame S I w₀ (w.pwrite d pos bs).2 := by
  have hs := h.next
  unfold World.pwrite
  split
  · next w' num i he =>
      rw [he] at hs
      exact hs.setImage hd _
  · next w' n num i he =>
      rw [he] at hs
      exact hs.setImage hd _
  · simp_all

theorem append (h : Frame S I w₀ w) {d : Desc} (hd : d.Mine I w₀.fs) (bs : List UInt8) :
    Frame S I w₀ (w.append d bs).2 := by
  have hs := h.next
  unfold World.append
  split
  · next w' num i he =>
      rw [he] at hs
      exact hs.setImage hd _
  · next w' n num i he =>
      rw [he] at hs
      exact hs.setImage hd _
  · simp_all

theorem mmap (h : Frame S I w₀ w) {d : Desc} (hd : d.Mine I w₀.fs) (size : ℤ) :
    Frame S I w₀ (w.mmap d size).2 ∧ (w.mmap d size).1.Mine I w₀.fs := by
  have hs := h.served
  unfold World.mmap
  split
  · next w' num i he =>
      rw [he] at hs
      refine ⟨hs, ?_⟩
      simp only
      split_ifs
      · exact hd
      · trivial
  · exact ⟨by simp_all, trivial⟩

theorem munmap (h : Frame S I w₀ w) (a : Addr) : Frame S I w₀ (w.munmap a).2 := by
  have hs := h.served
  unfold World.munmap
  split <;> simp_all

theorem close (h : Frame S I w₀ w) (d : Desc) : Frame S I w₀ (w.close d).2 := by
  have hs := h.served
  unfold World.close
  split
  · next b w' num i he =>
      rw [he] at hs
      exact hs.of_fs rfl rfl rfl rfl
  · next b w' num he =>
      rw [he] at hs
      exact hs.of_fs rfl rfl rfl rfl
  · next b w' he =>
      rw [he] at hs
      exact hs

end Frame

end Posix
