import MyKafka.AnyDirectory
import MyKafka.SegmentDescriptors

/-!
# Segments on empty logs

A log without bytes gives a segment nothing to count, whatever system calls fail: if it is opened it
starts at its base offset, and if it is not its log still has no bytes.
-/

namespace Posix

/-- The file of this name, if there is one, has no bytes. -/
def World.Hollow (w : World) (q : Path) : Prop :=
  ∀ i, w.fs.node? q = some (.file i) → (w.fs.data i).image.size = 0

namespace World

variable {w w' : World} {q : Path} {r : RawPath}

theorem Hollow.of_fs (h : w.Hollow q) (hfs : w'.fs = w.fs) : w'.Hollow q := by
  intro i hi
  rw [hfs] at hi ⊢
  exact h i hi

theorem Hollow.frame {S : Path → Prop} (h : w.Hollow q) {I : ℕ → Prop} (hfr : Frame S I w w')
    (hq : ¬ S q) (hI : ∀ i, w.fs.node? q = some (.file i) → ¬ I i) : w'.Hollow q := by
  intro i hi
  rw [hfr.within.node q hq] at hi
  rw [hfr.within.data i]
  · exact h i hi
  · rintro (hnew | hmine)
    · exact absurd (FileSystem.node?_lt hi) (Nat.not_lt.mpr hnew)
    · exact hI i hi hmine

/-- Opening the file gives a descriptor of a file without bytes. -/
theorem Hollow.openCreate (h : w.Hollow q) (hr : Inside (fun p => p = q) r) :
    (w.openCreate r).2.Hollow q ∧ ∀ num i, (w.openCreate r).1 = .live num i →
      ((w.openCreate r).2.fs.data i).image.size = 0 := by
  have hs := w.fs_served
  unfold World.openCreate
  split
  · next w₁ he =>
      rw [he] at hs
      refine ⟨h.of_fs hs, ?_⟩
      rintro num i ⟨⟩
  · next w₁ he =>
      rw [he] at hs
      have h₁ : w₁.Hollow q := h.of_fs hs
      split
      · refine ⟨h₁, ?_⟩
        rintro num i ⟨⟩
      · next i fs ho =>
          unfold FileSystem.openCreate at ho
          split at ho
          · cases ho
          · next p hp =>
              obtain ⟨rfl, hne⟩ := hr _ p hp
              split at ho
              · cases ho
              · next j hj =>
                  simp only [Option.some.injEq, Prod.mk.injEq] at ho
                  obtain ⟨rfl, rfl⟩ := ho
                  refine ⟨h₁.of_fs rfl, ?_⟩
                  rintro num k ⟨⟩
                  exact h₁ _ hj
              · split_ifs at ho
                simp only [Option.some.injEq, Prod.mk.injEq] at ho
                obtain ⟨rfl, rfl⟩ := ho
                have hfresh : (w₁.fs.create p ⟨Image.empty, w₁.now⟩).data w₁.fs.nextIno =
                    ⟨Image.empty, w₁.now⟩ := Function.update_self ..
                have hdata : ((w₁.fs.create p ⟨Image.empty, w₁.now⟩).data w₁.fs.nextIno).image.size =
                    0 := by
                  rw [hfresh]
                  rfl
                refine ⟨fun k hk => ?_, ?_⟩
                · have hnew := FileSystem.node?_create w₁.fs hne ⟨Image.empty, w₁.now⟩ p
                  rw [if_pos rfl] at hnew
                  obtain rfl : w₁.fs.nextIno = k := by simpa using hnew.symm.trans hk
                  exact hdata
                · rintro num k ⟨⟩
                  exact hdata

theorem fs_fstat (w : World) (d : Desc) : (w.fstat d).2.fs = w.fs := by
  have hs := w.fs_served
  unfold World.fstat
  split <;> simp_all

theorem fs_openRead (w : World) (r : RawPath) : (w.openRead r).2.fs = w.fs := by
  have hs := w.fs_served
  unfold World.openRead
  split
  · next w₁ he =>
      rw [he] at hs
      exact hs
  · next w₁ he =>
      rw [he] at hs
      split
      · exact hs
      · exact hs

end World

end Posix

namespace MyKafka

open Posix LittleEndian

theorem closeOnError_ne_ok {α : Type} (w : World) (fd : Desc) (code : ErrCode)
    (msg closing : String) (a : α) : (closeOnError (α := α) w fd code msg closing).1 ≠ .ok a := by
  unfold closeOnError
  split
  · rintro ⟨⟩
  · rintro ⟨⟩

theorem Index.Confined.of_uses {x : Index} {S : Path → Prop} {J : ℕ → Prop} {fs : FileSystem}
    (hname : Inside S x.filename) (hJ : ∀ i, x.Uses i → J i) : x.Confined S J fs := by
  refine ⟨hname, ?_, ?_⟩
  · cases hfd : x.fd with
    | live num i => exact Or.inr (hJ i (Or.inl ⟨num, hfd⟩))
    | closed => trivial
    | stale num => trivial
  · cases haddr : x.addr with
    | mapped i => exact Or.inr (hJ i (Or.inr haddr))
    | null | failed | stale => trivial

theorem Index.Confined.mine {x : Index} {S : Path → Prop} {I : ℕ → Prop} {fs : FileSystem} {i : ℕ}
    (h : x.Confined S I fs) (hi : x.Uses i) : FileSystem.Mine I fs i := by
  rcases hi with ⟨num, hd⟩ | ha
  · have := h.fd
    rwa [hd] at this
  · have := h.addr
    rwa [show x.addr = .mapped i from ha] at this

/-- Opening an index leaves other files, and uses none of them. -/
theorem Index.open_beside {w : World} {x : Index} {p q : Path} (hname : Inside (fun r => r = p) x.filename)
    (hne : q ≠ p) (hnew : ∀ i, ¬ x.Uses i) (h : w.Hollow q) :
    (x.open w).2.2.Hollow q ∧ Inside (fun r => r = p) (x.open w).2.1.filename ∧
      ∀ i, (x.open w).2.1.Uses i →
        i < (x.open w).2.2.fs.nextIno ∧ (x.open w).2.2.fs.node? q ≠ some (.file i) := by
  obtain ⟨hfr, hconf⟩ := Index.open_frame (Frame.refl (w := w) (fun _ => id))
    (Index.Confined.of_uses (x := x) (J := FileSystem.Named (fun r => r = p) w.fs) hname
      (fun i hi => absurd hi (hnew i)))
  have hnamed : ∀ i, w.fs.node? q = some (.file i) →
      ¬ FileSystem.Named (fun r => r = p) w.fs i := by
    rintro i hi ⟨r, rfl, hr⟩
    exact hne (FileSystem.node?_inj hi hr)
  refine ⟨h.frame hfr hne hnamed, hconf.filename, fun i hi => ?_⟩
  refine ⟨((x.open_grows w).uses i hi).resolve_left (hnew i), fun hq => ?_⟩
  rw [hfr.within.node q hne] at hq
  rcases hconf.mine hi with hge | hmine
  · exact absurd (FileSystem.node?_lt hq) (Nat.not_lt.mpr hge)
  · exact hnamed i hq hmine

namespace Segment

variable {w w' : World} {s s' : Segment} {res : Result Unit} {q : Path}

/-- What a rebuild that ended before the first record leaves of the segment. -/
structure Untouched (s : Segment) (w : World) (out : Result Unit × Segment × World) : Prop where
  fs : out.2.2.fs = w.fs
  index : out.2.1.index = s.index
  counts : out.1 = .ok () → out.2.1.nextOffset = s.nextOffset ∧ out.2.1.position = s.position

theorem Untouched.error {e : Error} (hfs : w'.fs = w.fs) (hx : s'.index = s.index) :
    s.Untouched w (.error e, s', w') := by
  refine ⟨hfs, hx, ?_⟩
  rintro ⟨⟩

theorem Untouched.ok (hfs : w'.fs = w.fs) (hx : s'.index = s.index)
    (hn : s'.nextOffset = s.nextOffset) (hp : s'.position = s.position) :
    s.Untouched w (.ok (), s', w') := ⟨hfs, hx, fun _ => ⟨hn, hp⟩⟩

theorem reconstructLoop_hollow {fuel cursor num i : ℕ} (hfd : s.fd = .live num i)
    (hdata : (w.fs.data i).image.size = 0)
    (hr : reconstructLoop fuel s cursor w = some (res, s', w')) :
    s.Untouched w (res, s', w') := by
  cases fuel with
  | zero => cases hr
  | succ fuel =>
      have hfs := w.fs_read s.fd cursor offsetSize
      unfold reconstructLoop at hr
      split at hr
      · next w₁ he =>
          rw [he] at hfs
          cases hr
          exact .error hfs rfl
      · next bytes w₁ he =>
          have hbytes : bytes = [] := by
            rw [hfd] at he
            rw [World.read_inv he]
            exact Image.read_end (by omega) _
          rw [he] at hfs
          rw [if_pos hbytes] at hr
          cases hr
          exact .ok hfs rfl rfl rfl

theorem reconstruct_hollow {num i : ℕ} (hfd : s.fd = .live num i)
    (hdata : (w.fs.data i).image.size = 0) :
    s.Untouched w (s.reconstructIndexAndGetLastOffset w) := by
  have hfs := w.fs_lseek s.fd 0
  unfold reconstructIndexAndGetLastOffset
  split
  · next w₁ he =>
      rw [he] at hfs
      exact .error hfs rfl
  · next w₁ he =>
      rw [he] at hfs
      cases hr : reconstructLoop (room s.index + 1) s 0 w₁ with
      | none => exact .ok hfs rfl rfl rfl
      | some out =>
          obtain ⟨res, s', w'⟩ := out
          have hdata₁ : (w₁.fs.data i).image.size = 0 := by
            rw [show w₁.fs = w.fs from hfs]
            exact hdata
          have hu := reconstructLoop_hollow hfd hdata₁ hr
          exact ⟨hu.fs.trans hfs, hu.index, hu.counts⟩

theorem fs_abandon (s : Segment) (w : World) (e : Error) : (s.abandon w e).2.2.fs = w.fs := by
  have h₁ := w.fs_close s.fd
  unfold abandon
  split
  · next w₁ he =>
      rw [he] at h₁
      exact h₁
  · next w₁ he =>
      rw [he] at h₁
      have h₂ := w₁.fs_close s.fdRead
      split
      · next w₂ he₂ =>
          rw [he₂] at h₂
          exact h₂.trans h₁
      · next w₂ he₂ =>
          rw [he₂] at h₂
          exact h₂.trans h₁

theorem abandon_untouched (s : Segment) (w : World) (e : Error) :
    (s.abandon w e).1 ≠ .ok () ∧ (s.abandon w e).2.1.index = s.index := by
  unfold abandon
  split
  · exact ⟨by rintro ⟨⟩, rfl⟩
  · split
    · exact ⟨by rintro ⟨⟩, rfl⟩
    · exact ⟨by rintro ⟨⟩, rfl⟩

/-- Opening a log without bytes does to the files what opening its name does. -/
theorem openLog_hollow (h : w.Hollow q) (hr : Inside (fun p => p = q) s.filename) :
    s.Untouched (w.openCreate s.filename).2 (s.openLog w) := by
  have hdata := (h.openCreate hr).2
  have hlive := w.openCreate_live s.filename
  unfold openLog
  split
  · next w₁ he =>
      rw [he]
      exact .error rfl rfl
  · next fd w₁ hfd he =>
      rw [he] at hdata hlive ⊢
      have h₂ := w₁.fs_fstat fd
      dsimp only
      split
      · next w₂ he₂ =>
          rw [he₂] at h₂
          exact .error h₂ rfl
      · next buf w₂ he₂ =>
          rw [he₂] at h₂
          have h₃ := (w₂.fs_openRead s.filename).trans h₂
          split
          · next w₃ he₃ =>
              rw [he₃] at h₃
              refine ⟨?_, rfl, fun hok => absurd hok (closeOnError_ne_ok _ _ _ _ _ _)⟩
              dsimp only
              rw [closeOnError_world, World.fs_close]
              exact h₃
          · next fdRead w₃ hfdr he₃ =>
              rw [he₃] at h₃
              obtain ⟨num, i, rfl⟩ := hlive.resolve_left hfd
              have hu := reconstruct_hollow (s := { s with
                  fd := .live num i, physicalSize := (buf.size : ℤ), mtime := buf.mtime,
                  fdRead := fdRead }) (w := w₃) rfl (by
                rw [show w₃.fs = w₁.fs from h₃]
                exact hdata num i rfl)
              split
              · next e s' w₄ he₄ =>
                  rw [he₄] at hu
                  obtain ⟨hne, hx⟩ := s'.abandon_untouched w₄ e
                  exact ⟨(s'.fs_abandon w₄ e).trans (hu.fs.trans h₃), hx.trans hu.index,
                    fun hok => absurd hok hne⟩
              · next s' w₄ he₄ =>
                  rw [he₄] at hu
                  obtain ⟨hn, hp⟩ := hu.counts rfl
                  exact .ok (hu.fs.trans h₃) hu.index hn hp

/-- Destroying a segment writes to the inode of its index only. -/
theorem destroy_index_frame {S : Path → Prop} {I : ℕ → Prop} {w₀ : World} (h : Frame S I w₀ w)
    (hx : s.index.Confined S I w₀.fs) : Frame S I w₀ (s.destroy w) := by
  suffices hc : Frame S I w₀ (s.close w).2.2 ∧ (s.close w).2.1.index.Confined S I w₀.fs from
    (Index.close_frame hc.1 hc.2).1
  unfold Segment.close
  split_ifs
  · exact ⟨h, hx⟩
  · have h₁ := h.close s.fd
    split
    · next w₁ he =>
        rw [he] at h₁
        exact ⟨h₁, hx⟩
    · next w₁ he =>
        rw [he] at h₁
        have h₂ := h₁.close s.fdRead
        split
        · next w₂ he₂ =>
            rw [he₂] at h₂
            exact ⟨h₂, hx⟩
        · next w₂ he₂ =>
            rw [he₂] at h₂
            exact Index.close_frame h₂ hx

/-- Destroying a segment leaves a log without bytes, if its index is not that file. -/
theorem destroy_hollow {x : Path} (h : w.Hollow q) (hne : q ≠ x)
    (hname : Inside (fun p => p = x) s.index.filename)
    (huses : ∀ i, s.index.Uses i → w.fs.node? q ≠ some (.file i)) : (s.destroy w).Hollow q := by
  have hfr : Frame (fun p => p = x) (fun i => w.fs.node? q ≠ some (.file i)) w (s.destroy w) := by
    refine destroy_index_frame (Frame.refl ?_) (.of_uses hname huses)
    rintro i ⟨p, rfl, hp⟩ hq
    exact hne (FileSystem.node?_inj hq hp)
  exact h.frame hfr hne (fun i hi hno => hno hi)

/-- Opening a segment on a log without bytes: it starts at its base offset if it is opened, and leaves
the log without bytes if it is not. -/
theorem open_hollow {fs : FileSystem} {path : RawPath} {dir : Path} (hat : FileSystem.At fs path dir)
    (base maxSize : ℤ) (h : w.Hollow (dir ++ [logName base])) :
    let out := (Segment.new path base maxSize).open w
    (out.2.1.destroy out.2.2).Hollow (dir ++ [logName base]) ∧
      (out.1 = .ok () → out.2.1.nextOffset = base ∧ out.2.1.position = 0) := by
  have hne : dir ++ [logName base] ≠ dir ++ [indexName base] := by
    intro heq
    exact logName_ne_indexName base base (by simpa using heq)
  have hlog : Inside (fun p => p = dir ++ [logName base]) (getLogFilename path base) :=
    hat.inside (plain_logName base) rfl
  have hname : Inside (fun p => p = dir ++ [indexName base]) (getIndexFilename path base) :=
    hat.inside (plain_indexName base) rfl
  obtain ⟨hx, hf, hu⟩ := Index.open_beside (x := (Segment.new path base maxSize).index) hname hne
    (fun i hi => not_uses_new path base maxSize i (Or.inr (Or.inr hi))) h
  unfold Segment.open
  split
  · next e index w₁ he =>
      rw [he] at hx hf hu
      refine ⟨destroy_hollow hx hne hf (fun i hi => (hu i hi).2), ?_⟩
      rintro ⟨⟩
  · next index w₁ he =>
      rw [he] at hx hf hu
      split
      · refine ⟨destroy_hollow hx hne hf (fun i hi => (hu i hi).2), ?_⟩
        rintro ⟨⟩
      · have ht := index.truncateEntries_make 0
        have htu : ∀ i, (index.truncateEntries 0).2.Uses i → index.Uses i :=
          fun i => Index.truncateEntries_uses 0
        split
        · next e index' he' =>
            rw [he'] at ht htu
            refine ⟨destroy_hollow hx hne ?_ (fun i hi => (hu i (htu i hi)).2), ?_⟩
            · rw [show index'.filename = index.filename from ht.filename]
              exact hf
            · rintro ⟨⟩
        · next index' he' =>
            rw [he'] at ht htu
            have hl := openLog_hollow (s := { Segment.new path base maxSize with index := index' })
              hx hlog
            have hfr := (Frame.refl (w := w₁) (fun _ => id)).openCreate hlog
            refine ⟨destroy_hollow ((hx.openCreate hlog).1.of_fs hl.fs) hne ?_ ?_, hl.counts⟩
            · rw [hl.index, show index'.filename = index.filename from ht.filename]
              exact hf
            · intro i hi hq
              rw [hl.index] at hi
              obtain ⟨hlt, hno⟩ := hu i (htu i hi)
              rw [hl.fs] at hq
              rcases hfr.1.within.mine _ i rfl hq with hnew | ⟨p, rfl, hp⟩
              · exact absurd hlt (Nat.not_lt.mpr hnew)
              · exact hno hp

end Segment

end MyKafka
