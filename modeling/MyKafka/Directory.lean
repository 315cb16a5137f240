import MyKafka.Frames

/-!
# A directory and the files in it

`At fs r dir` says that the path string `r` names the directory `dir` and leads there, and
`contents` is what opening a name with creation finds in it. Opening and unlinking files changes no
directory, so path strings keep leading where they led.
-/

namespace Posix

namespace FileSystem

/-- The file a name holds, or the one that is created under it. -/
def contents (fs : FileSystem) (p : Path) (now : ℤ) : FileData :=
  match fs.node? p with
  | some (.file i) => fs.data i
  | _ => ⟨Image.empty, now⟩

theorem contents_file {fs : FileSystem} {p : Path} {i : ℕ} (h : fs.node? p = some (.file i))
    (now : ℤ) : fs.contents p now = fs.data i := by
  rw [contents, h]

theorem contents_none {fs : FileSystem} {p : Path} (h : fs.node? p = none) (now : ℤ) :
    fs.contents p now = ⟨Image.empty, now⟩ := by
  rw [contents, h]

theorem fileAt_eq {fs : FileSystem} {r : RawPath} {p : Path} {i : ℕ}
    (hr : fs.resolve r = some p) (hp : fs.node? p = some (.file i)) : fs.fileAt r = some i := by
  simp only [fileAt, hr, hp]

theorem openCreate_fileAt {fs : FileSystem} {r : RawPath} {i : ℕ} (h : fs.fileAt r = some i)
    (now : ℤ) : fs.openCreate r now = some (i, fs) := by
  unfold fileAt at h
  unfold openCreate
  split at h
  · cases h
  · next p hp =>
      split at h
      · next j hj =>
          cases h
          rw [hj]
      · cases h

theorem openCreate_none {fs : FileSystem} {r : RawPath} {p : Path} (hr : fs.resolve r = some p)
    (hp : fs.node? p = none) (hd : fs.IsDir p.dropLast) (now : ℤ) :
    fs.openCreate r now = some (fs.nextIno, fs.create p ⟨Image.empty, now⟩) := by
  unfold openCreate
  rw [hr]
  dsimp only
  rw [hp]
  exact if_pos hd

theorem openCreate_spec {fs : FileSystem} {r : RawPath} {p : Path} (hr : fs.resolve r = some p)
    (hne : p ≠ []) (hp : ¬ fs.IsDir p) (hd : fs.IsDir p.dropLast) (now : ℤ) :
    ∃ i fs', fs.openCreate r now = some (i, fs') ∧ fs'.node? p = some (.file i) ∧
      fs'.data i = fs.contents p now ∧ (∀ q, q ≠ p → fs'.node? q = fs.node? q) ∧
      ∀ j, j ≠ i → fs'.data j = fs.data j := by
  cases hn : fs.node? p with
  | none =>
      refine ⟨fs.nextIno, fs.create p ⟨Image.empty, now⟩, openCreate_none hr hn hd now, ?_, ?_, ?_, ?_⟩
      · rw [node?_create fs hne, if_pos rfl]
      · rw [contents_none hn]
        exact Function.update_self ..
      · intro q hq
        rw [node?_create fs hne, if_neg hq]
      · intro j hj
        exact Function.update_of_ne hj _ _
  | some n =>
      cases n with
      | dir => exact absurd hn hp
      | file i =>
          exact ⟨i, fs, openCreate_fileAt (fileAt_eq hr hn) now, hn, (contents_file hn now).symm,
            fun _ _ => rfl, fun _ _ => rfl⟩

theorem resolve_congr {fs fs' : FileSystem} (h : ∀ q, fs'.IsDir q ↔ fs.IsDir q) (r : RawPath) :
    fs'.resolve r = fs.resolve r := walk_congr h _ _

/-- A file that was opened once is found again, whatever became of its contents. -/
theorem openCreate_again {fs fs' : FileSystem} {r : RawPath} {now : ℤ} {j : ℕ}
    (h : fs.openCreate r now = some (j, fs')) (d : FileData) (now' : ℤ) :
    (fs'.setData j d).openCreate r now' = some (j, fs'.setData j d) := by
  unfold openCreate at h
  cases hr : fs.resolve r with
  | none => simp [hr] at h
  | some p =>
      rw [hr] at h
      have hfound : ∀ fs'' : FileSystem, (∀ q, fs''.IsDir q ↔ fs.IsDir q) →
          fs''.node? p = some (.file j) → fs''.openCreate r now' = some (j, fs'') := by
        intro fs'' hd hp
        simp only [openCreate, resolve_congr hd r, hr, hp]
      cases hn : fs.node? p with
      | none =>
          have hne : p ≠ [] := by
            rintro rfl
            simp [node?] at hn
          simp only [hn, Option.ite_none_right_eq_some, Option.some.injEq, Prod.mk.injEq] at h
          obtain ⟨_, rfl, rfl⟩ := h
          apply hfound
          · intro q
            rw [IsDir, node?_setData, node?_create fs hne]
            split_ifs with hq
            · subst hq
              simp [IsDir, hn]
            · rfl
          · rw [node?_setData, node?_create fs hne, if_pos rfl]
      | some n =>
          cases n with
          | dir => simp [hn] at h
          | file i =>
              simp only [hn, Option.some.injEq, Prod.mk.injEq] at h
              obtain ⟨rfl, rfl⟩ := h
              exact hfound _ (fun q => Iff.rfl) hn

/-- The path string `r` is made of plain names, spells `dir`, and leads to that directory. -/
structure At (fs : FileSystem) (r : RawPath) (dir : Path) : Prop where
  plain : ∀ n ∈ r.comps, PlainName n
  spells : r.base ++ r.comps = dir
  resolves : fs.resolve r = some dir
  isDir : fs.IsDir dir

namespace At

variable {fs fs' : FileSystem} {r : RawPath} {dir : Path}

theorem congr (h : At fs r dir) (hd : ∀ q, fs'.IsDir q ↔ fs.IsDir q) : At fs' r dir :=
  ⟨h.plain, h.spells, (resolve_congr hd r).trans h.resolves, (hd dir).mpr h.isDir⟩

theorem child (h : At fs r dir) {n : Name} (hn : PlainName n) :
    fs.resolve (r.child n) = some (dir ++ [n]) := resolve_child h.resolves h.isDir hn

/-- Wherever the path string of a file of the directory leads, it leads to that file. -/
theorem inside (h : At fs r dir) {S : Path → Prop} {n : Name} (hn : PlainName n)
    (hS : S (dir ++ [n])) : Inside S (r.child n) := by
  intro fs' p hp
  have hplain : ∀ m ∈ r.comps ++ [n], PlainName m := by
    intro m hm
    rcases List.mem_append.mp hm with hm | hm
    · exact h.plain m hm
    · rw [List.mem_singleton.mp hm]
      exact hn
  have hp' : p = dir ++ [n] := by
    rw [walk_plain hplain hp, ← h.spells, List.append_assoc]
    rfl
  subst hp'
  exact ⟨hS, by simp⟩

end At

theorem isDir_congr {S : Path → Prop} {I : ℕ → Prop} {fs fs' : FileSystem} (h : Within S I fs fs')
    (hS : ∀ q, S q → ¬ fs.IsDir q) (hS' : ∀ q, S q → ¬ fs'.IsDir q) (q : Path) :
    fs'.IsDir q ↔ fs.IsDir q := by
  by_cases hq : S q
  · exact iff_of_false (hS' q hq) (hS q hq)
  · unfold IsDir
    rw [h.node q hq]

/-- Making directories goes on behind those that are there already. -/
theorem mkdirs_append {fs : FileSystem} {cur dir : Path} {ns : List Name}
    (h : fs.walk cur ns = some dir) (hd : fs.IsDir dir) (ms : List Name) :
    fs.mkdirs cur (ns ++ ms) = fs.mkdirs dir ms := by
  induction ns generalizing cur with
  | nil =>
      rw [walk, Option.some.injEq] at h
      rw [List.nil_append, h]
  | cons n ns ih =>
      have hcur : fs.IsDir cur := by
        by_contra hcur
        rw [walk, if_neg hcur] at h
        cases h
      rw [walk, if_pos hcur] at h
      have hnext : fs.node? (enter cur n) = some .dir := by
        cases ns with
        | nil =>
            rw [walk, Option.some.injEq] at h
            rw [h]
            exact hd
        | cons m ms =>
            by_contra hn
            rw [walk, if_neg (show ¬ fs.IsDir (enter cur n) from hn)] at h
            cases h
      rw [List.cons_append, mkdirs, hnext]
      exact ih h

namespace At

variable {fs fs' : FileSystem} {r : RawPath} {dir : Path} {n : Name}

theorem mkdirs (h : At fs r dir) : fs.mkdirs r.base r.comps = (some dir, fs) := by
  have hm := mkdirs_append h.resolves h.isDir []
  rwa [List.append_nil] at hm

theorem below (h : At fs r dir) (hn : PlainName n) (hd : fs.IsDir (dir ++ [n])) :
    At fs (r.child n) (dir ++ [n]) := by
  refine ⟨?_, ?_, h.child hn, hd⟩
  · intro m hm
    rcases List.mem_append.mp hm with hm | hm
    · exact h.plain m hm
    · rw [List.mem_singleton.mp hm]
      exact hn
  · rw [RawPath.child, ← List.append_assoc, h.spells]

/-- Walking plain names asks for the directories on the way only. -/
theorem frame (h : At fs r dir) (hq : ∀ q, q <+: dir → fs'.node? q = fs.node? q) :
    At fs' r dir := by
  have hwalk : ∀ (ns : List Name) (cur : Path), (∀ n ∈ ns, PlainName n) → cur ++ ns <+: dir →
      fs'.walk cur ns = fs.walk cur ns := by
    intro ns
    induction ns with
    | nil => exact fun _ _ _ => rfl
    | cons n ns ih =>
        intro cur hns hpre
        have hcur : fs'.IsDir cur ↔ fs.IsDir cur := by
          rw [IsDir, IsDir, hq cur ((List.prefix_append _ _).trans hpre)]
        simp only [walk, hcur, enter_plain (hns n List.mem_cons_self)]
        rw [ih _ (fun m hm => hns m (List.mem_cons_of_mem n hm)) (by simpa using hpre)]
  have hspells : r.base ++ r.comps <+: dir := h.spells ▸ List.prefix_refl _
  refine ⟨h.plain, h.spells, ?_, ?_⟩
  · rw [resolve, hwalk _ _ h.plain hspells]
    exact h.resolves
  · rw [IsDir, hq dir (List.prefix_refl _)]
    exact h.isDir

end At

end FileSystem

/-- `q` is `dir` or lies below it. -/
def Under (dir q : Path) : Prop := dir <+: q

namespace World

theorem createDirectories_at {w : World} (hw : w.Calm) {r : RawPath} {dir : Path}
    (h : FileSystem.At w.fs r dir) : w.createDirectories r = (true, w) := by
  have hm := h.mkdirs
  unfold createDirectories
  rw [served_calm hw]
  dsimp only
  rw [hm]
  rfl

/-- The directory is there, whatever the kernel answers. -/
theorem fs_createDirectories {w : World} {r : RawPath} {dir : Path} (h : FileSystem.At w.fs r dir) :
    (w.createDirectories r).2.fs = w.fs := by
  have hs := w.fs_served
  unfold createDirectories
  split
  · next w₁ he =>
      rw [he] at hs
      exact hs
  · next w₁ he =>
      rw [he] at hs
      rw [hs, h.mkdirs]

theorem createDirectories_child {w : World} (hw : w.Calm) {r : RawPath} {b : Path} {n : Name}
    (h : FileSystem.At w.fs r b) (hn : PlainName n) (hfree : w.fs.node? (b ++ [n]) = none) :
    w.createDirectories (r.child n) = (true, { w with fs := w.fs.mkdir (b ++ [n]) }) := by
  have hm : w.fs.mkdirs (r.child n).base (r.child n).comps =
      (some (b ++ [n]), w.fs.mkdir (b ++ [n])) := by
    show w.fs.mkdirs r.base (r.comps ++ [n]) = _
    rw [FileSystem.mkdirs_append h.resolves h.isDir, FileSystem.mkdirs, enter_plain hn, hfree]
    rfl
  unfold createDirectories
  rw [served_calm hw]
  dsimp only
  rw [hm]
  rfl

end World

namespace Frame

variable {S : Path → Prop} {I : ℕ → Prop} {w₀ w : World} {r : RawPath} {b : Path} {n : Name}

/-- Calls that touch nothing on the way to a directory leave its path string as it was. -/
theorem atDir (h : Frame S I w₀ w) (hat : FileSystem.At w₀.fs r b) (hS : ∀ q, S q → ¬ q <+: b) :
    FileSystem.At w.fs r b := hat.frame (fun q hq => h.within.node q (fun hSq => hS q hSq hq))

theorem createDirectories (h : Frame S I w₀ w) (hat : FileSystem.At w₀.fs r b)
    (hn : PlainName n) (hS : ∀ q, S q → ¬ q <+: b) (hbn : S (b ++ [n])) :
    Frame S I w₀ (w.createDirectories (r.child n)).2 := by
  have hs := h.served
  unfold World.createDirectories
  split
  · next w' he =>
      rw [he] at hs
      exact hs
  · next w' he =>
      rw [he] at hs
      have hat' := hs.atDir hat hS
      have hm : w'.fs.mkdirs (r.child n).base (r.child n).comps = w'.fs.mkdirs b [n] :=
        FileSystem.mkdirs_append hat'.resolves hat'.isDir [n]
      rw [hm]
      simp only [FileSystem.mkdirs, enter_plain hn]
      split
      · exact hs.with_fs hs.within _
      · exact hs.with_fs hs.within _
      · exact hs.with_fs (hs.within.mkdir hbn (by simp)) _

end Frame

end Posix
