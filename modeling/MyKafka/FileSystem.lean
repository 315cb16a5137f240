import Mathlib.Data.List.AList
import Mathlib.Logic.Function.Basic
import MyKafka.Image

/-!
# A file system of directories and inodes

Nodes are kept under canonical absolute paths; a regular file is an inode number, so an open
descriptor or a mapping keeps seeing its file after the name is gone. A path string is read as a
starting directory and raw components, walked the way the kernel does, with `.` and `..`.

`Within S fs fs'` says that `fs'` was reached from `fs` by touching names in `S` only. It is the
frame relation of every operation below and composes along a run.
-/

namespace Posix

abbrev Name := List Char

/-- A canonical absolute path, root first. -/
abbrev Path := List Name

inductive Node where
  | dir
  | file (ino : ℕ)
  deriving DecidableEq

structure FileData where
  image : Image
  mtime : ℤ

/-- The part of an association list whose keys satisfy `keep`. -/
def keepKeys {α : Type*} {β : Type*} (m : AList (fun _ : α => β)) (keep : α → Bool) :
    AList (fun _ : α => β) :=
  ⟨m.entries.filter (fun s => keep s.1), m.nodupKeys.sublist List.filter_sublist⟩

theorem lookup_keepKeys {α : Type*} {β : Type*} [DecidableEq α] (m : AList (fun _ : α => β))
    (keep : α → Bool) (a : α) :
    (keepKeys m keep).lookup a = if keep a then m.lookup a else none := by
  ext b
  simp only [keepKeys, AList.lookup]
  have hmem := List.mem_dlookup_iff (a := a) (b := b)
    (m.nodupKeys.sublist (List.filter_sublist (p := fun s => keep s.1)))
  have hmem' := List.mem_dlookup_iff (a := a) (b := b) m.nodupKeys
  rw [Option.mem_def] at hmem hmem'
  rw [hmem, List.mem_filter, ← hmem']
  by_cases hk : keep a <;> simp [hk]

/-- Distinct names are distinct inodes, and the allocator is above all of them. -/
structure FileSystem where
  entries : AList (fun _ : Path => Node)
  data : ℕ → FileData
  nextIno : ℕ
  ino_lt : ∀ p i, entries.lookup p = some (.file i) → i < nextIno
  ino_inj : ∀ p q i, entries.lookup p = some (.file i) → entries.lookup q = some (.file i) → p = q

/-- A path string: the directory it is read from and its components as written. -/
structure RawPath where
  base : Path
  comps : List Name
  deriving DecidableEq

namespace RawPath

def child (r : RawPath) (n : Name) : RawPath := ⟨r.base, r.comps ++ [n]⟩

end RawPath

/-- A component that names an entry of the directory it is looked up in. -/
def PlainName (n : Name) : Prop := n ≠ [] ∧ n ≠ ['.'] ∧ n ≠ ['.', '.']

def enter (cur : Path) (n : Name) : Path :=
  if n = [] ∨ n = ['.'] then cur else if n = ['.', '.'] then cur.dropLast else cur ++ [n]

theorem enter_plain {n : Name} (h : PlainName n) (cur : Path) : enter cur n = cur ++ [n] := by
  rw [enter, if_neg (by simp [h.1, h.2.1]), if_neg h.2.2]

namespace FileSystem

def node? (fs : FileSystem) (p : Path) : Option Node :=
  if p = [] then some .dir else fs.entries.lookup p

def IsDir (fs : FileSystem) (p : Path) : Prop := fs.node? p = some .dir

instance (fs : FileSystem) (p : Path) : Decidable (fs.IsDir p) :=
  inferInstanceAs (Decidable (_ = _))

theorem lookup_of_node? {fs : FileSystem} {p : Path} {i : ℕ} (h : fs.node? p = some (.file i)) :
    fs.entries.lookup p = some (.file i) := by
  unfold node? at h
  split_ifs at h
  · cases h
  · exact h

theorem node?_lt {fs : FileSystem} {p : Path} {i : ℕ} (h : fs.node? p = some (.file i)) :
    i < fs.nextIno := fs.ino_lt p i (lookup_of_node? h)

theorem node?_inj {fs : FileSystem} {p q : Path} {i : ℕ} (hp : fs.node? p = some (.file i))
    (hq : fs.node? q = some (.file i)) : p = q :=
  fs.ino_inj p q i (lookup_of_node? hp) (lookup_of_node? hq)

/-! ## Operations on nodes and inodes -/

/-- Nothing but the root directory. -/
def blank : FileSystem where
  entries := ∅
  data _ := ⟨Image.empty, 0⟩
  nextIno := 0
  ino_lt p i h := by simp at h
  ino_inj p q i h := by simp at h

def setData (fs : FileSystem) (i : ℕ) (d : FileData) : FileSystem :=
  { fs with data := Function.update fs.data i d }

def create (fs : FileSystem) (p : Path) (d : FileData) : FileSystem where
  entries := fs.entries.insert p (.file fs.nextIno)
  data := Function.update fs.data fs.nextIno d
  nextIno := fs.nextIno + 1
  ino_lt q i h := by
    by_cases hq : q = p
    · subst q
      rw [AList.lookup_insert, Option.some.injEq, Node.file.injEq] at h
      omega
    · rw [AList.lookup_insert_ne hq] at h
      exact (fs.ino_lt q i h).trans (Nat.lt_succ_self _)
  ino_inj q r i hq hr := by
    by_cases hqp : q = p <;> by_cases hrp : r = p
    · rw [hqp, hrp]
    · subst q
      rw [AList.lookup_insert, Option.some.injEq, Node.file.injEq] at hq
      rw [AList.lookup_insert_ne hrp] at hr
      have := fs.ino_lt r i hr
      omega
    · subst r
      rw [AList.lookup_insert, Option.some.injEq, Node.file.injEq] at hr
      rw [AList.lookup_insert_ne hqp] at hq
      have := fs.ino_lt q i hq
      omega
    · rw [AList.lookup_insert_ne hqp] at hq
      rw [AList.lookup_insert_ne hrp] at hr
      exact fs.ino_inj q r i hq hr

def mkdir (fs : FileSystem) (p : Path) : FileSystem where
  entries := fs.entries.insert p .dir
  data := fs.data
  nextIno := fs.nextIno
  ino_lt q i h := by
    by_cases hq : q = p
    · subst q
      simp at h
    · exact fs.ino_lt q i (by rwa [AList.lookup_insert_ne hq] at h)
  ino_inj q r i hq hr := by
    by_cases hqp : q = p <;> by_cases hrp : r = p
    · rw [hqp, hrp]
    · subst q
      simp at hq
    · subst r
      simp at hr
    · rw [AList.lookup_insert_ne hqp] at hq
      rw [AList.lookup_insert_ne hrp] at hr
      exact fs.ino_inj q r i hq hr

/-- The file system without the paths `gone` selects. -/
def discard (fs : FileSystem) (gone : Path → Bool) : FileSystem where
  entries := keepKeys fs.entries (fun q => !gone q)
  data := fs.data
  nextIno := fs.nextIno
  ino_lt q i h := by
    rw [lookup_keepKeys] at h
    split_ifs at h
    exact fs.ino_lt q i h
  ino_inj q r i hq hr := by
    rw [lookup_keepKeys] at hq hr
    split_ifs at hq hr
    exact fs.ino_inj q r i hq hr

def erase (fs : FileSystem) (p : Path) : FileSystem := fs.discard (fun q => decide (q = p))

/-- `p` and everything below it are gone. -/
def removeTree (fs : FileSystem) (p : Path) : FileSystem :=
  fs.discard (fun q => p.isPrefixOf q)

/-- The names in a directory. -/
def children (fs : FileSystem) (p : Path) : List Name :=
  fs.entries.keys.filterMap (fun q => if q ≠ [] ∧ q.dropLast = p then q.getLast? else none)

/-! ## Paths -/

/-- The node a path string leads to: every component but the last must be a directory. -/
def walk (fs : FileSystem) : Path → List Name → Option Path
  | cur, [] => some cur
  | cur, n :: ns => if fs.IsDir cur then walk fs (enter cur n) ns else none

def resolve (fs : FileSystem) (r : RawPath) : Option Path := fs.walk r.base r.comps

/-- `mkdir -p` along the components: the directory reached, unless a file is in the way. -/
def mkdirs (fs : FileSystem) : Path → List Name → Option Path × FileSystem
  | cur, [] => (some cur, fs)
  | cur, n :: ns =>
    match fs.node? (enter cur n) with
    | some .dir => mkdirs fs (enter cur n) ns
    | some (.file _) => (none, fs)
    | none => mkdirs (fs.mkdir (enter cur n)) (enter cur n) ns

/-- Opening for writing with creation: an existing regular file, or a new empty one. -/
def openCreate (fs : FileSystem) (r : RawPath) (now : ℤ) : Option (ℕ × FileSystem) :=
  match fs.resolve r with
  | none => none
  | some p =>
    match fs.node? p with
    | some .dir => none
    | some (.file i) => some (i, fs)
    | none =>
      if fs.IsDir p.dropLast then some (fs.nextIno, fs.create p ⟨Image.empty, now⟩) else none

/-- The inode of an existing regular file. -/
def fileAt (fs : FileSystem) (r : RawPath) : Option ℕ :=
  match fs.resolve r with
  | none => none
  | some p =>
    match fs.node? p with
    | some (.file i) => some i
    | _ => none

/-! ## What the operations do to nodes -/

@[simp] theorem node?_setData (fs : FileSystem) (i : ℕ) (d : FileData) (q : Path) :
    (fs.setData i d).node? q = fs.node? q := rfl

@[simp] theorem nextIno_setData (fs : FileSystem) (i : ℕ) (d : FileData) :
    (fs.setData i d).nextIno = fs.nextIno := rfl

@[simp] theorem data_setData_same (fs : FileSystem) (i : ℕ) (d : FileData) :
    (fs.setData i d).data i = d := by simp [setData]

@[simp] theorem setData_setData (fs : FileSystem) (i : ℕ) (d d' : FileData) :
    (fs.setData i d).setData i d' = fs.setData i d' := by simp [setData]

theorem data_setData_ne (fs : FileSystem) {i j : ℕ} (d : FileData) (h : j ≠ i) :
    (fs.setData i d).data j = fs.data j := by simp [setData, h]

theorem node?_create (fs : FileSystem) {p : Path} (hp : p ≠ []) (d : FileData) (q : Path) :
    (fs.create p d).node? q = if q = p then some (.file fs.nextIno) else fs.node? q := by
  unfold node? create
  split_ifs with h₁ h₂ h₂
  · exact absurd (h₂.symm.trans h₁) hp
  · rfl
  · rw [h₂, AList.lookup_insert]
  · rw [AList.lookup_insert_ne h₂]

theorem node?_mkdir (fs : FileSystem) {p : Path} (hp : p ≠ []) (q : Path) :
    (fs.mkdir p).node? q = if q = p then some .dir else fs.node? q := by
  unfold node? mkdir
  split_ifs with h₁ h₂ h₂
  · exact absurd (h₂.symm.trans h₁) hp
  · rfl
  · rw [h₂, AList.lookup_insert]
  · rw [AList.lookup_insert_ne h₂]

theorem node?_discard (fs : FileSystem) (gone : Path → Bool) {q : Path} (hq : q ≠ []) :
    (fs.discard gone).node? q = if gone q then none else fs.node? q := by
  unfold node? discard
  rw [if_neg hq, if_neg hq, lookup_keepKeys]
  cases gone q <;> rfl

theorem node?_erase (fs : FileSystem) {p : Path} (hp : p ≠ []) (q : Path) :
    (fs.erase p).node? q = if q = p then none else fs.node? q := by
  by_cases hq : q = []
  · subst q
    rw [if_neg (Ne.symm hp)]
    rfl
  · rw [erase, node?_discard fs _ hq]
    simp

theorem node?_removeTree (fs : FileSystem) {p : Path} (hp : p ≠ []) (q : Path) :
    (fs.removeTree p).node? q = if p <+: q then none else fs.node? q := by
  by_cases hq : q = []
  · subst q
    rw [if_neg (by simpa using hp)]
    rfl
  · rw [removeTree, node?_discard fs _ hq]
    simp only [List.isPrefixOf_iff_prefix]

/-- A directory lists exactly the names below it. -/
theorem mem_children (fs : FileSystem) (p : Path) (n : Name) :
    n ∈ fs.children p ↔ fs.node? (p ++ [n]) ≠ none := by
  have hne : p ++ [n] ≠ [] := by simp
  rw [node?, if_neg hne, children, List.mem_filterMap, Ne, AList.lookup_eq_none, not_not,
    AList.mem_keys]
  constructor
  · rintro ⟨q, hq, hn⟩
    split_ifs at hn with h
    have hqn : q.dropLast ++ [n] = q := List.dropLast_append_getLast? n hn
    rwa [← h.2, hqn]
  · intro hq
    exact ⟨p ++ [n], hq, by simp⟩

theorem children_nodup (fs : FileSystem) (p : Path) : (fs.children p).Nodup := by
  refine fs.entries.keys_nodup.filterMap ?_
  intro q r n hq hr
  have hform : ∀ q : Path, n ∈ (if q ≠ [] ∧ q.dropLast = p then q.getLast? else none) →
      q = p ++ [n] := by
    intro q hq
    split_ifs at hq with h
    · rw [← h.2]
      exact (List.dropLast_append_getLast? n hq).symm
    · cases hq
  rw [hform q hq, hform r hr]

/-! ## Walking to a plain name -/

theorem walk_append (fs : FileSystem) (cur : Path) (ns ms : List Name) :
    fs.walk cur (ns ++ ms) = (fs.walk cur ns).bind (fun p => fs.walk p ms) := by
  induction ns generalizing cur with
  | nil => rfl
  | cons n ns ih =>
      simp only [List.cons_append, walk]
      split_ifs
      · exact ih _
      · rfl

theorem resolve_child {fs : FileSystem} {r : RawPath} {p : Path} {n : Name}
    (hr : fs.resolve r = some p) (hp : fs.IsDir p) (hn : PlainName n) :
    fs.resolve (r.child n) = some (p ++ [n]) := by
  unfold resolve at hr
  rw [resolve, RawPath.child, walk_append, hr, Option.bind_some, walk, if_pos hp, enter_plain hn,
    walk]

/-- Walking only asks which paths are directories. -/
theorem walk_congr {fs fs' : FileSystem} (h : ∀ p, fs.IsDir p ↔ fs'.IsDir p) (cur : Path)
    (ns : List Name) : fs.walk cur ns = fs'.walk cur ns := by
  induction ns generalizing cur with
  | nil => rfl
  | cons n ns ih => simp only [walk, h cur, ih]

theorem walk_plain {fs : FileSystem} {ns : List Name} (hns : ∀ n ∈ ns, PlainName n) {cur p : Path}
    (h : fs.walk cur ns = some p) : p = cur ++ ns := by
  induction ns generalizing cur with
  | nil =>
      rw [walk, Option.some.injEq] at h
      simp [h]
  | cons n ns ih =>
      rw [walk] at h
      split_ifs at h
      rw [enter_plain (hns n List.mem_cons_self)] at h
      rw [ih (fun m hm => hns m (List.mem_cons_of_mem n hm)) h, List.append_assoc]
      rfl

/-! ## Frames -/

/-- The inodes an operation that started on `fs` and may write `I` is allowed to write. -/
def Mine (I : ℕ → Prop) (fs : FileSystem) (i : ℕ) : Prop := fs.nextIno ≤ i ∨ I i

/-- The inodes with a name in `S`. -/
def Named (S : Path → Prop) (fs : FileSystem) (i : ℕ) : Prop :=
  ∃ q, S q ∧ fs.node? q = some (.file i)

/-- Between `fs` and `fs'` only names in `S`, and inodes that are new or in `I`, were touched. -/
structure Within (S : Path → Prop) (I : ℕ → Prop) (fs fs' : FileSystem) : Prop where
  node : ∀ q, ¬ S q → fs'.node? q = fs.node? q
  data : ∀ i, ¬ Mine I fs i → fs'.data i = fs.data i
  next : fs.nextIno ≤ fs'.nextIno
  mine : ∀ q i, S q → fs'.node? q = some (.file i) → Mine I fs i

namespace Within

variable {S T : Path → Prop} {I : ℕ → Prop} {fs fs' : FileSystem}

theorem refl (h : ∀ i, Named S fs i → I i) : Within S I fs fs :=
  ⟨fun _ _ => rfl, fun _ _ => rfl, le_rfl, fun q i hq hi => Or.inr (h i ⟨q, hq, hi⟩)⟩

/-- A file named outside the frame keeps its contents. -/
theorem file (h : Within S (Named S fs) fs fs') {q : Path} (hq : ¬ S q) {i : ℕ}
    (hi : fs.node? q = some (.file i)) : fs'.data i = fs.data i := by
  apply h.data i
  rintro (hnew | ⟨q', hq', hq'i⟩)
  · exact absurd (node?_lt hi) (Nat.not_lt.mpr hnew)
  · exact hq (node?_inj hi hq'i ▸ hq')

theorem setData (h : Within S I fs fs') {i : ℕ} (hi : Mine I fs i) (d : FileData) :
    Within S I fs (fs'.setData i d) where
  node := h.node
  data j hj := (data_setData_ne fs' d (by rintro rfl; exact hj hi)).trans (h.data j hj)
  next := h.next
  mine := h.mine

theorem create (h : Within S I fs fs') {p : Path} (hp : S p) (hne : p ≠ []) (d : FileData) :
    Within S I fs (fs'.create p d) where
  node q hq := by rw [node?_create fs' hne, if_neg (by rintro rfl; exact hq hp), h.node q hq]
  data j hj := by
    have hne' : j ≠ fs'.nextIno := by
      rintro rfl
      exact hj (Or.inl h.next)
    exact (Function.update_of_ne hne' _ _).trans (h.data j hj)
  next := h.next.trans (Nat.le_succ _)
  mine q j hq hj := by
    rw [node?_create fs' hne] at hj
    split_ifs at hj with hqp
    · simp only [Option.some.injEq, Node.file.injEq] at hj
      exact Or.inl (hj ▸ h.next)
    · exact h.mine q j hq hj

theorem mkdir (h : Within S I fs fs') {p : Path} (hp : S p) (hne : p ≠ []) :
    Within S I fs (fs'.mkdir p) where
  node q hq := by rw [node?_mkdir fs' hne, if_neg (by rintro rfl; exact hq hp), h.node q hq]
  data := h.data
  next := h.next
  mine q j hq hj := by
    rw [node?_mkdir fs' hne] at hj
    split_ifs at hj with hqp
    · cases hj
    · exact h.mine q j hq hj

theorem discard (h : Within S I fs fs') {gone : Path → Bool} (hg : ∀ q, gone q = true → S q) :
    Within S I fs (fs'.discard gone) where
  node q hq := by
    by_cases hne : q = []
    · subst q
      rfl
    · rw [node?_discard fs' gone hne, if_neg (fun h' => hq (hg q h')), h.node q hq]
  data := h.data
  next := h.next
  mine q j hq hj := by
    by_cases hne : q = []
    · subst q
      cases hj
    · rw [node?_discard fs' gone hne] at hj
      split_ifs at hj with hgq
      exact h.mine q j hq hj

theorem erase (h : Within S I fs fs') {p : Path} (hp : S p) : Within S I fs (fs'.erase p) :=
  h.discard (fun q hq => by simpa using (of_decide_eq_true hq) ▸ hp)

end Within

end FileSystem

end Posix
