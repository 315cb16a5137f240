import MyKafka.ConfigSpec
import MyKafka.PartitionClose
import MyKafka.PartitionFrame

/-!
# Where the keys of a broker live

Each key owns what lies below the directory of its name, and its config file. Keys of different
names own nothing in common, so what an operation on one key does leaves the partitions and the
config files of the others as they were.
-/

namespace MyKafka

open Posix

/-! ## Names -/

section Layout

variable (B : Path)

def dirOf (key : TopicPartition) : Path := B ++ [key.toString]

def confDir : Path := B ++ [Broker.configName]

def cfgOf (key : TopicPartition) : Path := confDir B ++ [key.cfgName]

/-- What the key has in the file system. -/
def Owns (key : TopicPartition) (q : Path) : Prop := Under (dirOf B key) q ∨ q = cfgOf B key

end Layout

variable {B q : Path} {key key' : TopicPartition} {n m : Name}

theorem under_child (h : Under (B ++ [n]) q) (h' : Under (B ++ [m]) q) : n = m := by
  have hpre : B ++ [n] <+: B ++ [m] := List.prefix_of_prefix_length_le h h' (by simp)
  have heq := hpre.eq_of_length (by simp)
  simpa using heq

theorem under_cfgOf (key : TopicPartition) : Under (confDir B) (cfgOf B key) :=
  List.prefix_append _ _

theorem Owns.disjoint (hk : key.toString ≠ key'.toString) (h : Owns B key q) : ¬ Owns B key' q := by
  rcases h with h | rfl <;> rintro (h' | h')
  · exact hk (under_child h h')
  · subst h'
    exact key.toString_ne_configName (under_child h (under_cfgOf key'))
  · exact key'.toString_ne_configName (under_child h' (under_cfgOf key))
  · have hname : key.cfgName = key'.cfgName := by simpa [cfgOf] using h'
    exact hk (TopicPartition.cfgName_inj hname)

theorem Owns.not_above (h : Owns B key q) : ¬ q <+: confDir B := by
  intro hq
  rcases h with h | rfl
  · have hpre : Under (confDir B) (confDir B) := List.prefix_refl _
    exact key.toString_ne_configName (under_child (h.trans hq) hpre)
  · have := hq.length_le
    simp [cfgOf] at this

theorem Owns.below (h : Owns B key q) : Under B q := by
  rcases h with h | rfl
  · exact (List.prefix_append _ _).trans h
  · exact (List.prefix_append _ _).trans (List.prefix_append _ _)

theorem Owns.ne_base (h : Owns B key q) : q ≠ B := by
  rintro rfl
  exact h.not_above (List.prefix_append _ _)

theorem Owns.ne_conf (h : Owns B key q) : q ≠ confDir B := by
  rintro rfl
  exact h.not_above (List.prefix_refl _)

theorem prefix_confDir (h : q <+: B) : q <+: confDir B := h.trans (List.prefix_append _ _)

/-! ## Partitions that are not touched -/

/-- The two worlds agree on the directory, on the way to it and on the files below it. -/
structure Agree (dir : Path) (w w' : World) : Prop where
  above : ∀ q, q <+: dir → w'.fs.node? q = w.fs.node? q
  node : ∀ q, Under dir q → w'.fs.node? q = w.fs.node? q
  data : ∀ q i, Under dir q → w.fs.node? q = some (.file i) → w'.fs.data i = w.fs.data i
  now : w.now ≤ w'.now

variable {w w' : World} {path : RawPath} {dir : Path} {p : Partition} {cs : List Chunk}
  {log : List Payload}

theorem under_append (dir : Path) (n : Name) : Under dir (dir ++ [n]) := List.prefix_append _ _

theorem Agree.onDisk {c : Chunk} {i j : ℕ} (h : Agree dir w w') (hd : OnDisk w.fs dir i j c) :
    OnDisk w'.fs dir i j c := by
  have hi := h.data _ i (under_append _ _) hd.log
  refine ⟨?_, ?_, ?_, ?_, hd.fits⟩
  · rw [h.node _ (under_append _ _), hd.log]
  · rw [h.node _ (under_append _ _), hd.index]
  · rw [hi, hd.bytes]
  · rw [hi, hd.mtime]

theorem Agree.index {c : Chunk} {i j : ℕ} (h : Agree dir w w') (hd : OnDisk w.fs dir i j c) :
    w'.fs.data j = w.fs.data j := h.data _ j (under_append _ _) hd.index

theorem Agree.laid (h : Agree dir w w') (hl : Laid w dir cs log) : Laid w' dir cs log := by
  refine ⟨hl.represents, hl.quiet, hl.mtimes, fun c hc => (hl.past c hc).trans h.now, ?_⟩
  intro n hn
  rw [h.node _ (under_append _ _)] at hn
  exact hl.only n hn

theorem Agree.stored (h : Agree dir w w') (hs : Stored w path dir cs log) :
    Stored w' path dir cs log := by
  refine ⟨h.laid hs.toLaid, hs.atDir.frame h.above, ?_⟩
  intro c hc
  obtain ⟨i, j, hd, hsane⟩ := hs.files c hc
  exact ⟨i, j, h.onDisk hd, by rwa [h.index hd]⟩

theorem Agree.rep (h : Agree dir w w') (hr : Partition.Rep w dir p cs log) :
    Partition.Rep w' dir p cs log := by
  refine ⟨hr.opened, hr.active, ⟨h.laid hr.live.toLaid, hr.live.atDir.frame h.above, ?_,
    hr.live.cached⟩⟩
  refine forall₂_imp_mem hr.live.stands ?_
  intro s c _ hst
  obtain ⟨i, j, ho⟩ := hst.opened
  exact ⟨⟨i, j, { ho with
    toOnDisk := h.onDisk ho.toOnDisk
    holds := ho.holds.congr (h.index ho.toOnDisk) }⟩, hst.maxSize_eq, hst.cached⟩

theorem Agree.of_frame {S : Path → Prop} (h : Frame S (FileSystem.Named S w.fs) w w')
    (hS : ∀ q, S q → ¬ Under dir q ∧ ¬ q <+: dir) : Agree dir w w' where
  above q hq := h.within.node q (fun hSq => (hS q hSq).2 hq)
  node q hq := h.within.node q (fun hSq => (hS q hSq).1 hq)
  data q _ hq hi := h.within.file (fun hSq => (hS q hSq).1 hq) hi
  now := h.now.ge

/-! ## What one key touches -/

/-- Names that the key does not own, and the files under them, are as they were. -/
structure Touches (B : Path) (key : TopicPartition) (w w' : World) : Prop where
  node : ∀ q, ¬ Owns B key q → w'.fs.node? q = w.fs.node? q
  data : ∀ q i, ¬ Owns B key q → w.fs.node? q = some (.file i) → w'.fs.data i = w.fs.data i
  now : w'.now = w.now

namespace Touches

variable {w'' : World}

theorem trans (h : Touches B key w w') (h' : Touches B key w' w'') : Touches B key w w'' where
  node q hq := (h'.node q hq).trans (h.node q hq)
  data q i hq hi := (h'.data q i hq ((h.node q hq).trans hi)).trans (h.data q i hq hi)
  now := h'.now.trans h.now

theorem of_frame {S : Path → Prop} (h : Frame S (FileSystem.Named S w.fs) w w')
    (hS : ∀ q, S q → Owns B key q) : Touches B key w w' where
  node q hq := h.within.node q (fun hSq => hq (hS q hSq))
  data q _ hq hi := h.within.file (fun hSq => hq (hS q hSq)) hi
  now := h.now

theorem atDir (h : Touches B key w w') {r : RawPath} (hat : FileSystem.At w.fs r dir)
    (hdir : dir <+: confDir B) : FileSystem.At w'.fs r dir :=
  hat.frame (fun q hq => h.node q (fun hown => hown.not_above (hq.trans hdir)))

theorem agree (h : Touches B key w w') (hk : key.toString ≠ key'.toString) :
    Agree (dirOf B key') w w' where
  above q hq := by
    refine h.node q ?_
    intro hown
    have hlen := hq.length_le
    rcases hown with hown | rfl
    · have heq := hown.trans hq
      exact hk (under_child heq (List.prefix_refl _))
    · simp [cfgOf, confDir, dirOf] at hlen
  node q hq := h.node q (Owns.disjoint hk.symm (Or.inl hq))
  data q i hq hi := h.data q i (Owns.disjoint hk.symm (Or.inl hq)) hi
  now := h.now.ge

end Touches

namespace Partition

theorem Rep.confined {b : Path} {r : RawPath} (hr : Rep w (b ++ [n]) p cs log)
    (hpath : p.path = r.child n) (hn : PlainName n) (hat : FileSystem.At w.fs r b) :
    p.Confined (b ++ [n]) (FileSystem.Named (Under (b ++ [n])) w.fs) w.fs := by
  have hsegs : ∀ s ∈ p.segments,
      s.Confined (Under (b ++ [n])) (FileSystem.Named (Under (b ++ [n])) w.fs) w.fs := by
    intro s hs
    obtain ⟨c, -, hst⟩ := forall₂_mem hr.live.stands hs
    obtain ⟨i, j, ho⟩ := hst.opened
    have hown : ∀ q, ownNames (b ++ [n]) c.base q → Under (b ++ [n]) q := by
      rintro q (rfl | rfl) <;> exact under_append _ _
    refine (ho.confined hr.live.atDir).mono hown ?_
    rintro k ⟨q, hq, hk⟩
    exact ⟨q, hown q hq, hk⟩
  refine ⟨⟨r, b, n, hpath, rfl, hn, hat⟩, fun s hs => hsegs s (List.mem_append_left _ hs), ?_⟩
  intro s hs
  exact hsegs s (List.mem_append_right _ (Option.mem_toList.mpr hs))

theorem open_vacant (hw : w.Calm) {r : RawPath} {b : Path} (hat : FileSystem.At w.fs r b)
    (hn : PlainName n) (hfree : ∀ q, Under (b ++ [n]) q → w.fs.node? q = none)
    (maxSegmentSize maxPartitionSize segmentTtl : ℤ) :
    ∃ p' w', (Partition.new (r.child n) maxSegmentSize maxPartitionSize segmentTtl).open w =
        (.ok (), p', w') ∧ Rep w' (b ++ [n]) p' [emptyChunk 0 w.now] [] ∧
      p'.settings = (r.child n, maxSegmentSize, maxPartitionSize, segmentTtl) := by
  have hne : b ++ [n] ≠ [] := by simp
  set w₁ : World := { w with fs := w.fs.mkdir (b ++ [n]) } with hw₁
  have hnode : ∀ q, q ≠ b ++ [n] → w₁.fs.node? q = w.fs.node? q := by
    intro q hq
    show (w.fs.mkdir _).node? q = _
    rw [FileSystem.node?_mkdir _ hne, if_neg hq]
  have hat₁ : FileSystem.At w₁.fs r b := by
    refine hat.frame (fun q hq => hnode q ?_)
    rintro rfl
    have := hq.length_le
    simp at this
  have hdir : w₁.fs.IsDir (b ++ [n]) := by
    show (w.fs.mkdir _).node? _ = _
    rw [FileSystem.node?_mkdir _ hne, if_pos rfl]
  obtain ⟨p', w', hopen, hre⟩ := openFiles_empty
    (p := Partition.new (r.child n) maxSegmentSize maxPartitionSize segmentTtl) (w := w₁) hw
    (Fresh.new _ _ _ _) (hat₁.below hn hdir) (by
      intro m
      rw [hnode _ (by simp), hfree _ (under_append _ _)])
  refine ⟨p', w', ?_, hre.rep, hre.settings⟩
  unfold Partition.open
  rw [show (Partition.new (r.child n) maxSegmentSize maxPartitionSize segmentTtl).path =
    r.child n from rfl, World.createDirectories_child hw hat hn (hfree _ (List.prefix_refl _))]
  exact hopen

theorem deletePartition_spec (hw : w.Calm) (hr : Rep w dir p cs log) (hne : dir ≠ []) :
    ∃ p' w', p.deletePartition w = (.ok (), p', w') ∧ ∀ q, Under dir q → w'.fs.node? q = none := by
  obtain ⟨p', w₁, hclose, -, hsettings, hstored, -, -⟩ := close_spec hw hr
  have hpath : p'.path = p.path := congrArg (fun x => x.1) hsettings
  refine ⟨p', { w₁ with fs := w₁.fs.removeTree dir }, ?_, ?_⟩
  · unfold deletePartition
    rw [hclose]
    dsimp only
    rw [hpath]
    unfold World.removeAll
    rw [hstored.atDir.resolves]
  · intro q hq
    show (w₁.fs.removeTree dir).node? q = none
    rw [FileSystem.node?_removeTree _ hne, if_pos (show dir <+: q from hq)]

end Partition

end MyKafka
