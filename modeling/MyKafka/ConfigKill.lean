import MyKafka.ConfigSpec

/-!
# Creations that stop

`create` makes the file visible under its name first and stores the values last. Between the two the
file holds zeros, and so it does after every error exit, none of which removes it: a new store that
loads the directory takes them for the values of the key.
-/

namespace Posix

namespace World

/-- The next call is refused. -/
def Refuses (w : World) : Prop := w.outcomes.head? = some .fail

instance (w : World) : Decidable w.Refuses := inferInstanceAs (Decidable (_ = _))

variable {w : World} {num i : ℕ}

theorem served_refused (h : w.Refuses) : w.served = (false, w.rest) := by
  obtain ⟨fs, now, outcomes, order, nextFd, closed⟩ := w
  cases outcomes with
  | nil => cases h
  | cons o os =>
      obtain rfl : o = .fail := Option.some.inj h
      rfl

theorem serving_succ {n : ℕ} : w.Serving (n + 1) ↔ ¬ w.Refuses ∧ w.rest.Serving n := by
  obtain ⟨fs, now, outcomes, order, nextFd, closed⟩ := w
  cases outcomes with
  | nil => simp [Serving, Refuses, rest]
  | cons o os => simp [Serving, Refuses, rest]

theorem serving_one (h : ¬ w.Refuses) : w.Serving 1 :=
  serving_succ.mpr ⟨h, by simp [Serving]⟩

theorem fstat_refused (h : w.Refuses) (d : Desc) : w.fstat d = (none, w.rest) := by
  unfold fstat
  rw [served_refused h]

theorem ftruncate_refused (h : w.Refuses) (d : Desc) (size : ℤ) :
    w.ftruncate d size = (false, w.rest) := by
  unfold ftruncate
  rw [served_refused h]

theorem lseek_refused (h : w.Refuses) (d : Desc) (target : ℤ) :
    w.lseek d target = (false, w.rest) := by
  unfold lseek
  rw [served_refused h]

theorem pwrite_refused (h : w.Refuses) (d : Desc) (pos : ℕ) (bs : List UInt8) :
    w.pwrite d pos bs = (-1, w.rest) := by
  obtain ⟨fs, now, outcomes, order, nextFd, closed⟩ := w
  cases outcomes with
  | nil => cases h
  | cons o os =>
      obtain rfl : o = .fail := Option.some.inj h
      rfl

theorem mmap_refused (h : w.Refuses) (d : Desc) (size : ℤ) : w.mmap d size = (.failed, w.rest) := by
  unfold mmap
  rw [served_refused h]

theorem openCreate_refused (h : w.Refuses) (r : RawPath) : w.openCreate r = (.closed, w.rest) := by
  unfold openCreate
  rw [served_refused h]

@[simp] theorem fs_rest (w : World) : w.rest.fs = w.fs := rfl

end World

/-- Every byte is zero. -/
def Image.Zero (im : Image) : Prop := ∀ k, im.byte k = 0

namespace Image.Zero

variable {im : Image}

theorem empty : Image.empty.Zero := fun _ => rfl

theorem truncate (h : im.Zero) (n : ℕ) : (im.truncate n).Zero := by
  intro k
  simp only [Image.truncate]
  split_ifs
  · exact h k
  · rfl

theorem pwrite (h : im.Zero) (pos : ℕ) {bs : List UInt8} (hbs : bs <+: [0]) :
    (im.pwrite pos bs).Zero := by
  intro k
  have hzero : ∀ m, bs.getD m 0 = 0 := by
    rcases List.prefix_cons_iff.mp hbs with rfl | ⟨l, rfl, hl⟩
    · simp
    · obtain rfl := List.prefix_nil.mp hl
      intro m
      cases m <;> rfl
  simp only [Image.pwrite]
  split_ifs
  · exact hzero _
  · exact h k

theorem load (h : im.Zero) (addr w : ℕ) : im.load addr w = 0 := by
  have hempty : im.load addr w = Image.empty.load addr w :=
    Image.load_congr (fun k _ => h (addr + k))
  rw [hempty]
  exact Image.load_past_end (Nat.zero_le _)

end Image.Zero

end Posix

namespace MyKafka

open Posix LittleEndian

namespace ConfigManager

/-! ## The steps of a creation -/

/-- The disk after at most `n` of the steps of `create` on the new file: its size is asked for and
set, its last byte is written, it is mapped and filled. A step that is refused ends the creation. -/
def fillSteps (info : RawInfo) (fd : Desc) (n : ℕ) (w : World) : World :=
  if n = 0 then w
  else
    match w.fstat fd with
    | (none, w) => (w.close fd).2
    | (some _, w) =>
      if n = 1 then w
      else
        match w.ftruncate fd RawInfo.width with
        | (false, w) => (w.close fd).2
        | (true, w) =>
          if n = 2 then w
          else
            match w.lseek fd (RawInfo.width - 1) with
            | (false, w) => (w.close fd).2
            | (true, w) =>
              if n = 3 then w
              else
                match w.pwrite fd (RawInfo.width - 1) [0] with
                | (k, w) =>
                  if k < 0 then (w.close fd).2
                  else if n = 4 then w
                  else
                    match w.mmap fd RawInfo.width with
                    | (.failed, w) => (w.close fd).2
                    | (addr, w) => if n = 5 then w else w.store addr 0 info.bytes

/-- The disk after at most `n` of the steps of `create`, the first of which creates the file. -/
def createSteps (c : ConfigManager) (key : TopicPartition) (segSize partSize ttl : Int64) (n : ℕ)
    (w : World) : World :=
  if w.exists? (c.path key) ∨ n = 0 then w
  else
    match w.openCreate (c.path key) with
    | (.closed, w) => w
    | (fd, w) => fillSteps ⟨segSize, partSize, ttl, -1⟩ fd (n - 1) w

variable {w : World} {c : ConfigManager} {key : TopicPartition} {dir : Path} {num i n : ℕ}
  {info : RawInfo}

theorem abandon_world (c : ConfigManager) (key : TopicPartition) (fd : Desc) (msg closing : String)
    (w : World) : (c.abandon key fd msg closing w).2.2 = (w.close fd).2 := by
  unfold abandon
  split <;> simp_all

/-- Seven steps are the whole call. -/
theorem createSteps_all (c : ConfigManager) (key : TopicPartition) (segSize partSize ttl : Int64)
    (hn : 7 ≤ n) (w : World) :
    c.createSteps key segSize partSize ttl n w = (c.create key segSize partSize ttl w).2.2 := by
  have hn₁ : ∀ k < 6, n - 1 ≠ k := by omega
  unfold createSteps create
  by_cases hexists : w.exists? (c.path key)
  · rw [if_pos (Or.inl hexists), if_pos hexists]
  · rw [if_neg (by rintro (h | h); exacts [hexists h, by omega]), if_neg hexists]
    rcases w.openCreate (c.path key) with ⟨_ | _ | _, w₁⟩
    · rfl
    all_goals
      unfold fillSteps
      dsimp only
      rw [if_neg (hn₁ 0 (by omega))]
      rcases w₁.fstat _ with ⟨_ | _, w₂⟩
      · rw [abandon_world]
      · dsimp only
        rw [if_neg (hn₁ 1 (by omega))]
        rcases w₂.ftruncate _ _ with ⟨_ | _, w₃⟩
        · rw [abandon_world]
        · dsimp only
          rw [if_neg (hn₁ 2 (by omega))]
          rcases w₃.lseek _ _ with ⟨_ | _, w₄⟩
          · rw [abandon_world]
          · dsimp only
            rw [if_neg (hn₁ 3 (by omega))]
            split_ifs with hwrite hfour hfive
            · rw [abandon_world]
            · exact absurd hfour (hn₁ 4 (by omega))
            · exact absurd hfive (hn₁ 5 (by omega))
            · rcases World.mmap _ _ _ with ⟨_ | _ | _ | _, w₆⟩
              · rfl
              · rw [abandon_world]
              · rfl
              · rfl

/-- What the steps leave of the file of the inode `i`. -/
structure Filled (info : RawInfo) (i n : ℕ) (w w' : World) : Prop where
  node : w'.fs.node? = w.fs.node?
  done : 6 ≤ n → w.Serving 5 → info.Held (w'.fs.data i).image
  zero : ¬ (6 ≤ n ∧ w.Serving 5) → (w'.fs.data i).image.Zero

theorem Filled.stopped {w' : World} (hnode : w'.fs.node? = w.fs.node?)
    (hzero : (w'.fs.data i).image.Zero) (h : ¬ (6 ≤ n ∧ w.Serving 5)) : Filled info i n w w' :=
  ⟨hnode, fun hn hw => absurd ⟨hn, hw⟩ h, fun _ => hzero⟩

theorem writeSteps_spec {w' : World} (hn : 2 ≤ n) (hnode : w'.fs.node? = w.fs.node?)
    (hzero : (w'.fs.data i).image.Zero) (hsize : (w'.fs.data i).image.size = 32)
    (hserve : w.Serving 5 ↔ w'.Serving 3) :
    Filled info i n w (if n = 2 then w' else
      match w'.lseek (.live num i) (RawInfo.width - 1) with
      | (false, w) => (w.close (.live num i)).2
      | (true, w) =>
        if n = 3 then w
        else
          match w.pwrite (.live num i) (RawInfo.width - 1) [0] with
          | (k, w) =>
            if k < 0 then (w.close (.live num i)).2
            else if n = 4 then w
            else
              match w.mmap (.live num i) RawInfo.width with
              | (.failed, w) => (w.close (.live num i)).2
              | (addr, w) => if n = 5 then w else w.store addr 0 info.bytes) := by
  by_cases hn₂ : n = 2
  · rw [if_pos hn₂]
    exact .stopped hnode hzero (by omega)
  rw [if_neg hn₂]
  by_cases h₃ : w'.Refuses
  · rw [World.lseek_refused h₃]
    dsimp only
    refine .stopped ?_ ?_ (fun h => (World.serving_succ.mp (hserve.mp h.2)).1 h₃)
    · rw [World.fs_close, World.fs_rest, hnode]
    · rwa [World.fs_close, World.fs_rest]
  rw [World.lseek_serving (World.serving_one h₃), decide_eq_true (by simp [RawInfo.width])]
  dsimp only
  by_cases hn₃ : n = 3
  · rw [if_pos hn₃]
    exact .stopped hnode hzero (by omega)
  rw [if_neg hn₃]
  by_cases h₄ : w'.rest.Refuses
  · rw [World.pwrite_refused h₄, if_pos (show (-1 : ℤ) < 0 by decide)]
    refine .stopped ?_ ?_ (fun h => ?_)
    · rw [World.fs_close, World.fs_rest, World.fs_rest, hnode]
    · rwa [World.fs_close, World.fs_rest, World.fs_rest]
    · exact (World.serving_succ.mp (World.serving_succ.mp (hserve.mp h.2)).2).1 h₄
  obtain ⟨bs, hbs, hwrite⟩ := World.pwrite_serving (World.serving_one h₄) num i
    (RawInfo.width - 1) [0]
  set im := (w'.fs.data i).image.pwrite (RawInfo.width - 1) bs with him
  have hzero' : im.Zero := hzero.pwrite _ hbs
  have hsize' : im.size = 32 := by
    have hlen := hbs.length_le
    rw [List.length_singleton] at hlen
    rw [him, Image.size_pwrite (by rw [hsize, RawInfo.width]; omega), hsize]
  have hdata : ((w'.fs.setData i ⟨im, w'.now⟩).data i).image = im := by
    rw [FileSystem.data_setData_same]
  rw [hwrite]
  dsimp only
  rw [if_neg (by omega)]
  by_cases hn₄ : n = 4
  · rw [if_pos hn₄]
    exact .stopped hnode (by rw [← hdata] at hzero'; exact hzero') (by omega)
  rw [if_neg hn₄]
  have hthird : w.Serving 5 ↔ ¬ (w'.rest.rest.setImage i im).Refuses := by
    rw [hserve, World.serving_succ, World.serving_succ, World.serving_succ]
    simp only [h₃, h₄, not_false_eq_true, true_and]
    exact ⟨fun h => h.1, fun h => ⟨h, by simp [World.Serving]⟩⟩
  by_cases h₅ : (w'.rest.rest.setImage i im).Refuses
  · have hmap := World.mmap_refused h₅ (.live num i) RawInfo.width
    rw [show w'.rest.rest.setImage i ((w'.rest.fs.data i).image.pwrite (RawInfo.width - 1) bs) =
      w'.rest.rest.setImage i im from rfl, hmap]
    refine .stopped ?_ ?_ (fun h => hthird.mp h.2 h₅)
    · rw [World.fs_close]
      exact hnode
    · rw [World.fs_close]
      rw [← hdata] at hzero'
      exact hzero'
  have hmap := World.mmap_serving (World.serving_one h₅) num i
    (show (0 : ℤ) < RawInfo.width by decide)
  rw [show w'.rest.rest.setImage i ((w'.rest.fs.data i).image.pwrite (RawInfo.width - 1) bs) =
    w'.rest.rest.setImage i im from rfl, hmap]
  dsimp only
  by_cases hn₅ : n = 5
  · rw [if_pos hn₅]
    exact .stopped hnode (by rw [← hdata] at hzero'; exact hzero') (by omega)
  rw [if_neg hn₅]
  refine ⟨hnode, fun _ _ => ?_, fun h => absurd ⟨by omega, hthird.mpr h₅⟩ h⟩
  rw [World.store_mapped]
  dsimp only
  rw [FileSystem.data_setData_same]
  apply RawInfo.Held.store
  rw [← hdata] at hsize'
  exact hsize'

theorem fillSteps_spec (num : ℕ) (info : RawInfo) (n : ℕ) (hzero : (w.fs.data i).image.Zero) :
    Filled info i n w (fillSteps info (.live num i) n w) := by
  unfold fillSteps
  by_cases hn₀ : n = 0
  · rw [if_pos hn₀]
    exact .stopped rfl hzero (by omega)
  rw [if_neg hn₀]
  by_cases h₁ : w.Refuses
  · rw [World.fstat_refused h₁]
    dsimp only
    refine .stopped ?_ ?_ (fun h => (World.serving_succ.mp h.2).1 h₁)
    · rw [World.fs_close, World.fs_rest]
    · rwa [World.fs_close, World.fs_rest]
  rw [World.fstat_serving (World.serving_one h₁)]
  dsimp only
  by_cases hn₁ : n = 1
  · rw [if_pos hn₁]
    exact .stopped rfl hzero (by omega)
  rw [if_neg hn₁]
  by_cases h₂ : w.rest.Refuses
  · rw [World.ftruncate_refused h₂]
    dsimp only
    refine .stopped ?_ ?_ (fun h => (World.serving_succ.mp (World.serving_succ.mp h.2).2).1 h₂)
    · rw [World.fs_close, World.fs_rest, World.fs_rest]
    · rwa [World.fs_close, World.fs_rest, World.fs_rest]
  rw [World.ftruncate_serving (World.serving_one h₂) num i (by simp)]
  dsimp only
  set im := (w.rest.fs.data i).image.truncate (RawInfo.width : ℤ).toNat with him
  have hdata : (((w.rest.rest.setImage i im).fs.data i)).image = im := by
    rw [World.fs_setImage, FileSystem.data_setData_same]
  refine writeSteps_spec (by omega) rfl ?_ ?_ ?_
  · rw [hdata, him]
    exact Image.Zero.truncate hzero _
  · rw [hdata, him, Image.size_truncate]
    rfl
  · rw [World.serving_succ, World.serving_succ]
    simp only [h₁, h₂, not_false_eq_true, true_and]
    rfl

/-! ## A new store -/

theorem open_nothing (c : ConfigManager) (hfile : w.fs.fileAt (c.path key) = none) :
    c.open key w =
      (Utils.err .fileNotFound ("File not exists: " ++ pathText (c.path key)), c, w) := by
  rw [ConfigManager.open, World.isRegular, hfile]
  exact if_pos (by simp)

/-- Whatever the file holds, `open` takes it for the values of the key. -/
theorem open_file (hw : w.Calm) (c : ConfigManager) (hfile : w.fs.fileAt (c.path key) = some i) :
    ∃ cfg, c.open key w = (.ok (), { c with configs := insertNew c.configs key cfg },
        { w with nextFd := w.nextFd + 1 }) ∧ cfg.info = RawInfo.load w (.mapped i) := by
  have hw' : World.Calm { w with nextFd := w.nextFd + 1 } := hw
  refine ⟨⟨.live w.nextFd i, .mapped i, RawInfo.load w (.mapped i)⟩, ?_, rfl⟩
  rw [ConfigManager.open, World.isRegular, hfile, if_neg (by simp),
    World.openCreate_calm hw (FileSystem.openCreate_fileAt hfile w.now)]
  dsimp only
  rw [World.mmap_calm hw' _ _ (by simp [RawInfo.width])]
  rfl

/-- What the store says of a key after loading depends on the file of the key only. -/
structure Loaded (key : TopicPartition) (keys : List TopicPartition) (c : ConfigManager) (w : World)
    (c' : ConfigManager) (w' : World) : Prop where
  basePath : c'.basePath = c.basePath
  fs : w'.fs = w.fs
  calm : w'.Calm
  missing : w.fs.fileAt (c.path key) = none → c.configs.lookup key = none →
    c'.configs.lookup key = none
  found : ∀ i, w.fs.fileAt (c.path key) = some i → key ∈ keys ∨ key ∈ c.configs →
    (∀ cfg, c.configs.lookup key = some cfg → cfg.info = RawInfo.load w (.mapped i)) →
    ∃ cfg, c'.configs.lookup key = some cfg ∧ cfg.info = RawInfo.load w (.mapped i)

theorem Loaded.step {keys : List TopicPartition} {k : TopicPartition} {c c₁ c' : ConfigManager}
    {w w' : World} {fd : ℕ} (hbase : c₁.basePath = c.basePath)
    (hother : k ≠ key → c₁.configs.lookup key = c.configs.lookup key)
    (hnofile : k = key → w.fs.fileAt (c.path key) = none → c₁.configs = c.configs)
    (hfile : ∀ i, k = key → w.fs.fileAt (c.path key) = some i →
      ∃ cfg, c₁.configs = insertNew c.configs key cfg ∧ cfg.info = RawInfo.load w (.mapped i))
    (h : Loaded key keys c₁ { w with nextFd := fd } c' w') : Loaded key (k :: keys) c w c' w' := by
  have hpath : c₁.path key = c.path key := by rw [path, path, hbase]
  obtain ⟨hbase', hfs, hcalm, hmissing, hfound⟩ := h
  rw [hpath] at hmissing hfound
  refine ⟨hbase'.trans hbase, hfs, hcalm, fun hnone hlook => ?_, fun i hsome hmem hval => ?_⟩
  · apply hmissing hnone
    by_cases hk : k = key
    · rw [hnofile hk hnone, hlook]
    · rw [hother hk, hlook]
  · by_cases hk : k = key
    · obtain ⟨cfg, hconfigs, hcfg⟩ := hfile i hk hsome
      rw [hconfigs, insertNew] at hfound
      split_ifs at hfound with hin
      · exact hfound i hsome (Or.inr hin) hval
      · apply hfound i hsome (Or.inr ((AList.mem_insert _).mpr (Or.inl rfl)))
        intro cfg' hcfg'
        rw [AList.lookup_insert, Option.some.injEq] at hcfg'
        rw [← hcfg', hcfg]
        rfl
    · apply hfound i hsome
      · apply hmem.imp (fun hin => (List.mem_cons.mp hin).resolve_left (Ne.symm hk))
        intro hin
        rw [← AList.lookup_isSome, hother hk]
        exact AList.lookup_isSome.mpr hin
      · intro cfg hcfg
        rw [hother hk] at hcfg
        exact hval cfg hcfg

theorem loadFiles_loaded (key : TopicPartition) {keys : List TopicPartition} :
    ∀ {c : ConfigManager} {w : World}, w.Calm →
      Loaded key keys c w (loadFiles keys c w).1 (loadFiles keys c w).2 := by
  induction keys with
  | nil =>
      intro c w hw
      refine ⟨rfl, rfl, hw, fun _ hnone => hnone, ?_⟩
      intro i _ hmem hval
      obtain ⟨cfg, hcfg⟩ := Option.isSome_iff_exists.mp
        (AList.lookup_isSome.mpr (hmem.resolve_left List.not_mem_nil))
      exact ⟨cfg, hcfg, hval cfg hcfg⟩
  | cons k keys ih =>
      intro c w hw
      rw [loadFiles]
      cases hfile : w.fs.fileAt (c.path k) with
      | none =>
          rw [open_nothing c hfile]
          apply Loaded.step rfl (fun _ => rfl) (fun _ _ => rfl) _ (ih hw)
          rintro i rfl hsome
          rw [hfile] at hsome
          cases hsome
      | some j =>
          obtain ⟨cfg, hopen, hcfg⟩ := open_file hw c hfile
          have hloaded := ih (c := { c with configs := insertNew c.configs k cfg })
            (w := { w with nextFd := w.nextFd + 1 }) hw
          rw [hopen]
          apply Loaded.step _ _ _ _ hloaded
          · rfl
          · exact fun hk => lookup_insertNew_ne (Ne.symm hk) cfg
          · rintro rfl hnone
            rw [hfile] at hnone
            cases hnone
          · rintro i rfl hsome
            obtain rfl := Option.some.inj (hfile.symm.trans hsome)
            exact ⟨cfg, rfl, hcfg⟩

/-- A new store that loads the directory. -/
def reloaded (path : RawPath) (order : KeyOrder) (w : World) : ConfigManager × World :=
  match new path order w with
  | (c, w) => c.load w

/-- The directory of a store, after a reload: the key is not there and can be created, or it has the
values of its creation. -/
def Recovers (path : RawPath) (order : KeyOrder) (key : TopicPartition)
    (segSize partSize ttl : Int64) (w : World) : Prop :=
  (reloaded path order w).1.configs.lookup key = none ∧
      (∀ segSize partSize ttl : Int64, ((reloaded path order w).1.create key segSize partSize ttl
        (reloaded path order w).2).1 = .ok ()) ∨
    ∃ cfg, (reloaded path order w).1.configs.lookup key = some cfg ∧
      cfg.info = ⟨segSize, partSize, ttl, -1⟩

variable {r : RawPath} {order : KeyOrder} {segSize partSize ttl : Int64}

theorem reloaded_loaded (hw : w.Calm) (hat : FileSystem.At w.fs r dir) (order : KeyOrder)
    (key : TopicPartition) :
    ∃ keys, Loaded key keys ⟨r, ∅, order⟩ w (reloaded r order w).1 (reloaded r order w).2 ∧
      (key.Decodable → (w.fs.node? (dir ++ [key.cfgName])).isSome →
        w.fs.fileAt (r.child key.cfgName) ≠ none → key ∈ keys) := by
  have hnew : new r order w = (⟨r, ∅, order⟩, w) := by
    rw [new, World.createDirectories_at hw hat]
  unfold reloaded
  rw [hnew]
  refine ⟨_, loadFiles_loaded key hw, ?_⟩
  intro hkey hnode hfile
  rw [List.mem_filterMap]
  refine ⟨key.cfgName, ?_, hkey.decodeName⟩
  rw [List.mem_filter, World.listing, hat.resolves, (w.order.perm _).mem_iff,
    FileSystem.mem_children, World.isRegular]
  exact ⟨Option.isSome_iff_ne_none.mp hnode, Option.isSome_iff_ne_none.mpr hfile⟩

theorem recovers_of_free (hw : w.Calm) (hat : FileSystem.At w.fs r dir) (hkey : key.Decodable)
    (hfree : w.fs.node? (dir ++ [key.cfgName]) = none) :
    Recovers r order key segSize partSize ttl w := by
  obtain ⟨keys, hl, -⟩ := reloaded_loaded hw hat order key
  have hfile : w.fs.fileAt ((⟨r, ∅, order⟩ : ConfigManager).path key) = none := by
    rw [path_eq hkey.toEncodable, FileSystem.fileAt, hat.child key.plain_cfgName]
    dsimp only
    rw [hfree]
  refine Or.inl ⟨hl.missing hfile rfl, fun segSize partSize ttl => ?_⟩
  obtain ⟨cfg, i, w', hcreate, -⟩ := create_spec (hl.calm.serving 6) hkey.toEncodable
    (show FileSystem.At _ _ dir by rw [hl.fs, hl.basePath]; exact hat)
    (by rw [hl.fs]; exact hfree) segSize partSize ttl
  rw [hcreate]

theorem recovers_iff_load (hw : w.Calm) (hat : FileSystem.At w.fs r dir) (hkey : key.Decodable)
    (hnode : w.fs.node? (dir ++ [key.cfgName]) = some (.file i)) :
    Recovers r order key segSize partSize ttl w ↔
      RawInfo.load w (.mapped i) = ⟨segSize, partSize, ttl, -1⟩ := by
  obtain ⟨keys, hl, hmem⟩ := reloaded_loaded hw hat order key
  have hfile : w.fs.fileAt (r.child key.cfgName) = some i :=
    FileSystem.fileAt_eq (hat.child key.plain_cfgName) hnode
  obtain ⟨cfg, hcfg, hinfo⟩ := hl.found i
    (by rw [path_eq hkey.toEncodable]; exact hfile)
    (Or.inl (hmem hkey (by rw [hnode]; rfl) (by rw [hfile]; simp)))
    (fun cfg hcfg => by cases hcfg)
  rw [← hinfo]
  constructor
  · rintro (⟨hnone, -⟩ | ⟨cfg', hcfg', hinfo'⟩)
    · rw [hcfg] at hnone
      cases hnone
    · obtain rfl := Option.some.inj (hcfg.symm.trans hcfg')
      exact hinfo'
  · exact fun hinfo => Or.inr ⟨cfg, hcfg, hinfo⟩

/-- A creation that stops is invisible or complete only where it stops before the file is there or
after all its steps: a kill before the first of them or a refused `::open`, and no refused call at
all. -/
theorem recovers_iff (hat : FileSystem.At w.fs c.basePath dir) (hkey : key.Decodable)
    (hfree : w.fs.node? (dir ++ [key.cfgName]) = none) (segSize partSize ttl : Int64) (n : ℕ)
    (order : KeyOrder) :
    Recovers c.basePath order key segSize partSize ttl
        { c.createSteps key segSize partSize ttl n w with outcomes := [] } ↔
      n = 0 ∨ w.Refuses ∨ (7 ≤ n ∧ w.Serving 6) := by
  have huntouched : ∀ w' : World, w'.fs = w.fs → Recovers c.basePath order key segSize partSize ttl
      { w' with outcomes := [] } := by
    intro w' hfs
    have hcalm : World.Calm { w' with outcomes := [] } := rfl
    apply recovers_of_free hcalm (hfs ▸ hat) hkey
    dsimp only
    rw [hfs, hfree]
  have hexists : ¬ w.exists? (c.path key) = true := by
    rw [exists_path hkey.toEncodable hat, hfree]
    simp
  unfold createSteps
  by_cases hn : n = 0
  · rw [if_pos (Or.inr hn)]
    exact iff_of_true (huntouched w rfl) (Or.inl hn)
  rw [if_neg (not_or.mpr ⟨hexists, hn⟩)]
  by_cases hw : w.Refuses
  · rw [World.openCreate_refused hw]
    exact iff_of_true (huntouched w.rest rfl) (Or.inr (Or.inl hw))
  -- from here on the file is there
  rw [World.openCreate_serving (World.serving_one hw) (openCreate_free hkey.toEncodable hat hfree)]
  dsimp only
  set fs := w.fs.create (dir ++ [key.cfgName]) ⟨Image.empty, w.now⟩ with hfs
  have hne : dir ++ [key.cfgName] ≠ [] := by simp
  have hnode : fs.node? (dir ++ [key.cfgName]) = some (.file w.fs.nextIno) := by
    rw [hfs, FileSystem.node?_create _ hne, if_pos rfl]
  have hdirs : ∀ q, fs.IsDir q ↔ w.fs.IsDir q := by
    intro q
    rw [FileSystem.IsDir, hfs, FileSystem.node?_create _ hne]
    split_ifs with hq
    · subst hq
      simp [FileSystem.IsDir, hfree]
    · rfl
  set w₁ : World := { w.rest with fs := fs, nextFd := w.nextFd + 1 } with hw₁
  have hempty : (w₁.fs.data w.fs.nextIno).image.Zero := by
    rw [show w₁.fs.data w.fs.nextIno = ⟨Image.empty, w.now⟩ from Function.update_self ..]
    exact Image.Zero.empty
  have hfilled := fillSteps_spec w.nextFd ⟨segSize, partSize, ttl, -1⟩ (n - 1) hempty
  obtain ⟨hnodes, hdone, hzero⟩ := hfilled
  set w₂ := fillSteps ⟨segSize, partSize, ttl, -1⟩ (.live w.nextFd w.fs.nextIno) (n - 1) w₁
  have hcalm : World.Calm { w₂ with outcomes := [] } := rfl
  have hat₂ : FileSystem.At w₂.fs c.basePath dir := by
    apply hat.congr
    intro q
    rw [FileSystem.IsDir, hnodes]
    exact hdirs q
  have hserve : w.Serving 6 ↔ w₁.Serving 5 := by
    rw [World.serving_succ]
    exact and_iff_right hw
  rw [recovers_iff_load hcalm hat₂ hkey (hnodes ▸ hnode), hserve]
  by_cases hall : 6 ≤ n - 1 ∧ w₁.Serving 5
  · have hload : RawInfo.load { w₂ with outcomes := [] } (.mapped w.fs.nextIno) =
        ⟨segSize, partSize, ttl, -1⟩ := RawInfo.Held.load (hdone hall.1 hall.2)
    exact iff_of_true hload (Or.inr (Or.inr ⟨by omega, hall.2⟩))
  · apply iff_of_false
    · intro hload
      rw [RawInfo.load_mapped] at hload
      have hcommit := congrArg RawInfo.commitOffset hload
      dsimp only at hcommit
      rw [(hzero hall).load] at hcommit
      exact absurd hcommit (by decide)
    · rintro (h | h | ⟨hn₇, hserved⟩)
      · exact hn h
      · exact hw h
      · exact hall ⟨by omega, hserved⟩

theorem recovers_iff_whole :
    let c : ConfigManager := ⟨⟨[], []⟩, ∅, ⟨id, fun _ => .refl _⟩⟩
    Recovers ⟨[], []⟩ ⟨id, fun _ => .refl _⟩ ⟨"a".toList, 1⟩ 10 20 30
      { c.createSteps ⟨"a".toList, 1⟩ 10 20 30 7 (World.blank 0) with outcomes := [] } := by
  intro c
  have hat : FileSystem.At (World.blank 0).fs c.basePath [] := ⟨by simp [c], rfl, rfl, rfl⟩
  have hkey : TopicPartition.Decodable ⟨"a".toList, 1⟩ := ⟨⟨by decide, by decide⟩, by decide⟩
  have hserved : (World.blank 0).Serving 6 := by simp [World.Serving, World.blank]
  exact (recovers_iff hat hkey rfl 10 20 30 7 _).mpr (Or.inr (Or.inr ⟨le_rfl, hserved⟩))

/-- A creation killed between the mapping and the store. -/
theorem killed_creation :
    let c : ConfigManager := ⟨⟨[], []⟩, ∅, ⟨id, fun _ => .refl _⟩⟩
    let key : TopicPartition := ⟨"a".toList, 1⟩
    let w : World := { c.createSteps key 10 20 30 6 (World.blank 0) with outcomes := [] }
    (reloaded ⟨[], []⟩ ⟨id, fun _ => .refl _⟩ w).1.get key = .ok ⟨0, 0, 0, 0⟩ ∧
      ¬ Recovers ⟨[], []⟩ ⟨id, fun _ => .refl _⟩ key 10 20 30 w := by
  intro c key w
  have hget : (reloaded ⟨[], []⟩ ⟨id, fun _ => .refl _⟩ w).1.get key = .ok ⟨0, 0, 0, 0⟩ := by
    decide +kernel
  refine ⟨hget, ?_⟩
  rintro (⟨hnone, -⟩ | ⟨cfg, hcfg, hinfo⟩)
  · rw [ConfigManager.get, hnone] at hget
    cases hget
  · rw [ConfigManager.get, hcfg] at hget
    have hvalues : cfg.info = ⟨0, 0, 0, 0⟩ := Except.ok.inj hget
    rw [hvalues] at hinfo
    exact absurd hinfo (by decide)

end ConfigManager

end MyKafka
