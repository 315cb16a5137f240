import MyKafka.BrokerRun
import MyKafka.ConfigKill
import MyKafka.CreationAtomicity

/-!
# Starting on any directory

A broker may find any files in its directory, under any names, and its calls may fail. What it loads
is what the names and the files say, in whichever order they are listed.
-/

namespace MyKafka

open Posix

variable {c c' : ConfigManager} {w w' : World} {b b' : Broker} {key : TopicPartition}
  {keys : List TopicPartition}

namespace ConfigManager

/-- A regular file of the directory has a name that stands for the key. -/
def Lists (c : ConfigManager) (w : World) (key : TopicPartition) : Prop :=
  ∃ n ∈ w.listing c.basePath, w.isRegular (c.basePath.child n) = true ∧ decodeName n = some key

/-- The file of the key is not empty. A load from an empty one kills the process. -/
def Full (c : ConfigManager) (w : World) (key : TopicPartition) : Prop :=
  ∀ i, w.fs.fileAt (c.path key) = some i → (w.fs.data i).image.size ≠ 0

/-- No file that a load reads is empty. -/
def Loadable (c : ConfigManager) (w : World) : Prop := ∀ key, c.Lists w key → c.Full w key

/-- What the file of the key says, if it is there and not empty. -/
def stored (c : ConfigManager) (w : World) (key : TopicPartition) : Option RawInfo :=
  (w.fs.fileAt (c.path key)).bind fun i =>
    if (w.fs.data i).image.size = 0 then none else some (RawInfo.load w (.mapped i))

theorem stored_eq_some {info : RawInfo} : c.stored w key = some info ↔
    ∃ i, w.fs.fileAt (c.path key) = some i ∧ (w.fs.data i).image.size ≠ 0 ∧
      RawInfo.load w (.mapped i) = info := by
  rw [stored, Option.bind_eq_some_iff]
  refine exists_congr fun i => and_congr_right fun _ => ?_
  split_ifs with hsize
  · constructor
    · intro h
      cases h
    · exact fun h => absurd hsize h.1
  · constructor
    · exact fun h => ⟨hsize, Option.some.inj h⟩
    · exact fun h => congrArg some h.2

theorem stored_congr (hbase : c'.basePath = c.basePath) (hfs : w'.fs = w.fs)
    (key : TopicPartition) : c'.stored w' key = c.stored w key := by
  rw [stored, stored, path, path, hbase, hfs]
  simp only [RawInfo.load, World.load, hfs]

theorem Full.congr (h : c.Full w key) (hbase : c'.basePath = c.basePath) (hfs : w'.fs = w.fs) :
    c'.Full w' key := by
  intro i hi
  rw [hfs]
  refine h i ?_
  rwa [path, hbase, hfs, ← path] at hi

/-! ## The config files -/

theorem fs_abandon (c : ConfigManager) (key : TopicPartition) (fd : Desc) (msg closing : String)
    (w : World) : (c.abandon key fd msg closing w).2.1 = c ∧
      (c.abandon key fd msg closing w).2.2.fs = w.fs := by
  have hfs := w.fs_close fd
  rw [abandon]
  generalize w.close fd = x at hfs ⊢
  obtain ⟨served, w₁⟩ := x
  cases served <;> exact ⟨rfl, hfs⟩

theorem openCreate_any {r : RawPath} {i : ℕ} (hfile : w.fs.fileAt r = some i) :
    (w.openCreate r).2.fs = w.fs ∧
      ((w.openCreate r).1 = .closed ∨ ∃ num, (w.openCreate r).1 = .live num i) := by
  have hfs := w.fs_served
  unfold World.openCreate
  generalize w.served = x at hfs ⊢
  obtain ⟨served, w₁⟩ := x
  dsimp only at hfs
  cases served with
  | false => exact ⟨hfs, Or.inl rfl⟩
  | true =>
      dsimp only
      rw [hfs, FileSystem.openCreate_fileAt hfile w₁.now]
      exact ⟨rfl, Or.inr ⟨_, rfl⟩⟩

theorem mmap_any (w : World) (num i : ℕ) {size : ℤ} (hsize : 0 < size) :
    (w.mmap (.live num i) size).2.fs = w.fs ∧
      ((w.mmap (.live num i) size).1 = .failed ∨ (w.mmap (.live num i) size).1 = .mapped i) := by
  have hfs := w.fs_served
  unfold World.mmap
  generalize w.served = x at hfs ⊢
  obtain ⟨served, w₁⟩ := x
  cases served with
  | false => exact ⟨hfs, Or.inl rfl⟩
  | true =>
      dsimp only
      rw [if_pos hsize]
      exact ⟨hfs, Or.inr rfl⟩

/-- Whatever calls fail, `open` leaves the files as they are, and caches what the file says. -/
theorem open_any (hfull : c.Full w key) :
    (c.open key w).2.2.fs = w.fs ∧ ((c.open key w).2.1 = c ∨
      ∃ cfg, (c.open key w).2.1 = { c with configs := insertNew c.configs key cfg } ∧
        c.stored w key = some cfg.info) := by
  cases hfile : w.fs.fileAt (c.path key) with
  | none =>
      rw [open_nothing c hfile]
      exact ⟨rfl, Or.inl rfl⟩
  | some i =>
      obtain ⟨hfs, hopened⟩ := openCreate_any hfile
      rw [ConfigManager.open, World.isRegular, hfile, if_neg (by simp)]
      generalize w.openCreate (c.path key) = x at hfs hopened ⊢
      obtain ⟨fd, w₁⟩ := x
      rcases hopened with rfl | ⟨num, rfl⟩
      · exact ⟨hfs, Or.inl rfl⟩
      · obtain ⟨hfs', hmapped⟩ := mmap_any w₁ num i (show (0 : ℤ) < RawInfo.width by decide)
        dsimp only
        generalize w₁.mmap (.live num i) RawInfo.width = x at hfs' hmapped ⊢
        obtain ⟨addr, w₂⟩ := x
        dsimp only at hfs hfs' hmapped
        rcases hmapped with rfl | rfl
        · obtain ⟨hsame, hfs₂⟩ := c.fs_abandon key (.live num i) "Error mapping the file "
            "Can't close during failed mmap " w₂
          exact ⟨hfs₂.trans (hfs'.trans hfs), Or.inl hsame⟩
        · refine ⟨hfs'.trans hfs, Or.inr ⟨_, rfl, ?_⟩⟩
          refine stored_eq_some.mpr ⟨i, hfile, hfull i hfile, ?_⟩
          simp only [RawInfo.load, World.load, hfs'.trans hfs]

/-- What a load of these names makes of the store. -/
structure Gathers (keys : List TopicPartition) (c : ConfigManager) (w : World) (c' : ConfigManager)
    (w' : World) : Prop where
  basePath : c'.basePath = c.basePath
  fs : w'.fs = w.fs
  sound : ∀ key cfg, c'.configs.lookup key = some cfg →
    c.configs.lookup key = some cfg ∨ key ∈ keys ∧ c.stored w key = some cfg.info

theorem loadFiles_any (hfull : ∀ key ∈ keys, c.Full w key) :
    Gathers keys c w (loadFiles keys c w).1 (loadFiles keys c w).2 := by
  induction keys generalizing c w with
  | nil => exact ⟨rfl, rfl, fun key cfg hcfg => Or.inl hcfg⟩
  | cons k keys ih =>
      obtain ⟨hfs, hopen⟩ := open_any (hfull k List.mem_cons_self)
      rw [loadFiles]
      generalize c.open k w = x at hfs hopen ⊢
      obtain ⟨res, c₁, w₁⟩ := x
      dsimp only at hfs hopen
      have hbase : c₁.basePath = c.basePath := by
        rcases hopen with rfl | ⟨cfg, rfl, -⟩ <;> rfl
      obtain ⟨hbase', hfs', hsound⟩ := ih fun key hkey =>
        (hfull key (List.mem_cons_of_mem k hkey)).congr hbase hfs
      refine ⟨hbase'.trans hbase, hfs'.trans hfs, fun key cfg hcfg => ?_⟩
      rcases hsound key cfg hcfg with hold | ⟨hmem, hstored⟩
      · rcases hopen with rfl | ⟨cfg₁, rfl, hstored⟩
        · exact Or.inl hold
        · by_cases hk : key = k
          · subst hk
            by_cases hin : key ∈ c.configs
            · rw [insertNew, if_pos hin] at hold
              exact Or.inl hold
            · rw [lookup_insertNew hin] at hold
              obtain rfl := Option.some.inj hold
              exact Or.inr ⟨List.mem_cons_self, hstored⟩
          · rw [lookup_insertNew_ne hk] at hold
            exact Or.inl hold
      · rw [stored_congr hbase hfs] at hstored
        exact Or.inr ⟨List.mem_cons_of_mem k hmem, hstored⟩

theorem mem_decoded (c : ConfigManager) (w : World) (key : TopicPartition) :
    key ∈ ((w.listing c.basePath).filter
      (fun n => w.isRegular (c.basePath.child n))).filterMap decodeName ↔ c.Lists w key := by
  rw [List.mem_filterMap]
  constructor
  · rintro ⟨n, hn, hdecode⟩
    obtain ⟨hmem, hregular⟩ := List.mem_filter.mp hn
    exact ⟨n, hmem, hregular, hdecode⟩
  · rintro ⟨n, hmem, hregular, hdecode⟩
    exact ⟨n, List.mem_filter.mpr ⟨hmem, hregular⟩, hdecode⟩

theorem get_eq_ok {info : RawInfo} :
    c.get key = .ok info ↔ ∃ cfg, c.configs.lookup key = some cfg ∧ cfg.info = info := by
  rw [get]
  cases c.configs.lookup key with
  | none => simp [notFound, Utils.err]
  | some cfg => simp

/-- An empty store loads nothing but what the files say. -/
theorem load_sound (hload : c.Loadable w) (hempty : c.configs = ∅) {info : RawInfo}
    (h : (c.load w).1.get key = .ok info) : c.Lists w key ∧ c.stored w key = some info := by
  obtain ⟨cfg, hcfg, rfl⟩ := get_eq_ok.mp h
  have hfull : ∀ key ∈ ((w.listing c.basePath).filter
      (fun n => w.isRegular (c.basePath.child n))).filterMap decodeName, c.Full w key :=
    fun key hkey => hload key ((mem_decoded c w key).mp hkey)
  rcases (loadFiles_any hfull).sound key cfg hcfg with hold | ⟨hmem, hstored⟩
  · rw [hempty] at hold
    cases hold
  · exact ⟨(mem_decoded c w key).mp hmem, hstored⟩

theorem load_complete (hw : w.Calm) (hempty : c.configs = ∅) {info : RawInfo}
    (hlists : c.Lists w key) (hstored : c.stored w key = some info) :
    (c.load w).1.get key = .ok info := by
  obtain ⟨i, hfile, -, hinfo⟩ := stored_eq_some.mp hstored
  have hloaded : Loaded key (((w.listing c.basePath).filter
      (fun n => w.isRegular (c.basePath.child n))).filterMap decodeName) c w (c.load w).1
      (c.load w).2 := loadFiles_loaded key hw
  obtain ⟨cfg, hcfg, hcfginfo⟩ := hloaded.found i hfile (Or.inl ((mem_decoded c w key).mpr hlists))
    (fun cfg hcfg => by
      rw [hempty] at hcfg
      cases hcfg)
  exact get_eq_ok.mpr ⟨cfg, hcfg, hcfginfo.trans hinfo⟩

theorem lists_of_stored {dir : Path} (hat : FileSystem.At w.fs c.basePath dir)
    (hkey : key.Decodable) {info : RawInfo} (hstored : c.stored w key = some info) :
    c.Lists w key := by
  obtain ⟨i, hfile, -⟩ := stored_eq_some.mp hstored
  rw [path_eq hkey.toEncodable] at hfile
  have hnode : w.fs.node? (dir ++ [key.cfgName]) ≠ none := by
    intro hnone
    rw [FileSystem.fileAt, hat.child key.plain_cfgName] at hfile
    dsimp only at hfile
    rw [hnone] at hfile
    cases hfile
  refine ⟨key.cfgName, ?_, ?_, hkey.decodeName⟩
  · rw [World.listing, hat.resolves, (w.order.perm _).mem_iff, FileSystem.mem_children]
    exact hnode
  · rw [World.isRegular, hfile]
    rfl

end ConfigManager

/-! ## The partitions -/

namespace Partition

theorem settings_cleanSegments (ss : List Segment) (p : Partition) (w : World) :
    (cleanSegments ss p w).2.1.settings = p.settings := by
  induction ss generalizing p w with
  | nil => rfl
  | cons s ss ih =>
      rw [cleanSegments]
      split_ifs
      · rcases s.deleteSegment w with ⟨res, t, w₁⟩
        cases res with
        | error e =>
            have hrest := ih { p with older := p.older ++ [t] } w₁
            dsimp only
            generalize cleanSegments ss { p with older := p.older ++ [t] } w₁ = x at hrest ⊢
            obtain ⟨res, p', w'⟩ := x
            cases res <;> exact hrest
        | ok u => exact ih { p with physicalSize := p.physicalSize - s.size } (t.destroy w₁)
      · exact ih { p with older := p.older ++ [s] } w

theorem settings_openSegments (bases : List ℤ) (p : Partition) (w : World) :
    (openSegments bases p w).2.1.settings = p.settings := by
  induction bases generalizing p w with
  | nil => rfl
  | cons base bases ih =>
      rw [openSegments]
      rcases (Segment.new p.path base p.maxSegmentSize).open w with ⟨res, s, w₁⟩
      cases res with
      | error e => rfl
      | ok u => exact ih { p with physicalSize := p.physicalSize + s.size, older := p.older ++ [s] } w₁

theorem settings_openFiles (p : Partition) (w : World) :
    (p.openFiles w).2.1.settings = p.settings := by
  have hsegments := settings_openSegments (fillFilesList w p.path) p w
  rw [openFiles]
  generalize openSegments (fillFilesList w p.path) p w = x at hsegments ⊢
  obtain ⟨res, p₁, w₁⟩ := x
  cases res with
  | error e => exact hsegments
  | ok u =>
      dsimp only
      cases p₁.older.getLast? with
      | some s =>
          exact (settings_cleanSegments p₁.older.dropLast
            { p₁ with older := [], activeSegment := some s } w₁).trans hsegments
      | none =>
          rcases (Segment.new p₁.path 0 p₁.maxSegmentSize).open w₁ with ⟨res, s, w₂⟩
          cases res with
          | error e => exact hsegments
          | ok u =>
              exact (settings_cleanSegments p₁.older
                { p₁ with older := [], activeSegment := some s } w₂).trans hsegments

theorem settings_open (p : Partition) (w : World) : (p.open w).2.1.settings = p.settings := by
  rw [Partition.open]
  rcases w.createDirectories p.path with ⟨made, w₁⟩
  cases made with
  | false => rfl
  | true => exact p.settings_openFiles w₁

end Partition

namespace Broker

/-- The partition works where its key says, with the settings of its config file. -/
def Configured (b : Broker) (key : TopicPartition) (p : Partition) : Prop :=
  ∃ info, b.configManager.get key = .ok info ∧ p.settings = (b.partitionPath key,
    info.maxSegmentSize.toInt, info.maxPartitionSize.toInt, info.segmentTtl.toInt)

theorem configManager_loadPartitions (keys : List TopicPartition) (b : Broker) (w : World) :
    (loadPartitions keys b w).2.1.configManager = b.configManager := by
  induction keys generalizing b w with
  | nil => rfl
  | cons k keys ih =>
      rw [loadPartitions]
      cases b.configManager.configs.lookup k with
      | none => exact ih b w
      | some cfg =>
          dsimp only
          rw [createAndAddNewPartition]
          rcases (Partition.new (b.partitionPath k) cfg.info.maxSegmentSize.toInt
            cfg.info.maxPartitionSize.toInt cfg.info.segmentTtl.toInt).open w with ⟨res, p, w₁⟩
          cases res with
          | error e => rfl
          | ok u => exact ih { b with topics := b.topics.insert k p } w₁

theorem loadPartitions_ok (hkeys : ∀ key p, b.topics.lookup key = some p → b.Configured key p)
    (h : loadPartitions keys b w = (.ok (), b', w')) :
    (∀ key, key ∈ b'.topics ↔ key ∈ b.topics ∨ key ∈ keys ∧ key ∈ b.configManager.configs) ∧
      ∀ key p, b'.topics.lookup key = some p → b'.Configured key p := by
  induction keys generalizing b w with
  | nil =>
      obtain ⟨-, hsame⟩ := Prod.mk.inj h
      obtain ⟨rfl, rfl⟩ := Prod.mk.inj hsame
      exact ⟨by simp, hkeys⟩
  | cons k keys ih =>
      rw [loadPartitions] at h
      cases hcfg : b.configManager.configs.lookup k with
      | none =>
          rw [hcfg] at h
          obtain ⟨hmem, hconf⟩ := ih hkeys h
          refine ⟨fun key => ?_, hconf⟩
          rw [hmem, List.mem_cons]
          have hk : k ∉ b.configManager.configs := AList.lookup_eq_none.mp hcfg
          constructor
          · exact fun hin => hin.imp_right (And.imp_left Or.inr)
          · rintro (hin | ⟨rfl | hin, hin'⟩)
            · exact Or.inl hin
            · exact absurd hin' hk
            · exact Or.inr ⟨hin, hin'⟩
      | some cfg =>
          rw [hcfg] at h
          dsimp only at h
          rw [createAndAddNewPartition] at h
          have hsettings := (Partition.new (b.partitionPath k) cfg.info.maxSegmentSize.toInt
            cfg.info.maxPartitionSize.toInt cfg.info.segmentTtl.toInt).settings_open w
          generalize (Partition.new (b.partitionPath k) cfg.info.maxSegmentSize.toInt
            cfg.info.maxPartitionSize.toInt cfg.info.segmentTtl.toInt).open w = x at h hsettings
          obtain ⟨res, p, w₁⟩ := x
          cases res with
          | error e => cases h
          | ok u =>
              obtain ⟨hmem, hconf⟩ := ih (b := { b with topics := b.topics.insert k p })
                (by
                  intro key q hq
                  by_cases hk : key = k
                  · subst hk
                    rw [AList.lookup_insert, Option.some.injEq] at hq
                    subst hq
                    exact ⟨cfg.info, ConfigManager.get_eq_ok.mpr ⟨cfg, hcfg, rfl⟩, hsettings⟩
                  · rw [AList.lookup_insert_ne hk] at hq
                    exact hkeys key q hq) h
              refine ⟨fun key => ?_, hconf⟩
              rw [hmem, List.mem_cons, AList.mem_insert]
              have hk : k ∈ b.configManager.configs := mem_of_lookup hcfg
              constructor
              · rintro ((rfl | hin) | ⟨hin, hin'⟩)
                · exact Or.inr ⟨Or.inl rfl, hk⟩
                · exact Or.inl hin
                · exact Or.inr ⟨Or.inr hin, hin'⟩
              · rintro (hin | ⟨rfl | hin, hin'⟩)
                · exact Or.inl (Or.inr hin)
                · exact Or.inl (Or.inl rfl)
                · exact Or.inr ⟨hin, hin'⟩

end Broker

/-- Whatever is in the directory but empty config files, and whatever calls fail, a broker that starts
on it has no settings but those that a file gives under the name of its key; where no call fails it
has all of them, and where the start succeeds it has exactly one partition for each, in the directory
of the key. -/
theorem starts_on_any_directory (r : RawPath) (order : KeyOrder) (w : World)
    (hload : (Broker.new r order w).1.configManager.Loadable (Broker.new r order w).2) :
    let b := (Broker.new r order w).1
    let w₁ := (Broker.new r order w).2
    let b' := (b.load w₁).2.1
    (∀ key info, b'.configManager.get key = .ok info →
      b.configManager.Lists w₁ key ∧ b.configManager.stored w₁ key = some info) ∧
    (w₁.Calm → ∀ key info, b.configManager.Lists w₁ key →
      b.configManager.stored w₁ key = some info → b'.configManager.get key = .ok info) ∧
    (∀ dir key info, FileSystem.At w₁.fs b.configManager.basePath dir → key.Decodable →
      b.configManager.stored w₁ key = some info → b.configManager.Lists w₁ key) ∧
    ((b.load w₁).1 = .ok () → ∀ key,
      (key ∈ b'.topics ↔ ∃ info, b'.configManager.get key = .ok info) ∧
      ∀ p, b'.topics.lookup key = some p → b'.Configured key p) := by
  intro b w₁ b'
  have hempty : b.configManager.configs = ∅ := by
    simp only [b, Broker.new, ConfigManager.new]
  have htopics : b.topics = ∅ := by
    simp only [b, Broker.new, ConfigManager.new]
  have hconfig : b'.configManager = (b.configManager.load w₁).1 := by
    simp only [b', Broker.load]
    exact Broker.configManager_loadPartitions _ _ _
  rw [hconfig]
  refine ⟨fun key info => ConfigManager.load_sound hload hempty,
    fun hw key info => ConfigManager.load_complete hw hempty,
    fun dir key info hat hkey => ConfigManager.lists_of_stored hat hkey, fun hok => ?_⟩
  rw [Broker.load] at hok
  have hload : Broker.loadPartitions (b.configManager.load w₁).1.keys
      { b with configManager := (b.configManager.load w₁).1 } (b.configManager.load w₁).2 =
        (.ok (), b', (b.load w₁).2.2) := by
    rw [← hok]
    rfl
  obtain ⟨hmem, hconf⟩ := Broker.loadPartitions_ok (fun key p hp => by
    rw [show ({ b with configManager := (b.configManager.load w₁).1 } : Broker).topics = ∅ from
      htopics] at hp
    cases hp) hload
  refine fun key => ⟨?_, fun p hp => hconf key p hp⟩
  rw [hmem, show ({ b with configManager := (b.configManager.load w₁).1 } : Broker).topics = ∅ from
    htopics, ConfigManager.keys, (ConfigManager.order _).perm _ |>.mem_iff, ← AList.mem_keys]
  constructor
  · rintro (hin | ⟨-, hin⟩)
    · exact absurd hin (AList.notMem_empty key)
    · obtain ⟨cfg, hcfg⟩ := Option.isSome_iff_exists.mp (AList.lookup_isSome.mpr hin)
      exact ⟨cfg.info, ConfigManager.get_eq_ok.mpr ⟨cfg, hcfg, rfl⟩⟩
  · rintro ⟨info, hinfo⟩
    obtain ⟨cfg, hcfg, -⟩ := ConfigManager.get_eq_ok.mp hinfo
    exact Or.inr ⟨mem_of_lookup hcfg, mem_of_lookup hcfg⟩

/-- Beside the file of the key `(a, 1)` there are a second file with a name that stands for it, and
one without an extension. -/
theorem starts_among_stray_files :
    let r : RawPath := ⟨[], []⟩
    let order : KeyOrder := ⟨id, fun _ => .refl _⟩
    let w := ((Server.boot r order (World.blank 0)).step (.createPartition ⟨['a'], 1, 100, 0, 0⟩)).2.world
    let w₁ := (w.openCreate ⟨[], [Broker.configName, "a-01.cfg".toList]⟩).2
    let w₂ := (w₁.openCreate ⟨[], [Broker.configName, "notes".toList]⟩).2
    let b := (Broker.new r order w₂).1
    let w₃ := (Broker.new r order w₂).2
    (b.load w₃).2.1.configManager.get ⟨['a'], 1⟩ = .ok ⟨100, 0, 0, -1⟩ ∧
      ⟨['a'], 1⟩ ∈ (b.load w₃).2.1.topics := by
  intro r order w w₁ w₂ b w₃
  have hcalm : w₃.outcomes = [] := by decide +kernel
  have hstored : b.configManager.stored w₃ ⟨['a'], 1⟩ = some ⟨100, 0, 0, -1⟩ := by decide +kernel
  have hok : (b.load w₃).1.isOk = true := by decide +kernel
  have hlists : b.configManager.Lists w₃ ⟨['a'], 1⟩ := by
    refine ⟨"a-01.cfg".toList, ?_, ?_, ?_⟩ <;> decide +kernel
  have hnames : ∀ n ∈ w₃.listing b.configManager.basePath, ConfigManager.decodeName n = none ∨
      ConfigManager.decodeName n = some ⟨['a'], 1⟩ := by decide +kernel
  have hsize : ∀ i ∈ w₃.fs.fileAt (b.configManager.path ⟨['a'], 1⟩),
      (w₃.fs.data i).image.size ≠ 0 := by decide +kernel
  have hload : b.configManager.Loadable w₃ := by
    rintro key ⟨n, hn, -, hdecode⟩
    rcases hnames n hn with hnone | hsome
    · rw [hnone] at hdecode
      cases hdecode
    · rw [hsome] at hdecode
      obtain rfl := Option.some.inj hdecode
      exact hsize
  clear_value w₂
  obtain ⟨-, hall, -, hpartitions⟩ := starts_on_any_directory r order w₂ hload
  have hget := hall hcalm _ _ hlists hstored
  refine ⟨hget, ((hpartitions ?_ _).1).mpr ⟨_, hget⟩⟩
  cases h : (b.load w₃).1 with
  | ok u => rfl
  | error e => rw [h] at hok; cases hok

end MyKafka
