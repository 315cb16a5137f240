import MyKafka.ConfigFrame
import MyKafka.KeyName

/-!
# The config store, call by call

Creating a config file, opening one that is there, writing the commit offset through its mapping and
removing it, when no call is refused.
-/

namespace MyKafka

open Posix LittleEndian

namespace RawInfo

/-- A file holds the four fields. -/
structure Held (info : RawInfo) (im : Image) : Prop where
  size : im.size = 32
  maxSegmentSize : im.load 0 8 = info.maxSegmentSize.toInt
  maxPartitionSize : im.load 8 8 = info.maxPartitionSize.toInt
  segmentTtl : im.load 16 8 = info.segmentTtl.toInt
  commitOffset : im.load 24 8 = info.commitOffset.toInt

theorem fromLE_toLE_toInt (v : Int64) : fromLE (toLE 8 v.toInt) = v.toInt := by
  have h0 := v.le_toInt
  have h1 := v.toInt_lt
  generalize v.toInt = z at h0 h1 ⊢
  exact fromLE_toLE_of_range (by omega) (by omega)

/-- A field of eight bytes that is stored among others. -/
theorem load_field (im : Image) (pre bs post : List UInt8) {addr : ℕ} (ha : pre.length = addr)
    (hb : bs.length = 8) (h : addr + 8 + post.length ≤ im.size) :
    (im.store 0 (pre ++ (bs ++ post))).load addr 8 = fromLE bs := by
  have hat := Image.load_store_at im 0 pre bs post (by simp only [List.length_append]; omega)
  rwa [hb, Nat.zero_add, ha] at hat

theorem load_fields {im : Image} {a b c d : List UInt8} (h : im.size = 32) (ha : a.length = 8)
    (hb : b.length = 8) (hc : c.length = 8) (hd : d.length = 8) :
    (im.store 0 (a ++ b ++ c ++ d)).load 0 8 = fromLE a ∧
      (im.store 0 (a ++ b ++ c ++ d)).load 8 8 = fromLE b ∧
      (im.store 0 (a ++ b ++ c ++ d)).load 16 8 = fromLE c ∧
      (im.store 0 (a ++ b ++ c ++ d)).load 24 8 = fromLE d := by
  refine ⟨?_, ?_, ?_, ?_⟩
  · have hf := load_field im [] a (b ++ (c ++ d))
      (show _ = 0 from rfl) ha (by simp only [List.length_append]; omega)
    simpa only [List.nil_append, List.append_assoc] using hf
  · have hf := load_field im a b (c ++ d) ha hb
      (by simp only [List.length_append]; omega)
    simpa only [List.append_assoc] using hf
  · have hf := load_field im (a ++ b) c d
      (show _ = 16 by simp only [List.length_append]; omega) hc (by omega)
    simpa only [List.append_assoc] using hf
  · have hf := load_field im (a ++ b ++ c) d []
      (show _ = 24 by simp only [List.length_append]; omega) hd (by rw [List.length_nil]; omega)
    simpa only [List.append_assoc, List.append_nil] using hf

theorem Held.store (info : RawInfo) {im : Image} (h : im.size = 32) :
    info.Held (im.store 0 info.bytes) := by
  obtain ⟨h0, h1, h2, h3⟩ := load_fields h (length_toLE 8 info.maxSegmentSize.toInt)
    (length_toLE 8 info.maxPartitionSize.toInt) (length_toLE 8 info.segmentTtl.toInt)
    (length_toLE 8 info.commitOffset.toInt)
  exact ⟨h, h0.trans (fromLE_toLE_toInt _), h1.trans (fromLE_toLE_toInt _),
    h2.trans (fromLE_toLE_toInt _), h3.trans (fromLE_toLE_toInt _)⟩

theorem Held.commit {info : RawInfo} {im : Image} (h : info.Held im) (offset : Int64) :
    { info with commitOffset := offset }.Held (im.store 24 (toLE 8 offset.toInt)) := by
  have hlen := length_toLE 8 offset.toInt
  have hsize := h.size
  refine ⟨hsize, ?_, ?_, ?_, ?_⟩
  · rw [Image.load_store_disjoint (by omega), h.maxSegmentSize]
  · rw [Image.load_store_disjoint (by omega), h.maxPartitionSize]
  · rw [Image.load_store_disjoint (by omega), h.segmentTtl]
  · have hs := Image.load_store_same im 24 (toLE 8 offset.toInt) (by omega)
    rwa [hlen, fromLE_toLE_toInt] at hs

/-- The fields of a mapped file as they lie in it. -/
theorem load_mapped (w : World) (i : ℕ) : RawInfo.load w (.mapped i) =
    ⟨.ofInt ((w.fs.data i).image.load 0 8), .ofInt ((w.fs.data i).image.load 8 8),
      .ofInt ((w.fs.data i).image.load 16 8), .ofInt ((w.fs.data i).image.load 24 8)⟩ := by
  have h0 := w.load_first_page i (show 0 + 8 ≤ World.pageSize by decide)
  have h1 := w.load_first_page i (show 8 + 8 ≤ World.pageSize by decide)
  have h2 := w.load_first_page i (show 16 + 8 ≤ World.pageSize by decide)
  have h3 := w.load_first_page i (show 24 + 8 ≤ World.pageSize by decide)
  rw [Nat.cast_zero] at h0
  rw [Nat.cast_ofNat] at h1 h2 h3
  rw [RawInfo.load, h0, h1, h2, h3]

theorem Held.load {info : RawInfo} {w : World} {i : ℕ} (h : info.Held (w.fs.data i).image) :
    RawInfo.load w (.mapped i) = info := by
  obtain ⟨-, h0, h1, h2, h3⟩ := h
  rw [load_mapped, h0, h1, h2, h3, Int64.ofInt_toInt, Int64.ofInt_toInt, Int64.ofInt_toInt,
    Int64.ofInt_toInt]

end RawInfo

/-- The entry is open on the config file of inode `i`. -/
structure CfgInfo.OpenOn (cfg : CfgInfo) (i : ℕ) : Prop where
  fd : ∃ num, cfg.fd = .live num i
  addr : cfg.addr = .mapped i

namespace ConfigManager

variable {w : World} {c : ConfigManager} {key : TopicPartition} {dir : Path} {i : ℕ}

theorem path_eq (h : key.Encodable) (c : ConfigManager) :
    c.path key = c.basePath.child key.cfgName := by
  rw [path, h.components_cfgName]
  rfl

theorem inside_path (hk : key.Encodable) {fs : FileSystem} (hat : FileSystem.At fs c.basePath dir)
    {S : Path → Prop} (hS : S (dir ++ [key.cfgName])) : Inside S (c.path key) := by
  rw [path_eq hk]
  exact hat.inside key.plain_cfgName hS

theorem exists_path (hk : key.Encodable) (hat : FileSystem.At w.fs c.basePath dir) :
    w.exists? (c.path key) = (w.fs.node? (dir ++ [key.cfgName])).isSome := by
  rw [path_eq hk, World.exists?, hat.child key.plain_cfgName]

theorem openCreate_free (hk : key.Encodable) (hat : FileSystem.At w.fs c.basePath dir)
    (hfree : w.fs.node? (dir ++ [key.cfgName]) = none) :
    w.fs.openCreate (c.path key) w.now =
      some (w.fs.nextIno, w.fs.create (dir ++ [key.cfgName]) ⟨Image.empty, w.now⟩) := by
  rw [path_eq hk]
  refine FileSystem.openCreate_none (hat.child key.plain_cfgName) hfree ?_ w.now
  rw [List.dropLast_concat]
  exact hat.isDir

theorem create_spec (hw : w.Serving 6) (hk : key.Encodable)
    (hat : FileSystem.At w.fs c.basePath dir)
    (hfree : w.fs.node? (dir ++ [key.cfgName]) = none) (segSize partSize ttl : Int64) :
    ∃ cfg i w', c.create key segSize partSize ttl w =
        (.ok (), { c with configs := insertNew c.configs key cfg }, w') ∧ cfg.OpenOn i ∧
      cfg.info = ⟨segSize, partSize, ttl, -1⟩ ∧
      w'.fs.node? (dir ++ [key.cfgName]) = some (.file i) ∧
      cfg.info.Held (w'.fs.data i).image := by
  have hexists : ¬ w.exists? (c.path key) = true := by
    rw [exists_path hk hat, hfree]
    simp
  have hopen := openCreate_free hk hat hfree
  have hne : dir ++ [key.cfgName] ≠ [] := by simp
  set fs := w.fs.create (dir ++ [key.cfgName]) ⟨Image.empty, w.now⟩ with hfs
  set j := w.fs.nextIno with hj
  have hnode : fs.node? (dir ++ [key.cfgName]) = some (.file j) := by
    rw [hfs, FileSystem.node?_create _ hne, if_pos rfl]
  obtain ⟨w₁, hw₁, hserve, hopen₁⟩ : ∃ w₁ : World, w₁.fs = fs ∧ w₁.Serving 5 ∧
      w.openCreate (c.path key) = (.live w.nextFd j, w₁) :=
    ⟨{ w.rest with fs := fs, nextFd := w.nextFd + 1 }, rfl, hw.rest,
      World.openCreate_serving hw hopen⟩
  set im := (w₁.fs.data j).image.truncate 32 with him
  have htrunc : w₁.rest.ftruncate (.live w.nextFd j) RawInfo.width =
      (true, w₁.rest.rest.setImage j im) :=
    World.ftruncate_serving hserve.rest w.nextFd j (by simp)
  have hserve₃ : (w₁.rest.rest.setImage j im).Serving 3 := hserve.rest.rest
  have hdata : ((w₁.rest.rest.setImage j im).rest.fs.data j).image = im := by
    show (((w₁.fs.setData j ⟨im, _⟩).data j).image) = im
    rw [FileSystem.data_setData_same]
  obtain ⟨k, w₄, hwrite, hserve₄, hsize, hnode₄⟩ : ∃ (k : ℕ) (w₄ : World),
      (w₁.rest.rest.setImage j im).rest.pwrite (.live w.nextFd j) (RawInfo.width - 1) [0] =
        ((k : ℤ), w₄) ∧ w₄.Serving 1 ∧ (w₄.fs.data j).image.size = 32 ∧
      w₄.fs.node? (dir ++ [key.cfgName]) = some (.file j) := by
    obtain ⟨bs, hbs, hwrite⟩ := World.pwrite_serving hserve₃.rest w.nextFd j (RawInfo.width - 1) [0]
    refine ⟨_, _, hwrite, hserve₃.rest.rest, ?_, ?_⟩
    · have hlen := hbs.length_le
      rw [World.fs_setImage, FileSystem.data_setData_same, hdata, Image.size_pwrite]
      · rfl
      · rw [him, Image.size_truncate, RawInfo.width]
        simp only [List.length_singleton] at hlen
        omega
    · show w₁.fs.node? _ = _
      rw [hw₁, hnode]
  refine ⟨⟨.live w.nextFd j, .mapped j, ⟨segSize, partSize, ttl, -1⟩⟩, j,
    w₄.rest.store (.mapped j) 0 (RawInfo.bytes ⟨segSize, partSize, ttl, -1⟩), ?_,
    ⟨⟨_, rfl⟩, rfl⟩, rfl, hnode₄, ?_⟩
  · unfold create
    rw [if_neg hexists, hopen₁]
    dsimp only
    rw [World.fstat_serving hserve]
    dsimp only
    rw [htrunc]
    dsimp only
    rw [World.lseek_serving hserve₃, decide_eq_true (by simp [RawInfo.width])]
    dsimp only
    rw [hwrite]
    dsimp only
    rw [if_neg (by omega), World.mmap_serving hserve₄ w.nextFd j (by simp [RawInfo.width])]
  · rw [World.store_mapped]
    dsimp only
    rw [FileSystem.data_setData_same]
    exact RawInfo.Held.store _ hsize

theorem open_spec (hw : w.Calm) (hk : key.Encodable) (hat : FileSystem.At w.fs c.basePath dir)
    (hnode : w.fs.node? (dir ++ [key.cfgName]) = some (.file i)) {info : RawInfo}
    (hinfo : info.Held (w.fs.data i).image) :
    ∃ cfg, c.open key w =
        (.ok (), { c with configs := insertNew c.configs key cfg },
          { w with nextFd := w.nextFd + 1 }) ∧ cfg.OpenOn i ∧ cfg.info = info := by
  have hres := hat.child key.plain_cfgName
  have hopen : w.fs.openCreate (c.basePath.child key.cfgName) w.now = some (i, w.fs) :=
    FileSystem.openCreate_fileAt (FileSystem.fileAt_eq hres hnode) w.now
  have hw' : World.Calm { w with nextFd := w.nextFd + 1 } := hw
  have hinfo' : info.Held (({ w with nextFd := w.nextFd + 1 } : World).fs.data i).image := hinfo
  refine ⟨⟨.live w.nextFd i, .mapped i, info⟩, ?_, ⟨⟨_, rfl⟩, rfl⟩, rfl⟩
  unfold ConfigManager.open
  rw [path_eq hk, World.isRegular, FileSystem.fileAt_eq hres hnode, if_neg (by simp),
    World.openCreate_calm hw hopen]
  dsimp only
  rw [World.mmap_calm hw' _ _ (by simp [RawInfo.width])]
  dsimp only
  rw [hinfo'.load]

theorem open_missing (hk : key.Encodable) (hat : FileSystem.At w.fs c.basePath dir)
    (hfree : w.fs.node? (dir ++ [key.cfgName]) = none) :
    c.open key w =
      (Utils.err .fileNotFound ("File not exists: " ++ pathText (c.path key)), c, w) := by
  have hregular : w.isRegular (c.path key) = false := by
    rw [path_eq hk, World.isRegular, FileSystem.fileAt, hat.child key.plain_cfgName]
    dsimp only
    rw [hfree]
    rfl
  rw [ConfigManager.open, hregular]
  exact if_pos (by simp)

/-- All fields are written to the file and to the entry. -/
theorem update_spec {cfg : CfgInfo} (hcfg : c.configs.lookup key = some cfg)
    (hopen : cfg.OpenOn i) (hsize : (w.fs.data i).image.size = 32) (info : RawInfo) :
    ∃ cfg' w', c.update key info w =
        (.ok (), { c with configs := c.configs.replace key cfg' }, w') ∧ cfg'.OpenOn i ∧
      cfg'.info = info ∧ info.Held (w'.fs.data i).image ∧ w'.fs.node? = w.fs.node? := by
  refine ⟨{ cfg with info := info }, w.store (.mapped i) 0 info.bytes, ?_,
    ⟨hopen.fd, hopen.addr⟩, rfl, ?_, rfl⟩
  · unfold update
    rw [hcfg]
    dsimp only
    rw [hopen.addr]
  · rw [World.store_mapped]
    dsimp only
    rw [FileSystem.data_setData_same]
    exact .store info hsize

/-- The commit offset is written to the file and to the entry. -/
theorem updateCommitOffset_spec {cfg : CfgInfo} (hcfg : c.configs.lookup key = some cfg)
    (hopen : cfg.OpenOn i) (hinfo : cfg.info.Held (w.fs.data i).image) (offset : Int64) :
    ∃ cfg' w', c.updateCommitOffset key offset w =
        (.ok (), { c with configs := c.configs.replace key cfg' }, w') ∧ cfg'.OpenOn i ∧
      cfg'.info = { cfg.info with commitOffset := offset } ∧
      cfg'.info.Held (w'.fs.data i).image ∧ w'.fs.node? = w.fs.node? ∧ w'.now = w.now ∧
      w'.outcomes = w.outcomes := by
  refine ⟨{ cfg with info := { cfg.info with commitOffset := offset } },
    w.store (.mapped i) 24 (toLE 8 offset.toInt), ?_, ⟨hopen.fd, hopen.addr⟩, rfl, ?_, rfl, rfl,
    rfl⟩
  · unfold updateCommitOffset
    rw [hcfg]
    dsimp only
    rw [hopen.addr]
  · rw [World.store_mapped]
    dsimp only
    rw [FileSystem.data_setData_same]
    exact hinfo.commit offset

theorem closeInfo_spec (hw : w.Obliging) {cfg : CfgInfo} (hopen : cfg.OpenOn i) :
    ∃ cfg' w', c.closeInfo key cfg w = (.ok (), cfg', w') ∧ w'.fs = w.fs ∧ w'.now = w.now := by
  obtain ⟨num, hfd⟩ := hopen.fd
  unfold closeInfo
  rw [World.munmap_serving (hw.serving 1) (by rw [hopen.addr]; simp)]
  dsimp only
  rw [hfd, World.close_serving (hw.rest.serving 1)]
  exact ⟨_, _, rfl, rfl, rfl⟩

theorem remove_spec (hw : w.Obliging) (hk : key.Encodable)
    (hat : FileSystem.At w.fs c.basePath dir) {cfg : CfgInfo}
    (hcfg : c.configs.lookup key = some cfg) (hopen : cfg.OpenOn i)
    (hnode : w.fs.node? (dir ++ [key.cfgName]) = some (.file i)) :
    ∃ w', c.remove key w = (.ok (), { c with configs := c.configs.erase key }, w') ∧
      w'.fs = w.fs.erase (dir ++ [key.cfgName]) ∧ w'.now = w.now := by
  obtain ⟨cfg', w₁, hclose, hfs, hnow⟩ := closeInfo_spec (c := c) hw hopen
  refine ⟨{ w₁ with fs := w₁.fs.erase (dir ++ [key.cfgName]) }, ?_, by rw [hfs], hnow⟩
  unfold remove closeKey
  rw [hcfg]
  dsimp only
  rw [hclose]
  dsimp only
  have hpath : ({ c with configs := c.configs.erase key } : ConfigManager).path key =
      c.basePath.child key.cfgName := path_eq hk _
  have hres : w₁.fs.resolve (c.basePath.child key.cfgName) = some (dir ++ [key.cfgName]) := by
    rw [hfs]
    exact hat.child key.plain_cfgName
  rw [hpath]
  unfold World.remove
  rw [hres]
  dsimp only
  rw [hfs, hnode, ← hfs]

/-! ## Closing -/

theorem closeFiles_spec {todo : List TopicPartition} : ∀ {c : ConfigManager} {w : World},
    todo.Nodup → w.Obliging →
    (∀ key ∈ todo, ∀ cfg, c.configs.lookup key = some cfg → ∃ i, cfg.OpenOn i) →
    ∃ c' w', closeFiles todo c w = (.ok (), c', w') ∧ w'.fs = w.fs ∧ w'.now = w.now ∧
      w'.outcomes <:+ w.outcomes ∧ c'.basePath = c.basePath ∧ c'.order = c.order := by
  induction todo with
  | nil => exact fun {c w} _ _ _ => ⟨c, w, rfl, rfl, rfl, List.suffix_refl _, rfl, rfl⟩
  | cons key todo ih =>
      intro c w hnodup hw hopen
      obtain ⟨hfresh, hnodup⟩ := List.nodup_cons.mp hnodup
      rw [closeFiles]
      cases hcfg : c.configs.lookup key with
      | none =>
          exact ih hnodup hw (fun k hk => hopen k (List.mem_cons_of_mem key hk))
      | some cfg =>
          obtain ⟨i, hon⟩ := hopen key List.mem_cons_self cfg hcfg
          obtain ⟨cfg', w₁, hclose, hfs, hnow⟩ := closeInfo_spec (c := c) hw hon
          have hfr := closeInfo_frame (S := fun _ => True) (I := fun _ => True) c key cfg
            (Frame.refl (w := w) (fun _ _ => trivial))
          rw [hclose] at hfr
          obtain ⟨c', w', hrest, hfs', hnow', hout, hbase, hord⟩ := ih
            (c := { c with configs := c.configs.replace key cfg' }) hnodup (hfr.obliging hw) (by
              intro k hk cfg₀ hcfg₀
              have hkk : k ≠ key := by
                rintro rfl
                exact hfresh hk
              rw [lookup_replace_ne hkk] at hcfg₀
              exact hopen k (List.mem_cons_of_mem key hk) cfg₀ hcfg₀)
          dsimp only
          rw [hclose]
          exact ⟨c', w', hrest, hfs'.trans hfs, hnow'.trans hnow, hout.trans hfr.outcomes, hbase, hord⟩

theorem close_spec (hw : w.Obliging)
    (h : ∀ key cfg, c.configs.lookup key = some cfg → ∃ i, cfg.OpenOn i) :
    ∃ c' w', c.close w = (.ok (), c', w') ∧ c'.configs = ∅ ∧ w'.fs = w.fs ∧ w'.now = w.now ∧
      w'.outcomes <:+ w.outcomes := by
  have hnodup : c.keys.Nodup := ((c.order.perm _).nodup_iff).mpr c.configs.keys_nodup
  obtain ⟨c', w', hfiles, hfs, hnow, hout, -, -⟩ := closeFiles_spec hnodup hw
    (fun key _ cfg => h key cfg)
  refine ⟨{ c' with configs := ∅ }, w', ?_, rfl, hfs, hnow, hout⟩
  rw [close, hfiles]

theorem close_empty (h : c.configs = ∅) (w : World) :
    ∃ c', c.close w = (.ok (), c', w) ∧ c'.configs = ∅ := by
  have hkeys : c.keys = [] := by
    have hperm := c.order.perm c.configs.keys
    rw [h, AList.keys_empty] at hperm
    rw [keys, h, AList.keys_empty]
    exact List.perm_nil.mp hperm
  refine ⟨{ c with configs := ∅ }, ?_, rfl⟩
  rw [close, hkeys]
  rfl

end ConfigManager

end MyKafka
