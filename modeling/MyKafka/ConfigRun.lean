import MyKafka.ConfigSpec
import MyKafka.PartitionRun
import MyKafka.PersistentMap

/-!
# Runs of the config store

Every run of a config store on one directory, restarts included, is a run of a map that is kept on
disk: an entry that is open is cached and lies in its file, and a restart finds the files under the
names of their keys, in whatever order the directory lists them.
-/

namespace MyKafka

open Posix PersistentMap

inductive ConfigOp where
  | create (key : TopicPartition) (segSize partSize ttl : Int64)
  | open (key : TopicPartition)
  | get (key : TopicPartition)
  | update (key : TopicPartition) (info : RawInfo)
  | updateCommitOffset (key : TopicPartition) (commitOffset : Int64)
  | close (key : TopicPartition)
  | remove (key : TopicPartition)
  | restart (closing : Bool)

inductive ConfigAnswer where
  | done (res : Result Unit)
  | got (res : Result RawInfo)
  | restarted

structure ConfigHost where
  manager : ConfigManager
  world : World

namespace ConfigHost

/-- A new store on a directory. -/
def boot (path : RawPath) (order : KeyOrder) (w : World) : ConfigHost :=
  match ConfigManager.new path order w with
  | (c, w) => ⟨c, w⟩

/-- What the old store leaves: it is closed, by hand and by its destructor, or it just disappears. -/
def leave (h : ConfigHost) (closing : Bool) : World :=
  if closing then
    match h.manager.close h.world with
    | (_, c, w) => (c.close w).2.2
  else h.world

def restart (h : ConfigHost) (closing : Bool) : ConfigHost :=
  match ConfigManager.new h.manager.basePath h.manager.order (h.leave closing) with
  | (c, w) =>
    match c.load w with
    | (c, w) => ⟨c, w⟩

def step (h : ConfigHost) : ConfigOp → ConfigAnswer × ConfigHost
  | .create key segSize partSize ttl =>
    match h.manager.create key segSize partSize ttl h.world with
    | (res, c, w) => (.done res, ⟨c, w⟩)
  | .open key =>
    match h.manager.open key h.world with
    | (res, c, w) => (.done res, ⟨c, w⟩)
  | .get key => (.got (h.manager.get key), h)
  | .update key info =>
    match h.manager.update key info h.world with
    | (res, c, w) => (.done res, ⟨c, w⟩)
  | .updateCommitOffset key commitOffset =>
    match h.manager.updateCommitOffset key commitOffset h.world with
    | (res, c, w) => (.done res, ⟨c, w⟩)
  | .close key =>
    match h.manager.closeKey key h.world with
    | (res, c, w) => (.done res, ⟨c, w⟩)
  | .remove key =>
    match h.manager.remove key h.world with
    | (res, c, w) => (.done res, ⟨c, w⟩)
  | .restart closing => (.restarted, h.restart closing)

end ConfigHost

/-! ## The operations of the map -/

namespace ConfigOp

def key? : ConfigOp → Option TopicPartition
  | .create key _ _ _ | .open key | .get key | .update key _ | .updateCommitOffset key _
  | .close key | .remove key => some key
  | .restart _ => none

def meaning : ConfigOp → Op TopicPartition RawInfo
  | .create key segSize partSize ttl => .at key (.create ⟨segSize, partSize, ttl, -1⟩)
  | .open key => .at key .open
  | .get key => .at key .get
  | .update key info => .at key (.modify (fun _ => info))
  | .updateCommitOffset key commitOffset =>
    .at key (.modify (fun info => { info with commitOffset := commitOffset }))
  | .close key => .at key .close
  | .remove key => .at key .remove
  | .restart _ => .restart

end ConfigOp

namespace ConfigAnswer

def meaning : ConfigAnswer → Answer RawInfo
  | .done (.ok _) => .done
  | .done (.error _) => .refused
  | .got (.ok info) => .value info
  | .got (.error _) => .refused
  | .restarted => .done

end ConfigAnswer

/-- The file of the key holds the four numbers. -/
structure Filed (w : World) (B : Path) (key : TopicPartition) (info : RawInfo) (i : ℕ) : Prop where
  node : w.fs.node? (B ++ [key.cfgName]) = some (.file i)
  held : info.Held (w.fs.data i).image

/-- What the store and its directory hold for a key. -/
def Backs (h : ConfigHost) (B : Path) (key : TopicPartition) : Slot RawInfo → Prop
  | .absent => h.manager.configs.lookup key = none
  | .stored info => h.manager.configs.lookup key = none ∧ ∃ i, Filed h.world B key info i
  | .opened info => ∃ cfg i, h.manager.configs.lookup key = some cfg ∧ cfg.OpenOn i ∧
      cfg.info = info ∧ Filed h.world B key info i

/-- The store and its directory hold the map and nothing else. -/
structure Keeps (r : RawPath) (B : Path) (h : ConfigHost) (s : TopicPartition → Slot RawInfo) :
    Prop where
  basePath : h.manager.basePath = r
  calm : h.world.Calm
  atBase : FileSystem.At h.world.fs r B
  decodable : ∀ key, s key ≠ .absent → key.Decodable
  backs : ∀ key, Backs h B key (s key)
  only : ∀ n, h.world.fs.node? (B ++ [n]) ≠ none → ∃ key, s key ≠ .absent ∧ n = key.cfgName

/-- Nothing but the entry and the file of the key is touched. -/
structure OnlyAt (B : Path) (key : TopicPartition) (h h' : ConfigHost) : Prop where
  frame : Frame (fun q => q = B ++ [key.cfgName])
    (FileSystem.Named (fun q => q = B ++ [key.cfgName]) h.world.fs) h.world h'.world
  leaves : ConfigManager.Leaves key h.manager h'.manager

variable {r : RawPath} {B : Path} {h h' : ConfigHost} {s : TopicPartition → Slot RawInfo}
  {key key' : TopicPartition} {info : RawInfo} {i : ℕ} {x : Slot RawInfo} {w : World}

theorem child_cfgName_ne (hk : key.Decodable) (hk' : key'.Decodable) (hne : key' ≠ key) :
    B ++ [key'.cfgName] ≠ B ++ [key.cfgName] := by
  intro he
  have hname : key'.cfgName = key.cfgName := by simpa using he
  exact hne (hk'.toString_inj hk (TopicPartition.cfgName_inj hname))

theorem OnlyAt.filed (ho : OnlyAt B key h h')
    (hne : B ++ [key'.cfgName] ≠ B ++ [key.cfgName]) (hf : Filed h.world B key' info i) :
    Filed h'.world B key' info i where
  node := (ho.frame.within.node _ hne).trans hf.node
  held := by
    rw [ho.frame.within.file hne hf.node]
    exact hf.held

namespace Keeps

theorem free (hk : Keeps r B h s) (hkey : key.Decodable) (hs : s key = .absent) :
    h.world.fs.node? (B ++ [key.cfgName]) = none := by
  by_contra hnode
  obtain ⟨key', hkey', hname⟩ := hk.only _ hnode
  have heq := hkey.toString_inj (hk.decodable key' hkey') (TopicPartition.cfgName_inj hname)
  exact hkey' (heq ▸ hs)

theorem filed (hk : Keeps r B h s) (hs : s key ≠ .absent) :
    ∃ info i, (s key).value? = some info ∧ Filed h.world B key info i := by
  have hb := hk.backs key
  revert hs hb
  cases s key with
  | absent => exact fun hs => absurd rfl hs
  | stored info =>
      rintro - ⟨-, i, hf⟩
      exact ⟨info, i, rfl, hf⟩
  | opened info =>
      rintro - ⟨-, i, -, -, -, hf⟩
      exact ⟨info, i, rfl, hf⟩

theorem opened (hk : Keeps r B h s) {cfg : CfgInfo}
    (hcfg : h.manager.configs.lookup key = some cfg) :
    ∃ i, s key = .opened cfg.info ∧ cfg.OpenOn i ∧ Filed h.world B key cfg.info i := by
  have hb := hk.backs key
  revert hb
  cases s key with
  | absent => exact fun hnone => absurd (hcfg.symm.trans hnone) (by simp)
  | stored info =>
      exact fun hb => absurd (hcfg.symm.trans hb.1) (by simp)
  | opened info =>
      rintro ⟨cfg', i, hcfg', hon, rfl, hf⟩
      obtain rfl := Option.some.inj (hcfg.symm.trans hcfg')
      exact ⟨i, rfl, hon, hf⟩

theorem mem_configs (hk : Keeps r B h s) :
    key ∈ h.manager.configs ↔ ∃ info, s key = .opened info := by
  rw [← AList.lookup_isSome, Option.isSome_iff_exists]
  constructor
  · rintro ⟨cfg, hcfg⟩
    obtain ⟨i, hs, -⟩ := hk.opened hcfg
    exact ⟨cfg.info, hs⟩
  · rintro ⟨info, hs⟩
    have hb := hk.backs key
    rw [hs] at hb
    obtain ⟨cfg, -, hcfg, -⟩ := hb
    exact ⟨cfg, hcfg⟩

theorem mine (hk : Keeps r B h s) (cfg : CfgInfo)
    (hcfg : h.manager.configs.lookup key = some cfg) :
    cfg.addr.Mine (FileSystem.Named (fun q => q = B ++ [key.cfgName]) h.world.fs) h.world.fs := by
  obtain ⟨i, -, hon, hf⟩ := hk.opened hcfg
  rw [hon.addr]
  exact Or.inr ⟨_, rfl, hf.node⟩

/-- A step that touches one key, and what it leaves of that key. -/
theorem step_at (hk : Keeps r B h s) (hkey : key.Decodable) (ho : OnlyAt B key h h')
    (hb : Backs h' B key x)
    (hfree : x = .absent → h'.world.fs.node? (B ++ [key.cfgName]) = none) :
    Keeps r B h' (Function.update s key x) where
  basePath := ho.leaves.basePath.trans hk.basePath
  calm := ho.frame.calm hk.calm
  atBase := by
    refine ho.frame.atDir hk.atBase ?_
    rintro q rfl hpre
    have := hpre.length_le
    simp at this
  decodable key' hkey' := by
    by_cases hkk : key' = key
    · exact hkk ▸ hkey
    · rw [Function.update_of_ne hkk] at hkey'
      exact hk.decodable key' hkey'
  backs key' := by
    by_cases hkk : key' = key
    · subst hkk
      rwa [Function.update_self]
    · have hb' := hk.backs key'
      have hlookup := ho.leaves.lookup key' hkk
      have hdec := hk.decodable key'
      rw [Function.update_of_ne hkk]
      revert hb' hdec
      cases s key' with
      | absent => exact fun hnone _ => hlookup.trans hnone
      | stored info =>
          rintro ⟨hnone, i, hf⟩ hdec
          exact ⟨hlookup.trans hnone, i, ho.filed (child_cfgName_ne hkey (hdec (by simp)) hkk) hf⟩
      | opened info =>
          rintro ⟨cfg, i, hcfg, hon, hinfo, hf⟩ hdec
          exact ⟨cfg, i, hlookup.trans hcfg, hon, hinfo,
            ho.filed (child_cfgName_ne hkey (hdec (by simp)) hkk) hf⟩
  only n hnode := by
    by_cases hn : n = key.cfgName
    · subst hn
      refine ⟨key, ?_, rfl⟩
      rw [Function.update_self]
      exact fun hx => hnode (hfree hx)
    · rw [ho.frame.within.node _ (by simpa using hn)] at hnode
      obtain ⟨key', hkey', hname⟩ := hk.only n hnode
      refine ⟨key', ?_, hname⟩
      rwa [Function.update_of_ne (by rintro rfl; exact hn hname)]

/-- The store without entries, on the same directory. -/
theorem shut (hk : Keeps r B h s) (order : KeyOrder) (hcalm : w.Calm)
    (hfs : w.fs = h.world.fs) : Keeps r B ⟨⟨r, ∅, order⟩, w⟩ (fun key => (s key).shut) where
  basePath := rfl
  calm := hcalm
  atBase := by
    show FileSystem.At w.fs r B
    rw [hfs]
    exact hk.atBase
  decodable key hkey := hk.decodable key (fun hs => hkey (Slot.shut_eq_absent.mpr hs))
  backs key := by
    have hfiled : s key ≠ .absent → ∃ info i, (s key).value? = some info ∧
        Filed h.world B key info i := hk.filed
    revert hfiled
    cases s key with
    | absent => exact fun _ => AList.lookup_empty key
    | stored info =>
        intro hfiled
        obtain ⟨_, i, ⟨⟩, hnode, hheld⟩ := hfiled (by simp)
        exact ⟨AList.lookup_empty key, i, by rw [hfs]; exact hnode, by rw [hfs]; exact hheld⟩
    | opened info =>
        intro hfiled
        obtain ⟨_, i, ⟨⟩, hnode, hheld⟩ := hfiled (by simp)
        exact ⟨AList.lookup_empty key, i, by rw [hfs]; exact hnode, by rw [hfs]; exact hheld⟩
  only n hnode := by
    obtain ⟨key, hkey, hname⟩ := hk.only n (by rwa [← hfs])
    exact ⟨key, fun hs => hkey (Slot.shut_eq_absent.mp hs), hname⟩

end Keeps

/-! ## One operation -/

/-- An operation on a key touches nothing else, whatever it answers. -/
theorem Keeps.onlyAt (hk : Keeps r B h s) {op : ConfigOp} (hop : op.key? = some key)
    (hkey : key.Encodable) : OnlyAt B key h (h.step op).2 := by
  have hat : FileSystem.At h.world.fs h.manager.basePath B := by
    rw [hk.basePath]
    exact hk.atBase
  have hin := ConfigManager.inside_path (S := fun q => q = B ++ [key.cfgName]) hkey hat rfl
  have hrefl := Frame.refl (S := fun q => q = B ++ [key.cfgName]) (w := h.world) (fun _ => id)
  cases op with
  | restart closing => cases hop
  | create key' segSize partSize ttl =>
      obtain rfl := Option.some.inj hop
      exact ⟨ConfigManager.create_frame hrefl hin segSize partSize ttl,
        h.manager.create_leaves key' segSize partSize ttl h.world⟩
  | «open» key' =>
      obtain rfl := Option.some.inj hop
      exact ⟨ConfigManager.open_frame hrefl hin, h.manager.open_leaves key' h.world⟩
  | get key' => exact ⟨hrefl, .refl key h.manager⟩
  | update key' info =>
      obtain rfl := Option.some.inj hop
      exact ⟨ConfigManager.update_frame hrefl hk.mine info,
        h.manager.update_leaves key' info h.world⟩
  | updateCommitOffset key' commitOffset =>
      obtain rfl := Option.some.inj hop
      exact ⟨ConfigManager.updateCommitOffset_frame hrefl hk.mine commitOffset,
        h.manager.updateCommitOffset_leaves key' commitOffset h.world⟩
  | close key' =>
      obtain rfl := Option.some.inj hop
      exact ⟨ConfigManager.closeKey_frame h.manager key' hrefl,
        h.manager.closeKey_leaves key' h.world⟩
  | remove key' =>
      obtain rfl := Option.some.inj hop
      exact ⟨ConfigManager.remove_frame hrefl hin, h.manager.remove_leaves key' h.world⟩

/-- The operation answers as the slot of its key does, and leaves what that slot becomes. -/
structure ActsAs (B : Path) (key : TopicPartition) (o : KeyOp RawInfo) (x : Slot RawInfo)
    (a : ConfigAnswer) (h' : ConfigHost) : Prop where
  answer : (x.step o).1 = a.meaning
  backs : Backs h' B key (x.step o).2
  free : (x.step o).2 = .absent → h'.world.fs.node? (B ++ [key.cfgName]) = none

namespace Keeps

theorem atPath (hk : Keeps r B h s) : FileSystem.At h.world.fs h.manager.basePath B := by
  rw [hk.basePath]
  exact hk.atBase

theorem lookup_none (hk : Keeps r B h s) (hs : ∀ info, s key ≠ .opened info) :
    h.manager.configs.lookup key = none := by
  rw [AList.lookup_eq_none, hk.mem_configs]
  exact fun ⟨info, hinfo⟩ => hs info hinfo

theorem exists_iff (hk : Keeps r B h s) (hkey : key.Decodable) :
    h.world.exists? (h.manager.path key) = true ↔ s key ≠ .absent := by
  rw [ConfigManager.exists_path hkey.toEncodable hk.atPath]
  constructor
  · intro hsome hs
    rw [hk.free hkey hs] at hsome
    cases hsome
  · intro hs
    obtain ⟨info, i, -, hf⟩ := hk.filed hs
    rw [hf.node]
    rfl

/-- An operation that is refused, or that changes nothing. -/
theorem stays (hk : Keeps r B h s) (hkey : key.Decodable) {o : KeyOp RawInfo} {a : ConfigAnswer}
    (hans : ((s key).step o).1 = a.meaning) (hsame : ((s key).step o).2 = s key) :
    ActsAs B key o (s key) a h where
  answer := hans
  backs := by
    rw [hsame]
    exact hk.backs key
  free hx := hk.free hkey (hsame ▸ hx)

theorem create (hk : Keeps r B h s) (hkey : key.Decodable) (segSize partSize ttl : Int64) :
    ActsAs B key (.create ⟨segSize, partSize, ttl, -1⟩) (s key)
      (h.step (.create key segSize partSize ttl)).1
      (h.step (.create key segSize partSize ttl)).2 := by
  by_cases hs : s key = .absent
  · have hnew : key ∉ h.manager.configs := by
      rw [← AList.lookup_eq_none]
      exact hk.lookup_none (by simp [hs])
    obtain ⟨cfg, i, w', hcreate, hon, hinfo, hnode, hheld⟩ := ConfigManager.create_spec
      (hk.calm.serving 6) hkey.toEncodable hk.atPath (hk.free hkey hs) segSize partSize ttl
    simp only [ConfigHost.step, hcreate]
    rw [hs]
    exact ⟨rfl, ⟨cfg, i, lookup_insertNew hnew cfg, hon, hinfo, hnode, hinfo ▸ hheld⟩, by
      simp [Slot.step]⟩
  · have hcreate : h.manager.create key segSize partSize ttl h.world =
        (Utils.err .fileError ("File already exists: " ++ pathText (h.manager.path key)),
          h.manager, h.world) := by
      rw [ConfigManager.create]
      exact if_pos ((hk.exists_iff hkey).mpr hs)
    simp only [ConfigHost.step, hcreate]
    apply hk.stays hkey <;> revert hs <;> cases s key <;> simp [Slot.step, ConfigAnswer.meaning,
      Utils.err]

theorem «open» (hk : Keeps r B h s) (hkey : key.Decodable) :
    ActsAs B key .open (s key) (h.step (.open key)).1 (h.step (.open key)).2 := by
  by_cases hs : s key = .absent
  · simp only [ConfigHost.step, ConfigManager.open_missing hkey.toEncodable hk.atPath
      (hk.free hkey hs)]
    apply hk.stays hkey <;> rw [hs] <;> rfl
  · obtain ⟨info, i, hvalue, hf⟩ := hk.filed hs
    obtain ⟨cfg, hopen, hon, hinfo⟩ := ConfigManager.open_spec hk.calm hkey.toEncodable hk.atPath
      hf.node hf.held
    simp only [ConfigHost.step, hopen]
    have hb := hk.backs key
    revert hs hb hvalue
    cases hx : s key with
    | absent => exact fun hs => absurd rfl hs
    | stored v =>
        rintro - ⟨⟩ ⟨hnone, -⟩
        exact ⟨rfl, ⟨cfg, i, lookup_insertNew (AList.lookup_eq_none.mp hnone) cfg, hon, hinfo,
          hf.node, hf.held⟩, by simp [Slot.step]⟩
    | opened v =>
        rintro - - ⟨cfg', j, hcfg', hon', hinfo', hf'⟩
        refine ⟨rfl, ⟨cfg', j, ?_, hon', hinfo', hf'.node, hf'.held⟩, by simp [Slot.step]⟩
        rw [insertNew, if_pos (mem_of_lookup hcfg')]
        exact hcfg'

theorem get (hk : Keeps r B h s) (hkey : key.Decodable) :
    ActsAs B key .get (s key) (h.step (.get key)).1 (h.step (.get key)).2 := by
  apply hk.stays hkey
  · simp only [ConfigHost.step, ConfigManager.get]
    cases hcfg : h.manager.configs.lookup key with
    | none =>
        have hs : ∀ info, s key ≠ .opened info := by
          intro info hs
          have hmem := hk.mem_configs.mpr ⟨info, hs⟩
          exact AList.lookup_eq_none.mp hcfg hmem
        revert hs
        cases s key <;> simp [Slot.step, ConfigAnswer.meaning, ConfigManager.notFound, Utils.err]
    | some cfg =>
        obtain ⟨i, hs, -⟩ := hk.opened hcfg
        rw [hs]
        rfl
  · cases s key <;> rfl

theorem refused (hk : Keeps r B h s) (hkey : key.Decodable) {o : KeyOp RawInfo} {a : ConfigAnswer}
    (ha : a.meaning = .refused) (hs : ∀ info, s key ≠ .opened info)
    (ho : o = .close ∨ o = .remove ∨ ∃ f, o = .modify f) : ActsAs B key o (s key) a h := by
  have hstep : (s key).step o = (.refused, s key) := by
    revert hs
    cases s key with
    | absent => rcases ho with rfl | rfl | ⟨f, rfl⟩ <;> exact fun _ => rfl
    | stored info => rcases ho with rfl | rfl | ⟨f, rfl⟩ <;> exact fun _ => rfl
    | opened info => exact fun hs => absurd rfl (hs info)
  apply hk.stays hkey
  · rw [hstep, ha]
  · rw [hstep]

/-- Such an operation finds an open entry, or is refused. -/
theorem opened_or (hk : Keeps r B h s) (key : TopicPartition) :
    (∃ cfg i, h.manager.configs.lookup key = some cfg ∧ s key = .opened cfg.info ∧ cfg.OpenOn i ∧
      Filed h.world B key cfg.info i) ∨
    h.manager.configs.lookup key = none ∧ ∀ info, s key ≠ .opened info := by
  cases hcfg : h.manager.configs.lookup key with
  | some cfg =>
      obtain ⟨i, hs, hon, hf⟩ := hk.opened hcfg
      exact Or.inl ⟨cfg, i, rfl, hs, hon, hf⟩
  | none =>
      refine Or.inr ⟨rfl, fun info hs => ?_⟩
      exact AList.lookup_eq_none.mp hcfg (hk.mem_configs.mpr ⟨info, hs⟩)

theorem update (hk : Keeps r B h s) (hkey : key.Decodable) (info : RawInfo) :
    ActsAs B key (.modify (fun _ => info)) (s key) (h.step (.update key info)).1
      (h.step (.update key info)).2 := by
  rcases hk.opened_or key with ⟨cfg, i, hcfg, hs, hon, hf⟩ | ⟨hcfg, hs⟩
  · obtain ⟨cfg', w', hupdate, hon', hinfo, hheld, hnode⟩ :=
      ConfigManager.update_spec hcfg hon hf.held.size info
    simp only [ConfigHost.step, hupdate]
    rw [hs]
    exact ⟨rfl, ⟨cfg', i, lookup_replace_same (mem_of_lookup hcfg) cfg', hon', hinfo,
      (congrFun hnode _).trans hf.node, hheld⟩, by simp [Slot.step]⟩
  · simp only [ConfigHost.step, ConfigManager.update, hcfg]
    exact hk.refused hkey rfl hs (Or.inr (Or.inr ⟨_, rfl⟩))

theorem updateCommitOffset (hk : Keeps r B h s) (hkey : key.Decodable) (commitOffset : Int64) :
    ActsAs B key (.modify (fun info => { info with commitOffset := commitOffset })) (s key)
      (h.step (.updateCommitOffset key commitOffset)).1
      (h.step (.updateCommitOffset key commitOffset)).2 := by
  rcases hk.opened_or key with ⟨cfg, i, hcfg, hs, hon, hf⟩ | ⟨hcfg, hs⟩
  · obtain ⟨cfg', w', hupdate, hon', hinfo, hheld, hnode, -⟩ :=
      ConfigManager.updateCommitOffset_spec hcfg hon hf.held commitOffset
    rw [hinfo] at hheld
    simp only [ConfigHost.step, hupdate]
    rw [hs]
    exact ⟨rfl, ⟨cfg', i, lookup_replace_same (mem_of_lookup hcfg) cfg', hon', hinfo,
      (congrFun hnode _).trans hf.node, hheld⟩, by simp [Slot.step]⟩
  · simp only [ConfigHost.step, ConfigManager.updateCommitOffset, hcfg]
    exact hk.refused hkey rfl hs (Or.inr (Or.inr ⟨_, rfl⟩))

theorem close (hk : Keeps r B h s) (hkey : key.Decodable) :
    ActsAs B key .close (s key) (h.step (.close key)).1 (h.step (.close key)).2 := by
  rcases hk.opened_or key with ⟨cfg, i, hcfg, hs, hon, hf⟩ | ⟨hcfg, hs⟩
  · obtain ⟨cfg', w', hclose, hfs, -⟩ : ∃ cfg' w',
        h.manager.closeInfo key cfg h.world = (.ok (), cfg', w') ∧ w'.fs = h.world.fs ∧ _ :=
      ConfigManager.closeInfo_spec hk.calm.obliging hon
    simp only [ConfigHost.step, ConfigManager.closeKey, hcfg, hclose]
    rw [hs]
    exact ⟨rfl, ⟨AList.lookup_erase _ _, i, by rw [hfs]; exact hf.node, by
      rw [hfs]; exact hf.held⟩, by simp [Slot.step]⟩
  · simp only [ConfigHost.step, ConfigManager.closeKey, hcfg]
    exact hk.refused hkey rfl hs (Or.inl rfl)

theorem remove (hk : Keeps r B h s) (hkey : key.Decodable) :
    ActsAs B key .remove (s key) (h.step (.remove key)).1 (h.step (.remove key)).2 := by
  rcases hk.opened_or key with ⟨cfg, i, hcfg, hs, hon, hf⟩ | ⟨hcfg, hs⟩
  · obtain ⟨w', hremove, hfs, -⟩ := ConfigManager.remove_spec hk.calm.obliging hkey.toEncodable
      hk.atPath hcfg hon hf.node
    simp only [ConfigHost.step, hremove]
    rw [hs]
    refine ⟨rfl, AList.lookup_erase _ _, fun _ => ?_⟩
    show w'.fs.node? (B ++ [key.cfgName]) = none
    rw [hfs, FileSystem.node?_erase _ (by simp), if_pos rfl]
  · simp only [ConfigHost.step, ConfigManager.remove, ConfigManager.closeKey, hcfg]
    exact hk.refused hkey rfl hs (Or.inr (Or.inl rfl))

theorem step (hk : Keeps r B h s) {op : ConfigOp} (hop : op.key? = some key)
    (hkey : key.Decodable) :
    (PersistentMap.step s op.meaning).1 = (h.step op).1.meaning ∧
      Keeps r B (h.step op).2 (PersistentMap.step s op.meaning).2 := by
  have hacts : ∃ o, op.meaning = .at key o ∧
      ActsAs B key o (s key) (h.step op).1 (h.step op).2 := by
    cases op with
    | restart closing => cases hop
    | create key' segSize partSize ttl =>
        obtain rfl := Option.some.inj hop
        exact ⟨_, rfl, hk.create hkey segSize partSize ttl⟩
    | «open» key' =>
        obtain rfl := Option.some.inj hop
        exact ⟨_, rfl, hk.open hkey⟩
    | get key' =>
        obtain rfl := Option.some.inj hop
        exact ⟨_, rfl, hk.get hkey⟩
    | update key' info =>
        obtain rfl := Option.some.inj hop
        exact ⟨_, rfl, hk.update hkey info⟩
    | updateCommitOffset key' commitOffset =>
        obtain rfl := Option.some.inj hop
        exact ⟨_, rfl, hk.updateCommitOffset hkey commitOffset⟩
    | close key' =>
        obtain rfl := Option.some.inj hop
        exact ⟨_, rfl, hk.close hkey⟩
    | remove key' =>
        obtain rfl := Option.some.inj hop
        exact ⟨_, rfl, hk.remove hkey⟩
  obtain ⟨o, hmeaning, hact⟩ := hacts
  rw [hmeaning]
  exact ⟨hact.answer, hk.step_at hkey (hk.onlyAt hop hkey.toEncodable) hact.backs hact.free⟩

end Keeps

/-! ## Restarts -/

namespace Keeps

theorem loadFiles {keys : List TopicPartition} : ∀ {c : ConfigManager} {w : World}
    {s : TopicPartition → Slot RawInfo}, (∀ key ∈ keys, s key ≠ .absent) → Keeps r B ⟨c, w⟩ s →
    ∃ c' w', ConfigManager.loadFiles keys c w = (c', w') ∧
      Keeps r B ⟨c', w'⟩ (fun key => if key ∈ keys then (s key).reopen else s key) := by
  induction keys with
  | nil => exact fun {c w s} _ hk => ⟨c, w, rfl, by simpa using hk⟩
  | cons key keys ih =>
      intro c w s hkeys hk
      have hkey := hkeys key List.mem_cons_self
      have hopen := (hk.step (show (ConfigOp.open key).key? = some key from rfl) (hk.decodable key hkey)).2
      rcases hx : c.open key w with ⟨res, c₁, w₁⟩
      have hk₁ : Keeps r B ⟨c₁, w₁⟩ (Function.update s key (s key).reopen) := by
        simp only [ConfigHost.step, hx, ConfigOp.meaning, PersistentMap.step,
          Slot.step_open hkey] at hopen
        exact hopen
      obtain ⟨c', w', hload, hk'⟩ := ih (by
        intro k hmem
        by_cases hkk : k = key
        · subst hkk
          rw [Function.update_self]
          exact fun habs => hkey (Slot.reopen_eq_absent.mp habs)
        · rw [Function.update_of_ne hkk]
          exact hkeys k (List.mem_cons_of_mem key hmem)) hk₁
      refine ⟨c', w', ?_, ?_⟩
      · rw [ConfigManager.loadFiles, hx]
        exact hload
      · convert hk' using 2 with k
        by_cases hkk : k = key
        · subst hkk
          simp
        · simp [hkk]

theorem mem_names (hk : Keeps r B h s) :
    key ∈ ((h.world.listing h.manager.basePath).filter
      (fun n => h.world.isRegular (h.manager.basePath.child n))).filterMap
        ConfigManager.decodeName ↔ s key ≠ .absent := by
  rw [List.mem_filterMap]
  constructor
  · rintro ⟨n, hn, hdecode⟩
    rw [List.mem_filter, World.listing, hk.atPath.resolves, (h.world.order.perm _).mem_iff,
      FileSystem.mem_children] at hn
    obtain ⟨key', hkey', hname⟩ := hk.only n hn.1
    rw [hname, (hk.decodable key' hkey').decodeName, Option.some.injEq] at hdecode
    rwa [← hdecode]
  · intro hs
    obtain ⟨info, i, -, hf⟩ := hk.filed hs
    refine ⟨key.cfgName, ?_, (hk.decodable key hs).decodeName⟩
    rw [List.mem_filter, World.listing, hk.atPath.resolves, (h.world.order.perm _).mem_iff,
      FileSystem.mem_children, hf.node, World.isRegular,
      FileSystem.fileAt_eq (hk.atPath.child key.plain_cfgName) hf.node]
    exact ⟨by simp, rfl⟩

theorem leave (hk : Keeps r B h s) (closing : Bool) :
    (h.leave closing).Calm ∧ (h.leave closing).fs = h.world.fs := by
  cases closing with
  | false => exact ⟨hk.calm, rfl⟩
  | true =>
      obtain ⟨c₁, w₁, hclose, hempty, hfs, -, hout⟩ := ConfigManager.close_spec (c := h.manager)
        hk.calm.obliging (by
          intro key cfg hcfg
          obtain ⟨i, -, hon, -⟩ := hk.opened hcfg
          exact ⟨i, hon⟩)
      obtain ⟨c₂, hagain, -⟩ := ConfigManager.close_empty hempty w₁
      have hleave : h.leave true = w₁ := by
        rw [ConfigHost.leave, if_pos rfl, hclose]
        dsimp only
        rw [hagain]
      rw [hleave]
      refine ⟨?_, hfs⟩
      rw [show h.world.outcomes = [] from hk.calm, List.suffix_nil] at hout
      exact hout

theorem restart (hk : Keeps r B h s) (closing : Bool) :
    Keeps r B (h.restart closing) (fun key => (s key).reopen) := by
  obtain ⟨hcalm, hfs⟩ := hk.leave closing
  have hshut := hk.shut h.manager.order hcalm hfs
  have hnew : ConfigManager.new h.manager.basePath h.manager.order (h.leave closing) =
      (⟨r, ∅, h.manager.order⟩, h.leave closing) := by
    rw [ConfigManager.new, hk.basePath, World.createDirectories_at hcalm hshut.atBase]
  obtain ⟨c', w', hload, hk'⟩ := hshut.loadFiles (fun key hkey => hshut.mem_names.mp hkey)
  have hrestart : h.restart closing = ⟨c', w'⟩ := by
    rw [ConfigHost.restart, hnew]
    dsimp only
    rw [ConfigManager.load, hload]
  rw [hrestart]
  convert hk' using 2 with key
  by_cases hs : s key = .absent
  · rw [if_neg (by rw [hshut.mem_names, hs]; simp [Slot.shut]), hs]
    rfl
  · rw [if_pos (hshut.mem_names.mpr (by rwa [Ne, Slot.shut_eq_absent])), Slot.reopen_shut]

end Keeps

/-- The keys of the operation have names that can be read back. -/
def ConfigOp.Proper (op : ConfigOp) : Prop := ∀ key, op.key? = some key → key.Decodable

namespace Keeps

theorem next (hk : Keeps r B h s) {op : ConfigOp} (hop : op.Proper) :
    (PersistentMap.step s op.meaning).1 = (h.step op).1.meaning ∧
      Keeps r B (h.step op).2 (PersistentMap.step s op.meaning).2 := by
  cases hkey : op.key? with
  | some key => exact hk.step hkey (hop key hkey)
  | none =>
      cases op with
      | restart closing => exact ⟨rfl, hk.restart closing⟩
      | create | «open» | get | update | updateCommitOffset | close | remove => cases hkey

theorem run {ops : List ConfigOp} : ∀ {h : ConfigHost} {s : TopicPartition → Slot RawInfo},
    Keeps r B h s → (∀ op ∈ ops, op.Proper) →
    Runs.trace PersistentMap.step s (ops.map ConfigOp.meaning) =
        (Runs.trace ConfigHost.step h ops).map (fun e => (e.1.meaning, e.2.meaning)) ∧
      Keeps r B (Runs.final ConfigHost.step h ops)
        (Runs.final PersistentMap.step s (ops.map ConfigOp.meaning)) := by
  induction ops with
  | nil => exact fun {h s} hk _ => ⟨rfl, hk⟩
  | cons op ops ih =>
      intro h s hk hops
      obtain ⟨hans, hk₁⟩ := hk.next (hops op List.mem_cons_self)
      obtain ⟨htrace, hk'⟩ := ih hk₁ (fun o ho => hops o (List.mem_cons_of_mem op ho))
      refine ⟨?_, hk'⟩
      rw [List.map_cons, Runs.trace, hans, htrace, Runs.trace, List.map_cons]

end Keeps

/-! ## The persistent map -/

/-- The store and its files show the last values of the keys. -/
structure Persists (last : TopicPartition → Option RawInfo) (h : ConfigHost) : Prop where
  cached : ∀ key cfg, h.manager.configs.lookup key = some cfg →
    ∃ i, h.world.fs.fileAt (h.manager.path key) = some i ∧ cfg.info.Held (h.world.fs.data i).image
  get : ∀ key cfg, h.manager.configs.lookup key = some cfg →
    h.manager.get key = .ok cfg.info ∧ last key = some cfg.info
  commit : ∀ key cfg (offset : Int64), h.manager.configs.lookup key = some cfg →
    ∃ cfg' i, (h.step (.updateCommitOffset key offset)).2.manager.configs.lookup key = some cfg' ∧
      cfg'.info = { cfg.info with commitOffset := offset } ∧
      h.world.fs.fileAt (h.manager.path key) = some i ∧
      ∀ a, a < 24 ∨ 32 ≤ a →
        ((h.step (.updateCommitOffset key offset)).2.world.fs.data i).image.byte a =
          (h.world.fs.data i).image.byte a
  «exists» : ∀ key, key.Decodable →
    (h.world.exists? (h.manager.path key) = true ↔ last key ≠ none)
  create : ∀ key, key.Decodable → ∀ segSize partSize ttl,
    (h.manager.create key segSize partSize ttl h.world).1 = .ok () ↔
      h.world.exists? (h.manager.path key) = false
  «open» : ∀ key, key.Decodable →
    ((h.manager.open key h.world).1 = .ok () ↔ h.world.exists? (h.manager.path key) = true)
  load : ∀ closing key, key ∈ (h.restart closing).manager.configs ↔ last key ≠ none
  reload : ∀ closing key info, last key = some info →
    (h.restart closing).manager.get key = .ok info
  others : ∀ op key key', op.key? = some key → key.Decodable → key'.Decodable → key' ≠ key →
    (h.step op).2.manager.configs.lookup key' = h.manager.configs.lookup key' ∧
    (h.step op).2.world.fs.fileAt (h.manager.path key') =
      h.world.fs.fileAt (h.manager.path key') ∧
    ∀ i, h.world.fs.fileAt (h.manager.path key') = some i →
      (h.step op).2.world.fs.data i = h.world.fs.data i

theorem done_iff {res : Result Unit} :
    res = .ok () ↔ (ConfigAnswer.done res).meaning = .done := by
  cases res <;> simp [ConfigAnswer.meaning]

namespace Keeps

theorem path_eq (hk : Keeps r B h s) (hkey : key.Encodable) :
    h.world.fs.resolve (h.manager.path key) = some (B ++ [key.cfgName]) := by
  rw [ConfigManager.path_eq hkey]
  exact hk.atPath.child key.plain_cfgName

theorem fileAt (hk : Keeps r B h s) (hkey : key.Encodable) (hf : Filed h.world B key info i) :
    h.world.fs.fileAt (h.manager.path key) = some i :=
  FileSystem.fileAt_eq (hk.path_eq hkey) hf.node

theorem decodable_of_opened (hk : Keeps r B h s) (hs : s key = .opened info) : key.Decodable :=
  hk.decodable key (by rw [hs]; simp)

theorem persists (hk : Keeps r B h s) : Persists (fun key => (s key).value?) h where
  cached key cfg hcfg := by
    obtain ⟨i, hs, -, hf⟩ := hk.opened hcfg
    exact ⟨i, hk.fileAt (hk.decodable_of_opened hs).toEncodable hf, hf.held⟩
  get key cfg hcfg := by
    obtain ⟨i, hs, -⟩ := hk.opened hcfg
    refine ⟨?_, by rw [hs]; rfl⟩
    rw [ConfigManager.get, hcfg]
  commit key cfg offset hcfg := by
    obtain ⟨i, hs, hon, hf⟩ := hk.opened hcfg
    refine ⟨{ cfg with info := { cfg.info with commitOffset := offset } }, i, ?_, rfl,
      hk.fileAt (hk.decodable_of_opened hs).toEncodable hf, ?_⟩
    · simp only [ConfigHost.step, ConfigManager.updateCommitOffset, hcfg]
      exact lookup_replace_same (mem_of_lookup hcfg) _
    · intro a ha
      simp only [ConfigHost.step, ConfigManager.updateCommitOffset, hcfg, hon.addr,
        World.store_mapped, FileSystem.data_setData_same]
      exact if_neg (by rw [LittleEndian.length_toLE]; omega)
  «exists» key hkey := by
    rw [hk.exists_iff hkey, Slot.value?_ne_none]
  create key hkey segSize partSize ttl := by
    have hans := (hk.create hkey segSize partSize ttl).answer
    rw [done_iff, ← Bool.not_eq_true, hk.exists_iff hkey, not_not]
    refine Eq.congr_left hans.symm |>.trans ?_
    cases s key <;> simp [Slot.step]
  «open» key hkey := by
    have hans := (hk.open hkey).answer
    rw [done_iff, hk.exists_iff hkey]
    refine Eq.congr_left hans.symm |>.trans ?_
    cases s key <;> simp [Slot.step]
  load closing key := by
    rw [(hk.restart closing).mem_configs]
    cases s key <;> simp [Slot.reopen, Slot.value?]
  reload closing key info hlast := by
    have hopened : (s key).reopen = .opened info := by
      revert hlast
      cases s key <;> simp [Slot.reopen, Slot.value?]
    have hb := (hk.restart closing).backs key
    rw [hopened] at hb
    obtain ⟨cfg, i, hcfg, -, rfl, -⟩ := hb
    rw [ConfigManager.get, hcfg]
  others op key key' hop hkey hkey' hne := by
    have ho := hk.onlyAt hop hkey.toEncodable
    have hnode := child_cfgName_ne (B := B) hkey hkey' hne
    have hres := hk.path_eq hkey'.toEncodable
    have hat' : FileSystem.At (h.step op).2.world.fs h.manager.basePath B := by
      refine ho.frame.atDir hk.atPath ?_
      rintro q rfl hpre
      have := hpre.length_le
      simp at this
    have hres' : (h.step op).2.world.fs.resolve (h.manager.path key') =
        some (B ++ [key'.cfgName]) := by
      rw [ConfigManager.path_eq hkey'.toEncodable]
      exact hat'.child key'.plain_cfgName
    refine ⟨ho.leaves.lookup key' hne, ?_, ?_⟩
    · rw [FileSystem.fileAt, FileSystem.fileAt, hres, hres']
      dsimp only
      rw [ho.frame.within.node _ hnode]
    · intro i hi
      rw [FileSystem.fileAt, hres] at hi
      dsimp only at hi
      split at hi
      · next j hj =>
          obtain rfl := Option.some.inj hi
          exact ho.frame.within.file hnode hj
      · cases hi

end Keeps

theorem Vacant.keeps (hv : Vacant w r B) (order : KeyOrder) :
    Keeps r B ⟨⟨r, ∅, order⟩, w⟩ (fun _ => .absent) where
  basePath := rfl
  calm := hv.calm
  atBase := hv.atDir
  decodable _ hkey := absurd rfl hkey
  backs key := AList.lookup_empty key
  only n hnode := absurd (hv.empty n) hnode

/-- From an empty directory, which may have to be made, a store is a persistent map over every run. -/
theorem config_store_persists {order : KeyOrder} {ops : List ConfigOp} {w' : World}
    (hnew : w.createDirectories r = (true, w')) (hv : Vacant w' r B)
    (hops : ∀ op ∈ ops, op.Proper) :
    let es := (Runs.trace ConfigHost.step (ConfigHost.boot r order w) ops).map
      (fun e => (e.1.meaning, e.2.meaning))
    es = Runs.trace PersistentMap.step (fun _ => .absent) (ops.map ConfigOp.meaning) ∧
      Persists (fun key => lastValue key none es)
        (Runs.final ConfigHost.step (ConfigHost.boot r order w) ops) := by
  intro es
  have hboot : ConfigHost.boot r order w = ⟨⟨r, ∅, order⟩, w'⟩ := by
    rw [ConfigHost.boot, ConfigManager.new, hnew]
  obtain ⟨htrace, hk⟩ := (hv.keeps order).run hops
  rw [← hboot] at htrace hk
  refine ⟨htrace.symm, ?_⟩
  have hlast : (fun key => lastValue key none es) = fun key =>
      (Runs.final PersistentMap.step (fun _ => .absent) (ops.map ConfigOp.meaning) key).value? := by
    funext key
    rw [value?_final, htrace]
    rfl
  rw [hlast]
  exact hk.persists

theorem config_store_persists_reload :
    let ops : List ConfigOp := [.create ⟨"a".toList, 1⟩ 10 20 30, .create ⟨"a-1".toList, 0⟩ 1 2 3,
      .updateCommitOffset ⟨"a".toList, 1⟩ 7, .remove ⟨"a-1".toList, 0⟩]
    ((Runs.final ConfigHost.step (ConfigHost.boot ⟨[], []⟩ ⟨id, fun _ => .refl _⟩ (World.blank 0))
      ops).restart false).manager.get ⟨"a".toList, 1⟩ = .ok ⟨10, 20, 30, 7⟩ := by
  intro ops
  have hops : ∀ op ∈ ops, op.Proper := by
    simp only [ops, List.forall_mem_cons, ConfigOp.Proper, ConfigOp.key?, Option.some.injEq,
      forall_eq']
    refine ⟨?_, ?_, ?_, ?_, by simp⟩ <;> exact ⟨⟨by decide, by decide⟩, by decide⟩
  exact (config_store_persists rfl (Vacant.blank 0) hops).2.reload false _ _ (by decide +kernel)

end MyKafka
