import MyKafka.BrokerFrame
import MyKafka.PartitionRun
import MyKafka.RetainedLog

/-!
# A broker as a map of logs

`Mirrors` relates what a broker holds for its keys, its two maps and what lies on the disk, to a map
from keys to logs. Creating, deleting and writing to one key each have one lemma here, in a world
that serves all calls.
-/

namespace MyKafka

open Posix MyKafka.Partition

/-- A log and the settings it was created with. -/
structure Entry extends RetainedLog.State Payload where
  maxSegmentSize : Int64
  maxPartitionSize : Int64
  segmentTtl : Int64

abbrev Store := TopicPartition → Option Entry

namespace Entry

/-- What the config file of the log holds. -/
def info (e : Entry) : RawInfo :=
  ⟨e.maxSegmentSize, e.maxPartitionSize, e.segmentTtl, .ofInt (e.log.length - 1)⟩

/-- A log that was just created. -/
def fresh (segSize partSize ttl : Int64) : Entry := ⟨⟨[], 0⟩, segSize, partSize, ttl⟩

/-- The log with one more message and another oldest offset. -/
def push (e : Entry) (m : Payload) (oldest : ℕ) : Entry :=
  { e with log := e.log ++ [m], oldest := oldest }

theorem info_push (e : Entry) (m : Payload) (oldest : ℕ) :
    (e.push m oldest).info = { e.info with commitOffset := .ofInt e.log.length } := by
  simp [info, push]

end Entry

/-- The partition holds the log. -/
structure HoldsLog (w : World) (r : RawPath) (B : Path) (key : TopicPartition) (e : Entry)
    (p : Partition) : Prop where
  settings : p.settings = (r.child key.toString, e.maxSegmentSize.toInt, e.maxPartitionSize.toInt,
    e.segmentTtl.toInt)
  chunks : ∃ cs, Rep w (dirOf B key) p cs e.log ∧ Settled cs ∧ Addressable cs ∧
    e.oldest = firstBase cs

/-- The config file of the key, as the log has it. -/
def InfoFile (w : World) (B : Path) (key : TopicPartition) (e : Entry) (i : ℕ) : Prop :=
  w.fs.node? (cfgOf B key) = some (.file i) ∧ e.info.Held (w.fs.data i).image

/-- The entry of the config store is open on the file. -/
structure HoldsInfo (w : World) (B : Path) (key : TopicPartition) (e : Entry) (cfg : CfgInfo) :
    Prop where
  info : cfg.info = e.info
  file : ∃ i, cfg.OpenOn i ∧ InfoFile w B key e i

/-- The log lies in the directory of its key. -/
def Shelved (w : World) (r : RawPath) (B : Path) (key : TopicPartition) (e : Entry) : Prop :=
  ∃ cs, Stored w (r.child key.toString) (dirOf B key) cs e.log ∧ Settled cs ∧ Addressable cs ∧
    e.oldest = firstBase cs

/-- An empty log without a config file, as a creation leaves it that was stopped half-way. -/
structure Orphan (w : World) (r : RawPath) (B : Path) (key : TopicPartition) : Prop where
  decodable : key.Decodable
  unfiled : w.fs.node? (cfgOf B key) = none
  shelved : Shelved w r B key (.fresh 0 0 0)

/-- The disk holds nothing but the keys of `st` and orphans. -/
def Only (w : World) (r : RawPath) (B : Path) (st : Store) : Prop :=
  ∀ q, Under B q → q ≠ B → q ≠ confDir B → w.fs.node? q ≠ none →
    ∃ key, (st key ≠ none ∨ Orphan w r B key) ∧ Owns B key q

/-- Two maps and a disk that hold the logs of `st` and nothing else. -/
structure Mirrors (r : RawPath) (B : Path) (w : World) (topics : TopicPartition → Option Partition)
    (configs : TopicPartition → Option CfgInfo) (st : Store) : Prop where
  calm : w.Calm
  atBase : FileSystem.At w.fs r B
  atConf : FileSystem.At w.fs (r.child Broker.configName) (confDir B)
  decodable : ∀ key e, st key = some e → key.Decodable
  present : ∀ key e, st key = some e → ∃ p cfg, topics key = some p ∧ HoldsLog w r B key e p ∧
    configs key = some cfg ∧ HoldsInfo w B key e cfg
  absent : ∀ key, st key = none → topics key = none ∧ configs key = none
  only : Only w r B st

variable {r : RawPath} {B : Path} {w w' : World} {key key' : TopicPartition} {e : Entry}
  {p : Partition} {cfg : CfgInfo} {topics : TopicPartition → Option Partition}
  {configs : TopicPartition → Option CfgInfo} {st : Store}

theorem HoldsLog.agree (h : HoldsLog w r B key e p) (ha : Agree (dirOf B key) w w') :
    HoldsLog w' r B key e p := by
  obtain ⟨cs, hrep, hset, haddr, hold⟩ := h.chunks
  exact ⟨h.settings, cs, ha.rep hrep, hset, haddr, hold⟩

theorem Touches.infoFile {i : ℕ} (h : Touches B key w w') (hk : key.toString ≠ key'.toString)
    (hi : InfoFile w B key' e i) : InfoFile w' B key' e i := by
  have hown : ¬ Owns B key (cfgOf B key') := Owns.disjoint hk.symm (Or.inr rfl)
  exact ⟨(h.node _ hown).trans hi.1, by rw [h.data _ i hown hi.1]; exact hi.2⟩

theorem HoldsInfo.touches (h : HoldsInfo w B key' e cfg) (ht : Touches B key w w')
    (hk : key.toString ≠ key'.toString) : HoldsInfo w' B key' e cfg := by
  obtain ⟨i, hopen, hfile⟩ := h.file
  exact ⟨h.info, i, hopen, ht.infoFile hk hfile⟩

theorem HoldsLog.path (h : HoldsLog w r B key e p) : p.path = r.child key.toString :=
  congrArg (fun x => x.1) h.settings

theorem HoldsLog.shelved (h : HoldsLog w r B key e p) : Shelved w r B key e := by
  obtain ⟨cs, hrep, hset, haddr, hold⟩ := h.chunks
  exact ⟨cs, h.path ▸ hrep.live.stored, hset, haddr, hold⟩

theorem Shelved.agree (h : Shelved w r B key e) (ha : Agree (dirOf B key) w w') :
    Shelved w' r B key e := by
  obtain ⟨cs, hstored, hrest⟩ := h
  exact ⟨cs, ha.stored hstored, hrest⟩

theorem Orphan.touches (h : Orphan w r B key') (ht : Touches B key w w')
    (hk : key.toString ≠ key'.toString) : Orphan w' r B key' where
  decodable := h.decodable
  unfiled := (ht.node _ (Owns.disjoint hk.symm (Or.inr rfl))).trans h.unfiled
  shelved := h.shelved.agree (ht.agree hk)

theorem Only.agree (h : Only w r B st) (hfs : w'.fs = w.fs) (ha : ∀ dir, Agree dir w w') :
    Only w' r B st := by
  intro q hq hB hconf hnode
  rw [hfs] at hnode
  obtain ⟨key, hkey, hown⟩ := h q hq hB hconf hnode
  refine ⟨key, hkey.imp_right (fun horphan => ?_), hown⟩
  exact ⟨horphan.decodable, by rw [hfs]; exact horphan.unfiled, horphan.shelved.agree (ha _)⟩

theorem Only.touches {st' : Store} (h : Only w r B st) (hk : key.Decodable)
    (ht : Touches B key w w') (hst : ∀ key', key' ≠ key → st key' ≠ none → st' key' ≠ none)
    (hkey : st' key ≠ none ∨ Orphan w' r B key ∨ ∀ q, Owns B key q → w'.fs.node? q = none) :
    Only w' r B st' := by
  intro q hq hB hconf hnode
  by_cases hown : Owns B key q
  · rcases hkey with hkey | hkey | hkey
    · exact ⟨key, Or.inl hkey, hown⟩
    · exact ⟨key, Or.inr hkey, hown⟩
    · exact absurd (hkey q hown) hnode
  · rw [ht.node q hown] at hnode
    obtain ⟨key', hkey', hown'⟩ := h q hq hB hconf hnode
    have hne : key' ≠ key := by
      rintro rfl
      exact hown hown'
    refine ⟨key', hkey'.imp (hst key' hne) (fun horphan => ?_), hown'⟩
    exact horphan.touches ht (fun heq => hne (horphan.decodable.toString_inj hk heq.symm))

namespace Mirrors

theorem toString_ne (h : Mirrors r B w topics configs st) (hk : key.Decodable) (hne : key' ≠ key)
    (he : st key' = some e) : key.toString ≠ key'.toString :=
  fun heq => hne ((h.decodable key' e he).toString_inj hk heq.symm)

/-- A step that touches one key, and what it leaves of that key. -/
theorem step {topics' : TopicPartition → Option Partition}
    {configs' : TopicPartition → Option CfgInfo} {v : Option Entry}
    (h : Mirrors r B w topics configs st) (hk : key.Decodable) (ht : Touches B key w w')
    (hcalm : w'.Calm) (htopics : ∀ key', key' ≠ key → topics' key' = topics key')
    (hconfigs : ∀ key', key' ≠ key → configs' key' = configs key')
    (hpresent : ∀ e, v = some e → ∃ p cfg, topics' key = some p ∧ HoldsLog w' r B key e p ∧
      configs' key = some cfg ∧ HoldsInfo w' B key e cfg)
    (habsent : v = none → topics' key = none ∧ configs' key = none ∧
      ∀ q, Owns B key q → w'.fs.node? q = none) :
    Mirrors r B w' topics' configs' (Function.update st key v) where
  calm := hcalm
  atBase := ht.atDir h.atBase (List.prefix_append _ _)
  atConf := ht.atDir h.atConf (List.prefix_refl _)
  decodable key' e he := by
    by_cases hkk : key' = key
    · exact hkk ▸ hk
    · rw [Function.update_of_ne hkk] at he
      exact h.decodable key' e he
  present key' e he := by
    by_cases hkk : key' = key
    · subst hkk
      rw [Function.update_self] at he
      exact hpresent e he
    · rw [Function.update_of_ne hkk] at he
      obtain ⟨p, cfg, hp, hlog, hcfg, hinfo⟩ := h.present key' e he
      have hne := h.toString_ne hk hkk he
      exact ⟨p, cfg, (htopics key' hkk).trans hp, hlog.agree (ht.agree hne),
        (hconfigs key' hkk).trans hcfg, hinfo.touches ht hne⟩
  absent key' he := by
    by_cases hkk : key' = key
    · subst hkk
      rw [Function.update_self] at he
      exact ⟨(habsent he).1, (habsent he).2.1⟩
    · rw [Function.update_of_ne hkk] at he
      rw [htopics key' hkk, hconfigs key' hkk]
      exact h.absent key' he
  only := by
    refine h.only.touches hk ht (fun key' hne hkey => ?_) ?_
    · rwa [Function.update_of_ne hne]
    · rw [Function.update_self]
      cases hv : v with
      | none => exact Or.inr (Or.inr (habsent hv).2.2)
      | some e => exact Or.inl (by simp)

/-- A key that is not there owns nothing on the disk, or it is an orphan. -/
theorem vacant (h : Mirrors r B w topics configs st) (hk : key.Decodable) (hkey : st key = none) :
    (∀ q, Owns B key q → w.fs.node? q = none) ∨ Orphan w r B key := by
  by_contra hcon
  rw [not_or, not_forall] at hcon
  obtain ⟨⟨q, hq⟩, hno⟩ := hcon
  rw [Classical.not_imp] at hq
  obtain ⟨hq, hnode⟩ := hq
  obtain ⟨key', hkey', hown⟩ := h.only q hq.below hq.ne_base hq.ne_conf hnode
  have hne : key' ≠ key := by
    rintro rfl
    exact hkey'.elim (fun hne => hne hkey) hno
  have hdec : key'.Decodable := by
    rcases hkey' with hkey' | horphan
    · obtain ⟨e, he⟩ := Option.ne_none_iff_exists'.mp hkey'
      exact h.decodable key' e he
    · exact horphan.decodable
  exact Owns.disjoint (fun heq => hne (hdec.toString_inj hk heq.symm)) hq hown

end Mirrors

/-! ## The operations of a broker -/

/-- The broker holds the logs of `st`. -/
structure Serves (r : RawPath) (B : Path) (b : Broker) (w : World) (st : Store) : Prop where
  basePath : b.basePath = r
  confPath : b.configManager.basePath = r.child Broker.configName
  mirrors : Mirrors r B w (fun key => b.topics.lookup key)
    (fun key => b.configManager.configs.lookup key) st

theorem Broker.partitionPath_eq {b : Broker} (hb : b.basePath = r) (hk : key.Encodable) :
    b.partitionPath key = r.child key.toString := by
  rw [Broker.partitionPath, hb, hk.components_toString]
  rfl

namespace Serves

variable {b : Broker}

theorem home (h : Mirrors r B w topics configs st) (key : TopicPartition) :
    Home w.fs (r.child key.toString) (dirOf B key) :=
  ⟨r, B, key.toString, rfl, rfl, key.plain_toString, h.atBase⟩

theorem topics_none (h : Serves r B b w st) (hkey : st key = none) : key ∉ b.topics := by
  rw [← AList.lookup_eq_none]
  exact (h.mirrors.absent key hkey).1

theorem mem_keys (h : Serves r B b w st) (key : TopicPartition) :
    key ∈ b.keys ↔ st key ≠ none := by
  rw [Broker.keys, (b.order.perm _).mem_iff, ← AList.mem_keys, ← AList.lookup_isSome]
  cases he : st key with
  | none => simp [(h.mirrors.absent key he).1]
  | some e =>
      obtain ⟨p, cfg, hp, -⟩ := h.mirrors.present key e he
      simp [hp]

theorem nodup_keys (_ : Serves r B b w st) : b.keys.Nodup :=
  ((b.order.perm _).nodup_iff).mpr b.topics.keys_nodup

theorem configs_none (h : Serves r B b w st) (hkey : st key = none) :
    key ∉ b.configManager.configs := by
  rw [← AList.lookup_eq_none]
  exact (h.mirrors.absent key hkey).2

theorem touches_conf {S : Path → Prop} (hS : S = fun q => q = cfgOf B key)
    (h : Frame S (FileSystem.Named S w.fs) w w') : Touches B key w w' :=
  .of_frame h (fun q hq => Or.inr (by rwa [hS] at hq))

theorem touches_dir (h : Frame (Under (dirOf B key)) (FileSystem.Named (Under (dirOf B key)) w.fs)
    w w') : Touches B key w w' := .of_frame h (fun _ hq => Or.inl hq)

/-- The config file does not lie below the directory of its key. -/
theorem agree_conf (h : Frame (fun q => q = cfgOf B key)
    (FileSystem.Named (fun q => q = cfgOf B key) w.fs) w w') : Agree (dirOf B key) w w' := by
  refine .of_frame h ?_
  rintro q rfl
  refine ⟨fun hq => key.toString_ne_configName (under_child hq (under_cfgOf key)), fun hq => ?_⟩
  have := hq.length_le
  simp [cfgOf, confDir, dirOf] at this

theorem open_new (h : Mirrors r B w topics configs st) (hk : key.Decodable) (hkey : st key = none)
    (segSize partSize ttl : Int64) :
    ∃ p w', (Partition.new (r.child key.toString) segSize.toInt partSize.toInt ttl.toInt).open w =
        (.ok (), p, w') ∧ HoldsLog w' r B key (.fresh segSize partSize ttl) p ∧
      w'.fs.node? (cfgOf B key) = none ∧ w'.Calm ∧
      Frame (Under (dirOf B key)) (FileSystem.Named (Under (dirOf B key)) w.fs) w w' := by
  obtain ⟨p, w', cs, hopen, hrep, hset, haddr, hold, hsettings⟩ : ∃ p w' cs,
      (Partition.new (r.child key.toString) segSize.toInt partSize.toInt ttl.toInt).open w =
        (.ok (), p, w') ∧ Rep w' (dirOf B key) p cs [] ∧ Settled cs ∧ Addressable cs ∧
      firstBase cs = 0 ∧ p.settings = (r.child key.toString, segSize.toInt, partSize.toInt,
        ttl.toInt) := by
    rcases h.vacant hk hkey with hfree | horphan
    · obtain ⟨p, w', hopen, hrep, hsettings⟩ := open_vacant h.calm h.atBase key.plain_toString
        (fun q hq => hfree q (Or.inl hq)) segSize.toInt partSize.toInt ttl.toInt
      exact ⟨p, w', _, hopen, hrep, settled_empty _ _, addressable_empty _ _, rfl, hsettings⟩
    · obtain ⟨cs, hstored, hset, haddr, -⟩ := horphan.shelved
      obtain ⟨k, p, w', hopen, hre⟩ := open_stored (p := Partition.new (r.child key.toString)
        segSize.toInt partSize.toInt ttl.toInt) h.calm (Fresh.new _ _ _ _) hstored hset
        (by simp [Entry.fresh])
      exact ⟨p, w', cs.drop k, hopen, hre.rep, fun c hc => hset c (List.mem_of_mem_drop hc),
        fun c hc => haddr c (List.mem_of_mem_drop hc),
        Nat.le_zero.mp hre.rep.firstBase_le, hre.settings⟩
  have hfr := (open_frame (Frame.refl (fun _ => id)) (Confined.new
    (I := FileSystem.Named (Under (dirOf B key)) w.fs) (home h key) segSize.toInt partSize.toInt
    ttl.toInt)).1
  rw [hopen] at hfr
  refine ⟨p, w', hopen, ⟨hsettings, cs, hrep, hset, haddr, hold.symm⟩, ?_, hfr.calm h.calm, hfr⟩
  rw [hfr.within.node _ (fun hq => key.toString_ne_configName (under_child hq (under_cfgOf key)))]
  rcases h.vacant hk hkey with hfree | horphan
  · exact hfree _ (Or.inr rfl)
  · exact horphan.unfiled

theorem create (h : Serves r B b w st) (request : TopicPartitionRequest)
    (hkey : key = ⟨request.topic, request.partition⟩) (hk : key.Decodable) (hnew : st key = none) :
    ∃ b' w', b.createPartition request w = (.ok (), b', w') ∧ w'.now = w.now ∧
      Serves r B b' w' (Function.update st key (some (.fresh request.maxSegmentSize
        request.maxPartitionSize request.segmentTtl))) := by
  have hm := h.mirrors
  obtain ⟨p, w₁, hopen, hlog, hcfree, hw₁, hfr⟩ := open_new hm hk hnew request.maxSegmentSize
    request.maxPartitionSize request.segmentTtl
  have ht₁ := touches_dir hfr
  have hat₁ := ht₁.atDir hm.atConf (List.prefix_refl _)
  rw [← h.confPath] at hat₁
  obtain ⟨cfg, i, w₂, hcreate, hon, hinfo, hnode, hheld⟩ := ConfigManager.create_spec
    (hw₁.serving 6) hk.toEncodable hat₁ hcfree request.maxSegmentSize request.maxPartitionSize
    request.segmentTtl
  have hfr₂ := ConfigManager.create_frame (S := fun q => q = cfgOf B key)
    (Frame.refl (w := w₁) (fun _ => id)) (ConfigManager.inside_path hk.toEncodable hat₁ rfl) request.maxSegmentSize
    request.maxPartitionSize request.segmentTtl
  rw [hcreate] at hfr₂
  refine ⟨{ b with
      topics := b.topics.insert key p
      configManager := { b.configManager with
        configs := insertNew b.configManager.configs key cfg } }, w₂, ?_,
    hfr₂.now.trans hfr.now, h.basePath, h.confPath,
    hm.step hk (ht₁.trans (touches_conf rfl hfr₂)) (hfr₂.calm hw₁) ?_ ?_ ?_ ?_⟩
  · unfold Broker.createPartition Broker.createAndAddNewPartition
    rw [← hkey, if_neg (h.topics_none hnew), Broker.partitionPath_eq h.basePath hk.toEncodable, hopen]
    dsimp only
    rw [hcreate]
  · intro key' hne
    exact AList.lookup_insert_ne hne
  · intro key' hne
    exact lookup_insertNew_ne hne _
  · intro e he
    obtain rfl := Option.some.inj he
    have hinfo' : cfg.info = (Entry.fresh request.maxSegmentSize request.maxPartitionSize
        request.segmentTtl).info := hinfo
    exact ⟨p, cfg, AList.lookup_insert _, hlog.agree (agree_conf hfr₂),
      lookup_insertNew (h.configs_none hnew) _, hinfo', i, hon, hnode, hinfo' ▸ hheld⟩
  · intro he
    cases he

end Serves

theorem HoldsLog.confined (h : HoldsLog w r B key e p) (hat : FileSystem.At w.fs r B) :
    p.Confined (dirOf B key) (FileSystem.Named (Under (dirOf B key)) w.fs) w.fs := by
  obtain ⟨cs, hrep, -⟩ := h.chunks
  exact hrep.confined h.path key.plain_toString hat

theorem HoldsLog.delete (h : HoldsLog w r B key e p) (hw : w.Calm) (hat : FileSystem.At w.fs r B) :
    ∃ p' w', p.deletePartition w = (.ok (), p', w') ∧ w'.Calm ∧
      (∀ q, Under (dirOf B key) q → w'.fs.node? q = none) ∧
      Frame (Under (dirOf B key)) (FileSystem.Named (Under (dirOf B key)) w.fs) w w' := by
  obtain ⟨cs, hrep, -⟩ := h.chunks
  obtain ⟨p', w', hdel, hgone⟩ := deletePartition_spec hw hrep (by simp [dirOf])
  have hfr := (deletePartition_frame (Frame.refl (fun _ => id)) (h.confined hat)).1
  rw [hdel] at hfr
  exact ⟨p', w', hdel, hfr.calm hw, hgone, hfr⟩

theorem Mirrors.delete {c : ConfigManager}
    (hm : Mirrors r B w topics (fun key => c.configs.lookup key) st)
    (hbase : c.basePath = r.child Broker.configName) (he : st key = some e) :
    ∃ p p' w₁ w₂, topics key = some p ∧ p.deletePartition w = (.ok (), p', w₁) ∧
      c.remove key w₁ = (.ok (), { c with configs := c.configs.erase key }, w₂) ∧
      w₂.now = w.now ∧
      Mirrors r B w₂ (Function.update topics key none) (fun k => (c.configs.erase key).lookup k)
        (Function.update st key none) := by
  have hk := hm.decodable key e he
  obtain ⟨p, cfg, hp, hlog, hcfg, hinfo⟩ := hm.present key e he
  obtain ⟨p', w₁, hdel, hw₁, hgone, hfr⟩ := hlog.delete hm.calm hm.atBase
  have ht₁ := Serves.touches_dir hfr
  have hat₁ := ht₁.atDir hm.atConf (List.prefix_refl _)
  rw [← hbase] at hat₁
  obtain ⟨i, hon, hnode, -⟩ := hinfo.file
  have hnode₁ : w₁.fs.node? (cfgOf B key) = some (.file i) := by
    rw [hfr.within.node _ (fun hq => key.toString_ne_configName (under_child hq (under_cfgOf key)))]
    exact hnode
  obtain ⟨w₂, hremove, hfs₂, -⟩ := ConfigManager.remove_spec hw₁.obliging hk.toEncodable hat₁ hcfg
    hon hnode₁
  have hfr₂ := ConfigManager.remove_frame (S := fun q => q = cfgOf B key)
    (Frame.refl (w := w₁) (fun _ => id)) (ConfigManager.inside_path hk.toEncodable hat₁ rfl)
  rw [hremove] at hfr₂
  refine ⟨p, p', w₁, w₂, hp, hdel, hremove, hfr₂.now.trans hfr.now,
    hm.step hk (ht₁.trans (Serves.touches_conf rfl hfr₂)) (hfr₂.calm hw₁) ?_ ?_ ?_ ?_⟩
  · intro key' hne
    exact Function.update_of_ne hne _ _
  · intro key' hne
    exact AList.lookup_erase_ne hne
  · intro e' he'
    cases he'
  · intro _
    refine ⟨Function.update_self .., AList.lookup_erase _ _, ?_⟩
    rintro q (hq | rfl)
    · rw [(Serves.agree_conf hfr₂).node q hq]
      exact hgone q hq
    · rw [hfs₂]
      exact (FileSystem.node?_erase _ (by simp) _).trans (if_pos rfl)

namespace Serves

variable {b : Broker}

theorem deletePartition (h : Serves r B b w st) (he : st key = some e) :
    ∃ b' w', b.deletePartition key w = (.ok (), b', w') ∧ w'.now = w.now ∧
      Serves r B b' w' (Function.update st key none) := by
  obtain ⟨p, p', w₁, w₂, hp, hdel, hremove, hnow, hm'⟩ := h.mirrors.delete h.confPath he
  refine ⟨{ b with
      topics := b.topics.erase key
      configManager := { b.configManager with
        configs := b.configManager.configs.erase key } }, w₂, ?_, hnow, h.basePath, h.confPath, ?_⟩
  · unfold Broker.deletePartition
    rw [hp]
    dsimp only
    rw [hdel]
    dsimp only
    rw [hremove]
  · convert hm' using 1
    funext key'
    by_cases hkk : key' = key
    · subst hkk
      rw [Function.update_self, AList.lookup_erase]
    · rw [Function.update_of_ne hkk, AList.lookup_erase_ne hkk]

theorem deletePartition_unknown (h : Serves r B b w st) (hkey : st key = none) :
    b.deletePartition key w = (Broker.unknownTopic key, b, w) := by
  unfold Broker.deletePartition
  rw [(h.mirrors.absent key hkey).1]

theorem sendMessage_unknown (h : Serves r B b w st) (hkey : st key = none) (m : Payload) :
    b.sendMessage key m w = (⟨Broker.unknownTopic key, 0⟩, b, w) := by
  unfold Broker.sendMessage
  rw [(h.mirrors.absent key hkey).1]

theorem sendMessage (h : Serves r B b w st) (he : st key = some e)
    (hready : ∀ p, b.topics.lookup key = some p → p.Ready) {m : Payload} (hm : m.length < 2 ^ 31)
    (hlen : e.log.length + 1 < 2 ^ 63) :
    ∃ n b' w', b.sendMessage key m w = (⟨.ok (), e.log.length⟩, b', w') ∧ e.oldest ≤ n ∧
      n ≤ e.log.length ∧ w'.now = w.now ∧
      Serves r B b' w' (Function.update st key (some (e.push m n))) := by
  have hmir := h.mirrors
  have hk := hmir.decodable key e he
  obtain ⟨p, cfg, hp, hlog, hcfg, hinfo⟩ := hmir.present key e he
  obtain ⟨cs, hrep, hset, haddr, hold⟩ := hlog.chunks
  obtain ⟨p', w₁, cs', hwrite, hrep₁, hwr, hsettings, hw₁, -⟩ :=
    write_ready hmir.calm hrep (hready p hp) (fun c hc _ => hset c hc) hm hlen
  obtain ⟨hle, hge⟩ := hwr.firstBase_le hrep hrep₁
  have hfr := (write_frame (Frame.refl (fun _ => id)) (hlog.confined hmir.atBase) m).1
  rw [hwrite] at hfr
  have ht₁ := touches_dir hfr
  obtain ⟨i, hon, hnode, hheld⟩ := hinfo.file
  have hown : ¬ Under (dirOf B key) (cfgOf B key) :=
    fun hq => key.toString_ne_configName (under_child hq (under_cfgOf key))
  have hnode₁ : w₁.fs.node? (cfgOf B key) = some (.file i) := (hfr.within.node _ hown).trans hnode
  have hheld₁ : cfg.info.Held (w₁.fs.data i).image := by
    rw [hfr.within.file hown hnode, hinfo.info]
    exact hheld
  obtain ⟨cfg', w₂, hupdate, hon', hinfo', hheld', hnode', hnow', hout⟩ :=
    ConfigManager.updateCommitOffset_spec hcfg hon hheld₁ (.ofInt e.log.length)
  have hfr₂ := ConfigManager.updateCommitOffset_frame (S := fun q => q = cfgOf B key)
    (c := b.configManager) (Frame.refl (w := w₁) (fun _ => id)) (by
      intro cfg₀ hcfg₀
      obtain rfl := Option.some.inj (hcfg.symm.trans hcfg₀)
      rw [hon.addr]
      exact Or.inr ⟨_, rfl, hnode₁⟩) (.ofInt e.log.length)
  rw [hupdate] at hfr₂
  have hpm := mem_of_lookup hp
  have hcm := mem_of_lookup hcfg
  refine ⟨firstBase cs', { b with
      topics := b.topics.replace key p'
      configManager := { b.configManager with
        configs := b.configManager.configs.replace key cfg' } }, w₂, ?_, hold.trans_le hle, hge,
    hfr₂.now.trans hfr.now, h.basePath, h.confPath,
    hmir.step hk (ht₁.trans (touches_conf rfl hfr₂)) (hfr₂.calm hw₁) ?_ ?_ ?_ ?_⟩
  · unfold Broker.sendMessage
    rw [hp]
    dsimp only
    rw [hwrite]
    dsimp only
    rw [hupdate]
  · intro key' hne
    exact lookup_replace_ne hne _
  · intro key' hne
    exact lookup_replace_ne hne _
  · intro e' he'
    obtain rfl := Option.some.inj he'
    have hinfo₂ : cfg'.info = (e.push m (firstBase cs')).info := by
      rw [hinfo', hinfo.info, Entry.info_push]
    refine ⟨p', cfg', lookup_replace_same hpm _, ⟨hsettings.trans hlog.settings, cs',
      (agree_conf hfr₂).rep hrep₁, hwr.settled hset, hwr.addressable haddr, rfl⟩,
      lookup_replace_same hcm _, hinfo₂, i, hon', ?_, hinfo₂ ▸ hheld'⟩
    rw [hnode']
    exact hnode₁
  · intro he'
    cases he'

theorem createPartition_again (h : Serves r B b w st) (request : TopicPartitionRequest)
    (hkey : st ⟨request.topic, request.partition⟩ ≠ none) :
    ∃ e, b.createPartition request w = (.error e, b, w) := by
  obtain ⟨e, he⟩ := Option.ne_none_iff_exists'.mp hkey
  obtain ⟨p, cfg, hp, -⟩ := h.mirrors.present _ e he
  unfold Broker.createPartition
  dsimp only
  rw [if_pos (mem_of_lookup hp)]
  exact ⟨_, rfl⟩

end Serves

/-! ## Deleting a topic -/

theorem Broker.deleteEntries_spec {todo : List TopicPartition} : ∀ {b : Broker} {w : World}
    {topics : TopicPartition → Option Partition} {st : Store}, todo.Nodup →
    b.configManager.basePath = r.child Broker.configName →
    Mirrors r B w topics (fun key => b.configManager.configs.lookup key) st →
    (∀ key ∈ todo, st key ≠ none ∧ topics key = b.topics.lookup key) →
    ∃ b' w', Broker.deleteEntries todo b w = (.ok (), b', w') ∧ w'.now = w.now ∧
      b'.basePath = b.basePath ∧ b'.configManager.basePath = r.child Broker.configName ∧
      Mirrors r B w' (fun key => if key ∈ todo then none else topics key)
        (fun key => b'.configManager.configs.lookup key)
        (fun key => if key ∈ todo then none else st key) ∧
      ∀ key ∉ todo, b'.topics.lookup key = b.topics.lookup key := by
  induction todo with
  | nil =>
      intro b w topics st _ hconf hm _
      exact ⟨b, w, rfl, rfl, rfl, hconf, by simpa using hm, fun _ _ => rfl⟩
  | cons key todo ih =>
      intro b w topics st hnodup hconf hm htodo
      obtain ⟨hfresh, hnodup⟩ := List.nodup_cons.mp hnodup
      obtain ⟨hkey, htop⟩ := htodo key List.mem_cons_self
      obtain ⟨e, he⟩ := Option.ne_none_iff_exists'.mp hkey
      obtain ⟨p, p', w₁, w₂, hp, hdel, hremove, hnow, hm₂⟩ := hm.delete hconf he
      have hne : ∀ k ∈ todo, k ≠ key := by
        rintro k hk rfl
        exact hfresh hk
      obtain ⟨b', w', hrest, hnow', hbase, hconf', hm', hother⟩ := ih
        (b := { b with
          topics := b.topics.replace key p'
          configManager := { b.configManager with
            configs := b.configManager.configs.erase key } }) hnodup hconf hm₂ (by
          intro k hk
          obtain ⟨hk₁, hk₂⟩ := htodo k (List.mem_cons_of_mem key hk)
          rw [Function.update_of_ne (hne k hk), Function.update_of_ne (hne k hk), hk₂]
          exact ⟨hk₁, (lookup_replace_ne (hne k hk) _).symm⟩)
      have hmerge : ∀ {α : Type} (f : TopicPartition → Option α),
          (fun k => if k ∈ todo then none else Function.update f key none k) =
            fun k => if k ∈ key :: todo then none else f k := by
        intro α f
        funext k
        by_cases hkk : k = key
        · subst hkk
          simp
        · simp [hkk]
      rw [hmerge, hmerge] at hm'
      refine ⟨b', w', ?_, hnow'.trans hnow, hbase, hconf', hm', ?_⟩
      · rw [Broker.deleteEntries, ← htop, hp]
        dsimp only
        rw [hdel]
        dsimp only
        rw [hremove]
        exact hrest
      · intro k hk
        rw [List.mem_cons, not_or] at hk
        rw [hother k hk.2]
        exact lookup_replace_ne hk.1 _

theorem Broker.eraseTopics_spec (keys : List TopicPartition) (b : Broker) :
    (Broker.eraseTopics keys b).basePath = b.basePath ∧
      (Broker.eraseTopics keys b).configManager = b.configManager ∧
      ∀ key, (Broker.eraseTopics keys b).topics.lookup key =
        if key ∈ keys then none else b.topics.lookup key := by
  induction keys generalizing b with
  | nil => exact ⟨rfl, rfl, by simp [Broker.eraseTopics]⟩
  | cons k keys ih =>
      obtain ⟨hbase, hconf, hlook⟩ := ih { b with topics := b.topics.erase k }
      refine ⟨hbase, hconf, ?_⟩
      intro key
      rw [Broker.eraseTopics, hlook key]
      by_cases hkk : key = k
      · subst hkk
        simp
      · simp [hkk, AList.lookup_erase_ne hkk]

/-- The logs of the other topics. -/
def Store.without (st : Store) (topic : Str) : Store :=
  fun key => if key.topic = topic then none else st key

theorem Serves.deleteTopic {b : Broker} (h : Serves r B b w st) (topic : Str) :
    ∃ b' w', b.deleteTopic topic w = (.ok (), b', w') ∧ w'.now = w.now ∧
      Serves r B b' w' (st.without topic) := by
  have hm := h.mirrors
  set todo := b.keys.filter (fun key => key.topic = topic) with htodo
  have hmem : ∀ key, key ∈ todo ↔ st key ≠ none ∧ key.topic = topic := by
    intro key
    rw [htodo, List.mem_filter, h.mem_keys key, decide_eq_true_eq]
  obtain ⟨b', w', hdel, hnow, hbase, hconf, hm', hother⟩ := Broker.deleteEntries_spec
    (h.nodup_keys.filter _) h.confPath hm
    (fun key hkey => ⟨((hmem key).mp hkey).1, rfl⟩)
  obtain ⟨hbase₂, hconf₂, hlook₂⟩ := Broker.eraseTopics_spec todo b'
  have hst : (fun key => if key ∈ todo then none else st key) = st.without topic := by
    funext key
    rw [Store.without]
    by_cases ht : key.topic = topic
    · rw [if_pos ht]
      split_ifs with hin
      · rfl
      · by_contra hne
        exact hin ((hmem key).mpr ⟨hne, ht⟩)
    · rw [if_neg ht, if_neg (fun hin => ht ((hmem key).mp hin).2)]
  have htop : (fun key => (Broker.eraseTopics todo b').topics.lookup key) =
      fun key => if key ∈ todo then none else b.topics.lookup key := by
    funext key
    rw [hlook₂ key]
    split_ifs with hin
    · rfl
    · exact hother key hin
  refine ⟨_, w', ?_, hnow, (hbase₂.trans hbase).trans h.basePath, ?_, ?_⟩
  · rw [Broker.deleteTopic, ← htodo, hdel]
  · rw [hconf₂]
    exact hconf
  · rw [htop, hconf₂, ← hst]
    exact hm'

end MyKafka
