import MyKafka.BrokerClosable
import MyKafka.BrokerIsolation

/-!
# Deleting topics

A deletion whose calls are served leaves nothing of its keys and everything of the others. So the
topic can as well be deleted partition by partition, in any order.
-/

namespace Posix.World

variable {w : World} {r : RawPath} {p q : Path}

theorem remove_gone (hr : w.fs.resolve r = some p) (hp : p ≠ [])
    (hempty : ∀ n, w.fs.node? (p ++ [n]) = none) : (w.remove r).fs.node? p = none := by
  have hchildren : w.fs.children p = [] := by
    rw [List.eq_nil_iff_forall_not_mem]
    intro n hn
    exact (FileSystem.mem_children _ _ _).mp hn (hempty n)
  have herase : (w.fs.erase p).node? p = none := by rw [FileSystem.node?_erase _ hp, if_pos rfl]
  unfold remove
  rw [hr]
  dsimp only
  split
  · next hnone => exact hnone
  · exact herase
  · rw [if_pos hchildren]
    exact herase

theorem remove_adds_nothing (r : RawPath) (hq : w.fs.node? q = none) :
    (w.remove r).fs.node? q = none := by
  have hne : q ≠ [] := by
    rintro rfl
    cases hq
  have herase : ∀ p, (w.fs.erase p).node? q = none := by
    intro p
    rw [FileSystem.erase, FileSystem.node?_discard _ _ hne, hq, ite_self]
  unfold remove
  split
  · exact hq
  · split
    · exact hq
    · exact herase _
    · split_ifs
      · exact herase _
      · exact hq

theorem removeAll_gone (hr : w.fs.resolve r = some p) (hp : p ≠ []) (hq : p <+: q) :
    (w.removeAll r).fs.node? q = none := by
  unfold removeAll
  rw [hr]
  exact (FileSystem.node?_removeTree _ hp q).trans (if_pos hq)

end Posix.World

namespace MyKafka

open Posix MyKafka.Partition

/-- Below the base path there is only what keys own. -/
def Claimed (B : Path) (fs : FileSystem) : Prop :=
  ∀ q, Under B q → q ≠ B → q ≠ confDir B → (∀ key, ¬ Owns B key q) → fs.node? q = none

/-- The partition of the key and its config file can be closed. -/
structure Broker.Deletable (b : Broker) (key : TopicPartition) : Prop where
  partition : ∃ p, b.topics.lookup key = some p ∧ p.Closable
  config : ∃ cfg i, b.configManager.configs.lookup key = some cfg ∧ cfg.OpenOn i

/-- Of the keys `K` the config store and the disk hold nothing any more, of the others all they
held. -/
structure Cleared (B : Path) (K : TopicPartition → Prop) (b : Broker) (w : World) (b' : Broker)
    (w' : World) : Prop where
  configs : ∀ key, K key → b'.configManager.configs.lookup key = none
  nodes : ∀ key q, K key → Owns B key q → w'.fs.node? q = none
  otherTopics : ∀ key, ¬ K key → b'.topics.lookup key = b.topics.lookup key
  otherConfigs : ∀ key, ¬ K key →
    b'.configManager.configs.lookup key = b.configManager.configs.lookup key
  otherNodes : ∀ q, (∀ key, K key → ¬ Owns B key q) → w'.fs.node? q = w.fs.node? q
  otherFiles : ∀ q i, (∀ key, K key → ¬ Owns B key q) → w.fs.node? q = some (.file i) →
    w'.fs.data i = w.fs.data i

/-- The keys `K` are gone altogether. -/
structure Removed (B : Path) (K : TopicPartition → Prop) (b : Broker) (w : World) (b' : Broker)
    (w' : World) : Prop extends Cleared B K b w b' w' where
  topics : ∀ key, K key → b'.topics.lookup key = none

/-- The two servers hold the same entries and the same files. -/
structure Alike (srv srv' : Server) : Prop where
  topics : ∀ key, srv'.broker.topics.lookup key = srv.broker.topics.lookup key
  configs : ∀ key, srv'.broker.configManager.configs.lookup key =
    srv.broker.configManager.configs.lookup key
  nodes : ∀ q, srv'.world.fs.node? q = srv.world.fs.node? q
  files : ∀ q i, srv.world.fs.node? q = some (.file i) →
    srv'.world.fs.data i = srv.world.fs.data i

variable {r : RawPath} {B : Path} {b b' b'' : Broker} {w w' w'' : World}
  {own own' : Name → ℕ → Prop} {key key' : TopicPartition} {K K' K'' : TopicPartition → Prop}
  {p : Partition} {keys : List TopicPartition}

namespace Cleared

theorem refl (B : Path) (b : Broker) (w : World) : Cleared B (fun _ => False) b w b w :=
  ⟨fun _ h => h.elim, fun _ _ h => h.elim, fun _ _ => rfl, fun _ _ => rfl, fun _ _ => rfl,
    fun _ _ _ _ => rfl⟩

theorem trans (h : Cleared B K b w b' w') (h' : Cleared B K' b' w' b'' w'')
    (hK : ∀ key, K'' key ↔ K key ∨ K' key) : Cleared B K'' b w b'' w'' where
  configs key hkey := by
    by_cases hk : K' key
    · exact h'.configs key hk
    · rw [h'.otherConfigs key hk]
      exact h.configs key (((hK key).mp hkey).resolve_right hk)
  nodes key q hkey hq := by
    by_cases hk : ∃ key', K' key' ∧ Owns B key' q
    · obtain ⟨key', hk', hq'⟩ := hk
      exact h'.nodes key' q hk' hq'
    · rw [h'.otherNodes q (fun key' hk' hq' => hk ⟨key', hk', hq'⟩)]
      refine h.nodes key q (((hK key).mp hkey).resolve_right (fun hk' => ?_)) hq
      exact hk ⟨key, hk', hq⟩
  otherTopics key hkey := by
    rw [h'.otherTopics key (fun hk => hkey ((hK key).mpr (Or.inr hk))),
      h.otherTopics key (fun hk => hkey ((hK key).mpr (Or.inl hk)))]
  otherConfigs key hkey := by
    rw [h'.otherConfigs key (fun hk => hkey ((hK key).mpr (Or.inr hk))),
      h.otherConfigs key (fun hk => hkey ((hK key).mpr (Or.inl hk)))]
  otherNodes q hq := by
    rw [h'.otherNodes q (fun key hk => hq key ((hK key).mpr (Or.inr hk))),
      h.otherNodes q (fun key hk => hq key ((hK key).mpr (Or.inl hk)))]
  otherFiles q i hq hi := by
    have hfree : ∀ key, K key → ¬ Owns B key q := fun key hk => hq key ((hK key).mpr (Or.inl hk))
    rw [h'.otherFiles q i (fun key hk => hq key ((hK key).mpr (Or.inr hk)))
      ((h.otherNodes q hfree).trans hi), h.otherFiles q i hfree hi]

end Cleared

namespace Removed

theorem trans (h : Removed B K b w b' w') (h' : Removed B K' b' w' b'' w'')
    (hK : ∀ key, K'' key ↔ K key ∨ K' key) : Removed B K'' b w b'' w'' := by
  refine ⟨h.toCleared.trans h'.toCleared hK, fun key hkey => ?_⟩
  by_cases hk : K' key
  · exact h'.topics key hk
  · rw [h'.otherTopics key hk]
    exact h.topics key (((hK key).mp hkey).resolve_right hk)

theorem of_fs {w₁ w₁' : World} (h : Removed B K b w b' w') (hw : w₁.fs = w.fs)
    (hw' : w₁'.fs = w'.fs) : Removed B K b w₁ b' w₁' := by
  refine ⟨⟨h.configs, ?_, h.otherTopics, h.otherConfigs, ?_, ?_⟩, h.topics⟩
  · rw [hw']
    exact h.nodes
  · rw [hw, hw']
    exact h.otherNodes
  · rw [hw, hw']
    exact h.otherFiles

theorem alike {srv srv' srv'' : Server}
    (h : Removed B K srv.broker srv.world srv'.broker srv'.world)
    (h' : Removed B K srv.broker srv.world srv''.broker srv''.world) : Alike srv' srv'' where
  topics key := by
    by_cases hk : K key
    · rw [h'.topics key hk, h.topics key hk]
    · rw [h'.otherTopics key hk, h.otherTopics key hk]
  configs key := by
    by_cases hk : K key
    · rw [h'.configs key hk, h.configs key hk]
    · rw [h'.otherConfigs key hk, h.otherConfigs key hk]
  nodes q := by
    by_cases hk : ∃ key, K key ∧ Owns B key q
    · obtain ⟨key, hk, hq⟩ := hk
      rw [h'.nodes key q hk hq, h.nodes key q hk hq]
    · have hfree : ∀ key, K key → ¬ Owns B key q := fun key hkey hq => hk ⟨key, hkey, hq⟩
      rw [h'.otherNodes q hfree, h.otherNodes q hfree]
  files q i hi := by
    have hfree : ∀ key, K key → ¬ Owns B key q := by
      intro key hk hq
      rw [h.nodes key q hk hq] at hi
      cases hi
    rw [h.otherNodes q hfree] at hi
    rw [h'.otherFiles q i hfree hi, h.otherFiles q i hfree hi]

end Removed

theorem Spares.claimed (h : Spares B K b w own b' w' own') (hcl : Claimed B w.fs) :
    Claimed B w'.fs := by
  intro q hq hB hconf hfree
  rw [h.node q (fun key _ => hfree key)]
  exact hcl q hq hB hconf hfree

theorem Spares.others (h : Spares B K b w own b' w' own') (hdiv : Divided r B b w own)
    (hcl : Claimed B w.fs) {q : Path} {i : ℕ} (hq : ∀ key, K key → ¬ Owns B key q)
    (hi : w.fs.node? q = some (.file i)) : w'.fs.data i = w.fs.data i := by
  by_cases hB : Under B q
  · have howned : ∃ key, Owns B key q := by
      by_contra hno
      push Not at hno
      have hnone := hcl q hB ?_ ?_ hno
      · rw [hi] at hnone
        cases hnone
      · rintro rfl
        have hdir := hdiv.atBase.isDir
        rw [FileSystem.IsDir, hi] at hdir
        cases hdir
      · rintro rfl
        have hdir := hdiv.atConf.isDir
        rw [FileSystem.IsDir, hi] at hdir
        cases hdir
    obtain ⟨key, hown⟩ := howned
    refine h.data _ i (fun key' hkey' heq => ?_) (hdiv.named key q i hown hi)
    exact hq key' hkey' (owns_congr heq.symm hown)
  · exact h.outside q i hB hi

/-- The keys that are not worked on keep all they have. -/
theorem Spares.cleared (h : Spares B K b w own b' w' own') (hdiv : Divided r B b w own)
    (hcl : Claimed B w.fs)
    (hconfigs : ∀ key, K key → b'.configManager.configs.lookup key = none)
    (hnodes : ∀ key q, K key → Owns B key q → w'.fs.node? q = none) : Cleared B K b w b' w' where
  configs := hconfigs
  nodes := hnodes
  otherTopics := h.topics
  otherConfigs := h.configs
  otherNodes q hq := h.node q hq
  otherFiles _ _ hq hi := h.others hdiv hcl hq hi

namespace Broker.Deletable

theorem partition_closable (h : b.Deletable key) (hp : b.topics.lookup key = some p) :
    p.Closable := by
  obtain ⟨p', hp', hclosable⟩ := h.partition
  rw [hp, Option.some.injEq] at hp'
  exact hp' ▸ hclosable

theorem congr (h : b.Deletable key) (htopics : b'.topics.lookup key = b.topics.lookup key)
    (hconfigs : b'.configManager.configs.lookup key = b.configManager.configs.lookup key) :
    b'.Deletable key := by
  obtain ⟨⟨p, hp, hclosable⟩, cfg, i, hcfg, hopen⟩ := h
  exact ⟨⟨p, htopics.trans hp, hclosable⟩, cfg, i, hconfigs.trans hcfg, hopen⟩

end Broker.Deletable

theorem Broker.Closable.deletable (hb : b.Closable) (hkey : key ∈ b.topics)
    (hcfg : key ∈ b.configManager.configs) : b.Deletable key := by
  obtain ⟨p, hp⟩ := Option.isSome_iff_exists.mp (AList.lookup_isSome.mpr hkey)
  obtain ⟨cfg, hcfg⟩ := Option.isSome_iff_exists.mp (AList.lookup_isSome.mpr hcfg)
  obtain ⟨i, hopen⟩ := hb.configs key cfg hcfg
  exact ⟨⟨p, hp, hb.partitions key p hp⟩, cfg, i, hcfg, hopen⟩

/-! ## One key -/

namespace Divided

theorem directory_gone (h : Divided r B b w own) (hp : b.topics.lookup key = some p) {q : Path}
    (hq : Under (dirOf B key) q) :
    ((p.close w).2.2.removeAll p.path).fs.node? q = none := by
  obtain ⟨hconf, -⟩ := h.topics key p hp
  obtain ⟨hfr, -⟩ := close_frame (.refl (h.named_dir key)) hconf
  have hhome : Home (p.close w).2.2.fs p.path (dirOf B key) :=
    hconf.home.frame hfr (fun q hq => by
      rw [dirOf, List.dropLast_concat]
      exact Home.not_under B key.toString q hq)
  obtain ⟨r', b', n, hpath, hdir, hn, hat⟩ := hhome.single
  refine World.removeAll_gone ?_ (by simp [dirOf]) hq
  rw [hpath, hdir]
  exact hat.child hn

/-- The config file goes, since nothing can be below it. -/
theorem config_gone (h : Divided r B b w own) (hcl : Claimed B w.fs) (hk : key.Encodable) :
    (w.remove (b.configManager.path key)).fs.node? (cfgOf B key) = none := by
  refine World.remove_gone ?_ (by simp [cfgOf]) (fun n => ?_)
  · rw [ConfigManager.path_eq hk]
    exact h.conf.child key.plain_cfgName
  · have hbelow : Under (confDir B) (cfgOf B key ++ [n]) :=
      (under_cfgOf key).trans (List.prefix_append _ _)
    apply hcl
    · exact (List.prefix_append _ _).trans hbelow
    · intro heq
      have := congrArg List.length heq
      simp [cfgOf, confDir] at this
    · intro heq
      have := congrArg List.length heq
      simp [cfgOf] at this
    · rintro key' (hown | hown)
      · exact key'.toString_ne_configName (under_child hown hbelow)
      · have := congrArg List.length hown
        simp [cfgOf] at this

theorem clear (h : Divided r B b w own) (hcl : Claimed B w.fs) (hw : w.Obliging)
    (hdel : b.Deletable key) (hp : b.topics.lookup key = some p) :
    ∃ p' w₁ c w₂, p.deletePartition w = (.ok (), p', w₁) ∧
      b.configManager.remove key w₁ = (.ok (), c, w₂) ∧ w₂.Obliging ∧
      Respects r B (fun key' => key' = key) b w own
        { b with topics := b.topics.replace key p', configManager := c } w₂ ∧
      Cleared B (fun key' => key' = key) b w
        { b with topics := b.topics.replace key p', configManager := c } w₂ := by
  obtain ⟨cfg, i, hcfg, hopen⟩ := hdel.config
  obtain ⟨p', w', hpart, -, hw', hout⟩ := (hdel.partition_closable hp).deletePartition hw
  have hgone : ∀ q, Under (dirOf B key) q → (w'.removeAll p.path).fs.node? q = none := by
    rw [hw']
    exact fun q => h.directory_gone hp
  obtain ⟨w₁, hrem, hfs, hw₁⟩ := ConfigManager.remove_open (World.obliging_removeAll hout p.path)
    hcfg hopen
  have hpartition := h.deletePartition hp
  rw [hpart] at hpartition
  obtain ⟨own₁, h₁, hsp₁⟩ := hpartition
  have hhas : ({ b with topics := b.topics.replace key p' } : Broker).Has key := mem_replace p' hp
  have hk : key.Encodable := h₁.encodable key hhas
  have hresp := Respects.trans ⟨own₁, h₁, hsp₁⟩ (fun own' h' => h'.remove hk (h'.free hhas))
  dsimp only at hresp
  rw [hrem] at hresp
  refine ⟨p', _, _, _, hpart, hrem, World.obliging_remove hw₁ _, hresp, ?_⟩
  obtain ⟨own₂, -, hsp⟩ := hresp
  refine hsp.cleared h hcl ?_ ?_
  · rintro key' rfl
    exact AList.lookup_erase _ _
  · rintro key' q rfl hq
    have h₁' : Divided r B { b with topics := b.topics.replace key' p' } w₁ own₁ := h₁.of_fs hfs
    rcases hq with hq | rfl
    · apply World.remove_adds_nothing
      rw [hfs]
      exact hgone q hq
    · exact h₁'.config_gone (hfs ▸ hsp₁.claimed hcl) hk

theorem deletePartition_removed (h : Divided r B b w own) (hcl : Claimed B w.fs)
    (hw : w.Obliging) (hdel : b.Deletable key) :
    ∃ b' w', b.deletePartition key w = (.ok (), b', w') ∧
      Removed B (fun key' => key' = key) b w b' w' := by
  obtain ⟨p, hp, -⟩ := hdel.partition
  obtain ⟨p', w₁, c, w₂, hpart, hrem, -, -, hclear⟩ := h.clear hcl hw hdel hp
  refine ⟨{ b with topics := b.topics.erase key, configManager := c }, w₂, ?_,
    ⟨hclear.configs, hclear.nodes, fun key' hne => AList.lookup_erase_ne hne, hclear.otherConfigs,
      hclear.otherNodes, hclear.otherFiles⟩, ?_⟩
  · unfold Broker.deletePartition
    rw [hp]
    dsimp only
    rw [hpart]
    dsimp only
    rw [hrem]
  · rintro key' rfl
    exact AList.lookup_erase _ _

/-! ## The keys of a topic -/

theorem deleteEntries_cleared (h : Divided r B b w own) (hcl : Claimed B w.fs) (hw : w.Obliging)
    (hnodup : keys.Nodup) (hdel : ∀ key ∈ keys, b.Deletable key) :
    ∃ b' w', Broker.deleteEntries keys b w = (.ok (), b', w') ∧
      Cleared B (fun key => key ∈ keys) b w b' w' := by
  induction keys generalizing b w own with
  | nil =>
      refine ⟨b, w, rfl, ?_⟩
      simpa only [List.not_mem_nil] using Cleared.refl B b w
  | cons key keys ih =>
      obtain ⟨hfresh, hnodup⟩ := List.nodup_cons.mp hnodup
      have hkey := hdel key List.mem_cons_self
      obtain ⟨p, hp, -⟩ := hkey.partition
      obtain ⟨p', w₁, c, w₂, hpart, hrem, hw₂, hresp, hclear⟩ := h.clear hcl hw hkey hp
      obtain ⟨own₂, h₂, hsp⟩ := hresp
      have hrest : ∀ key' ∈ keys,
          ({ b with topics := b.topics.replace key p', configManager := c } : Broker).Deletable
            key' := by
        intro key' hin
        have hne : key' ≠ key := by
          rintro rfl
          exact hfresh hin
        exact (hdel key' (List.mem_cons_of_mem key hin)).congr (hclear.otherTopics key' hne)
          (hclear.otherConfigs key' hne)
      obtain ⟨b', w', hloop, hclear'⟩ := ih h₂ (hsp.claimed hcl) hw₂ hnodup hrest
      refine ⟨b', w', ?_, hclear.trans hclear' (fun key' => List.mem_cons)⟩
      rw [Broker.deleteEntries, hp]
      dsimp only
      rw [hpart]
      dsimp only
      rw [hrem]
      exact hloop

end Divided

theorem Broker.lookup_eraseTopics (b : Broker) (keys : List TopicPartition) (key : TopicPartition) :
    (Broker.eraseTopics keys b).topics.lookup key =
      if key ∈ keys then none else b.topics.lookup key := by
  induction keys generalizing b with
  | nil => rfl
  | cons key' keys ih =>
      rw [Broker.eraseTopics, ih]
      by_cases hkey : key = key'
      · subst hkey
        simp
      · simp [hkey, AList.lookup_erase_ne]

theorem Broker.configManager_eraseTopics (b : Broker) (keys : List TopicPartition) :
    (Broker.eraseTopics keys b).configManager = b.configManager := by
  induction keys generalizing b with
  | nil => rfl
  | cons key keys ih => exact ih _

theorem Broker.mem_deleteList (b : Broker) (topic : Str) (key : TopicPartition) :
    key ∈ b.keys.filter (fun key => key.topic = topic) ↔ key ∈ b.topics ∧ key.topic = topic := by
  rw [List.mem_filter, Broker.keys, (b.order.perm _).mem_iff, ← AList.mem_keys, decide_eq_true_iff]

theorem Broker.nodup_deleteList (b : Broker) (topic : Str) :
    (b.keys.filter (fun key => key.topic = topic)).Nodup :=
  (((b.order.perm _).nodup_iff).mpr b.topics.keys_nodup).filter _

namespace Divided

theorem deleteTopic_removed (h : Divided r B b w own) (hcl : Claimed B w.fs) (hw : w.Obliging)
    {topic : Str} (hdel : ∀ key ∈ b.topics, key.topic = topic → b.Deletable key) :
    ∃ b' w', b.deleteTopic topic w = (.ok (), b', w') ∧
      Removed B (fun key => key ∈ b.topics ∧ key.topic = topic) b w b' w' := by
  have hmem := b.mem_deleteList topic
  obtain ⟨b₁, w₁, hloop, hclear⟩ := h.deleteEntries_cleared hcl hw (b.nodup_deleteList topic)
    (fun key hkey => hdel key ((hmem key).mp hkey).1 ((hmem key).mp hkey).2)
  simp only [hmem] at hclear
  refine ⟨Broker.eraseTopics (b.keys.filter (fun key => key.topic = topic)) b₁, w₁, ?_,
    ⟨?_, hclear.nodes, ?_, ?_, hclear.otherNodes, hclear.otherFiles⟩, ?_⟩
  · unfold Broker.deleteTopic
    dsimp only
    rw [hloop]
  · rw [Broker.configManager_eraseTopics]
    exact hclear.configs
  · intro key hkey
    rw [Broker.lookup_eraseTopics, if_neg (fun hin => hkey ((hmem key).mp hin))]
    exact hclear.otherTopics key hkey
  · rw [Broker.configManager_eraseTopics]
    exact hclear.otherConfigs
  · intro key hkey
    rw [Broker.lookup_eraseTopics, if_pos ((hmem key).mpr hkey)]

end Divided

/-! ## Runs -/

/-- A creation is of a key that is read back from the names of its files. -/
def Request.Decodable : Request → Prop
  | .createPartition request => request.key.Decodable
  | _ => True

instance : (request : Request) → Decidable request.Decodable
  | .createPartition request =>
    decidable_of_iff ('/' ∉ request.topic ∧ Char.ofNat 0 ∉ request.topic ∧
        0 ≤ request.partition.toInt)
      ⟨fun ⟨hslash, hnull, hnonneg⟩ => ⟨⟨hslash, hnull⟩, hnonneg⟩,
        fun h => ⟨h.slash, h.null, h.nonneg⟩⟩
  | .tick _ | .deletePartition _ | .deleteTopic _ | .sendMessage _ _ | .getMessage _ _
  | .getOffsets _ | .restart _ => inferInstanceAs (Decidable True)

/-- A broker whose keys are told apart by their names, with nothing else below its base path. -/
structure Orderly (r : RawPath) (B : Path) (srv : Server) : Prop where
  owners : HasOwners r B srv
  claimed : Claimed B srv.world.fs
  loadable : ∀ key, srv.broker.Has key → key.Loadable

/-- What a step leaves of the keys it does not work on is loadable, if it was. -/
theorem Spares.loadable (h : Spares B K b w own b' w' own')
    (hload : ∀ key, b.Has key → key.Loadable) (hK : ∀ key, K key → key.Loadable) :
    ∀ key, b'.Has key → key.Loadable := by
  intro key hkey
  by_cases hk : K key
  · exact hK key hk
  · refine hload key (hkey.imp (fun hin => ?_) (fun hin => ?_))
    · rw [← AList.lookup_isSome] at hin ⊢
      rwa [← h.topics key hk]
    · rw [← AList.lookup_isSome] at hin ⊢
      rwa [← h.configs key hk]

namespace Orderly

variable {srv : Server} {request : Request} {x : Request × List Outcome}

theorem admits (h : Orderly r B srv) (hreq : request.Decodable) : srv.broker.Admits request := by
  cases request with
  | createPartition request =>
      refine Or.inr ⟨hreq.toEncodable, fun key' hkey' heq => ?_⟩
      exact (h.loadable key' hkey').toString_inj (Or.inl hreq.nonneg) heq
  | _ => trivial

theorem loadable_restart (h : Divided r B srv.broker srv.world own) (closing : Bool) :
    ∀ key, (srv.restart closing).2.broker.Has key → key.Loadable := by
  obtain ⟨b', own₁, h₁, -⟩ := h.leave closing
  obtain ⟨own₂, h₂, -⟩ := h₁.reborn srv.broker.order
  have hnone : ∀ key, (Broker.new r srv.broker.order (srv.leave closing)).1.Has key →
      key.Loadable := by
    rintro key (hkey | hkey) <;> exact absurd hkey (AList.notMem_empty key)
  obtain ⟨own₃, h₃, hsp₃⟩ := h₂.loadFiles (fun _ => h₂.names) hnone
  have hload₃ := hsp₃.loadable hnone (fun key hkey => (h₂.names hkey).2)
  unfold Server.restart
  rw [h.basePath]
  obtain ⟨own₄, -, hsp₄⟩ := h₃.loadPartitions _
  apply hsp₄.loadable hload₃
  intro key hkey
  refine hload₃ key (Or.inr ?_)
  rwa [ConfigManager.keys, (ConfigManager.order _).perm _ |>.mem_iff, ← AList.mem_keys] at hkey

theorem loadable_step (srv : Server) (h : Divided r B srv.broker srv.world own)
    (hload : ∀ key, srv.broker.Has key → key.Loadable) (hadm : srv.broker.Admits request)
    (hreq : request.Decodable) : ∀ key, (srv.step request).2.broker.Has key → key.Loadable := by
  cases request with
  | tick seconds => exact hload
  | createPartition request =>
      obtain ⟨own', -, hsp⟩ := h.createPartition request hadm
      exact hsp.loadable hload (fun key hkey => hkey ▸ Or.inl hreq.nonneg)
  | deletePartition key =>
      obtain ⟨own', -, hsp⟩ := h.deletePartition_request key
      by_cases hmem : key ∈ srv.broker.topics
      · exact hsp.loadable hload (fun key' hkey' => hkey' ▸ hload key (Or.inl hmem))
      · rw [Server.step, Broker.deletePartition, AList.lookup_eq_none.mpr hmem]
        exact hload
  | deleteTopic topic =>
      obtain ⟨own', -, hsp⟩ := h.deleteTopic topic
      exact hsp.loadable hload (fun key hkey => hload key (Or.inl hkey.2))
  | sendMessage key payload =>
      obtain ⟨own', -, hsp⟩ := h.sendMessage key payload
      by_cases hmem : key ∈ srv.broker.topics
      · exact hsp.loadable hload (fun key' hkey' => hkey' ▸ hload key (Or.inl hmem))
      · rw [Server.step, Broker.sendMessage, AList.lookup_eq_none.mpr hmem]
        exact hload
  | getMessage key offset => exact hload
  | getOffsets key => exact hload
  | restart closing => exact loadable_restart h closing

theorem stepWith (h : Orderly r B srv) (hreq : x.1.Decodable) :
    Orderly r B (srv.stepWith x).2 := by
  obtain ⟨-, own, hdiv⟩ := h.owners
  have hadm := h.admits hreq
  have h₀ : Divided r B srv.broker { srv.world with outcomes := x.2 } own := hdiv.of_fs rfl
  obtain ⟨own', hdiv', hsp⟩ := hdiv.stepWith hadm
  exact ⟨⟨rfl, own', hdiv'⟩, hsp.claimed h.claimed, loadable_step
    ⟨srv.broker, { srv.world with outcomes := x.2 }⟩ h₀ h.loadable hadm hreq⟩

theorem boot (h : Bare w r B) (order : KeyOrder) : Orderly r B (Server.boot r order w) := by
  refine ⟨.boot h order, fun q hq hB hconf _ => h.vacant order hq hB hconf, ?_⟩
  rw [h.boot_eq]
  rintro key (hkey | hkey) <;> exact absurd hkey (AList.notMem_empty key)

theorem deleteTopic_step (h : Orderly r B srv) (topic : Str)
    (hdel : ∀ key ∈ srv.broker.topics, key.topic = topic → srv.broker.Deletable key) :
    (srv.stepWith (.deleteTopic topic, [])).1 = .deleted (.ok ()) ∧
      Removed B (fun key => key ∈ srv.broker.topics ∧ key.topic = topic) srv.broker srv.world
        (srv.stepWith (.deleteTopic topic, [])).2.broker
        (srv.stepWith (.deleteTopic topic, [])).2.world := by
  obtain ⟨-, own, hdiv⟩ := h.owners
  have h₀ : Divided r B srv.broker { srv.world with outcomes := [] } own := hdiv.of_fs rfl
  obtain ⟨b', w', hres, hrem⟩ := h₀.deleteTopic_removed h.claimed (List.forall_mem_nil _) hdel
  unfold Server.stepWith Server.step
  dsimp only
  rw [hres]
  exact ⟨rfl, hrem.of_fs rfl rfl⟩

theorem deletePartition_step (h : Orderly r B srv) {key : TopicPartition}
    (hdel : srv.broker.Deletable key) :
    (srv.stepWith (.deletePartition key, [])).1 = .deleted (.ok ()) ∧
      Removed B (fun key' => key' = key) srv.broker srv.world
        (srv.stepWith (.deletePartition key, [])).2.broker
        (srv.stepWith (.deletePartition key, [])).2.world := by
  obtain ⟨-, own, hdiv⟩ := h.owners
  have h₀ : Divided r B srv.broker { srv.world with outcomes := [] } own := hdiv.of_fs rfl
  obtain ⟨b', w', hres, hrem⟩ := h₀.deletePartition_removed h.claimed (List.forall_mem_nil _) hdel
  unfold Server.stepWith Server.step
  dsimp only
  rw [hres]
  exact ⟨rfl, hrem.of_fs rfl rfl⟩

theorem deletions (h : Orderly r B srv) (hnodup : keys.Nodup)
    (hdel : ∀ key ∈ keys, srv.broker.Deletable key) :
    Removed B (fun key => key ∈ keys) srv.broker srv.world
      (Runs.final Server.stepWith srv (keys.map (fun key => (.deletePartition key, [])))).broker
      (Runs.final Server.stepWith srv (keys.map (fun key => (.deletePartition key, [])))).world := by
  induction keys generalizing srv with
  | nil =>
      refine ⟨?_, fun key hkey => absurd hkey List.not_mem_nil⟩
      rw [List.map_nil, Runs.final]
      simpa only [List.not_mem_nil] using Cleared.refl B srv.broker srv.world
  | cons key keys ih =>
      obtain ⟨hfresh, hnodup⟩ := List.nodup_cons.mp hnodup
      obtain ⟨-, hrem⟩ := h.deletePartition_step (hdel key List.mem_cons_self)
      refine hrem.trans (ih (h.stepWith (x := (.deletePartition key, [])) trivial) hnodup ?_)
        (fun key' => List.mem_cons)
      intro key' hin
      have hne : key' ≠ key := by
        rintro rfl
        exact hfresh hin
      exact (hdel key' (List.mem_cons_of_mem key hin)).congr (hrem.otherTopics key' hne)
        (hrem.otherConfigs key' hne)

/-- In a run all of whose calls are served, the broker can be closed at any time. -/
theorem run {requests : List (Request × List Outcome)} (h : Orderly r B srv)
    (hreq : ∀ x ∈ requests, x.1.Decodable) :
    Orderly r B (Runs.final Server.stepWith srv requests) ∧
      (srv.broker.Closable → (∀ x ∈ requests, .fail ∉ x.2) →
        (Runs.final Server.stepWith srv requests).broker.Closable) := by
  induction requests generalizing srv with
  | nil => exact ⟨h, fun hb _ => hb⟩
  | cons x requests ih =>
      have hx := hreq x List.mem_cons_self
      obtain ⟨horderly, hclosable⟩ :=
        ih (h.stepWith hx) (fun y hy => hreq y (List.mem_cons_of_mem x hy))
      refine ⟨horderly, fun hb hserved => ?_⟩
      obtain ⟨-, own, hdiv⟩ := h.owners
      exact hclosable (hdiv.stepWith_closable hb (h.admits hx) (hserved x List.mem_cons_self))
        (fun y hy => hserved y (List.mem_cons_of_mem x hy))

end Orderly

/-- Deleting a topic leaves what deleting its partitions leaves, in whatever order they are deleted,
and nothing that is seen through the keys of other topics changes. -/
theorem deleteTopic_as_deletions {order : KeyOrder} {requests : List (Request × List Outcome)}
    (h : Bare w r B) (hreq : ∀ x ∈ requests, x.1.Decodable) {srv : Server}
    (hsrv : srv = Runs.final Server.stepWith (Server.boot r order w) requests)
    (hcalls : (∀ x ∈ requests, .fail ∉ x.2) ∨ srv.broker.Closable)
    (hsame : ∀ key, key ∈ srv.broker.topics ↔ key ∈ srv.broker.configManager.configs)
    (topic : Str) :
    (srv.stepWith (.deleteTopic topic, [])).1 = .deleted (.ok ()) ∧
      (∀ keys : List TopicPartition,
        keys.Perm (srv.broker.topics.keys.filter (fun key => key.topic = topic)) →
        Alike (srv.stepWith (.deleteTopic topic, [])).2
          (Runs.final Server.stepWith srv (keys.map (fun key => (.deletePartition key, []))))) ∧
      (∀ key, key.topic ≠ topic → Unchanged B key srv (srv.stepWith (.deleteTopic topic, [])).2) ∧
      StaysBelow B srv (srv.stepWith (.deleteTopic topic, [])).2 := by
  have hboot : (Server.boot r order w).broker.Closable :=
    (Divided.new_closable r order h.calm.obliging).1
  obtain ⟨horderly, hclosable⟩ := (Orderly.boot h order).run hreq
  rw [← hsrv] at horderly hclosable
  have hb : srv.broker.Closable := hcalls.elim (hclosable hboot) id
  have hdel : ∀ key ∈ srv.broker.topics, srv.broker.Deletable key :=
    fun key hkey => hb.deletable hkey ((hsame key).mp hkey)
  obtain ⟨hok, hremoved⟩ := horderly.deleteTopic_step topic
    (fun key hkey _ => hdel key hkey)
  refine ⟨hok, fun keys hperm => ?_, fun key hkey => ?_, ?_⟩
  · have hmem : ∀ key, key ∈ keys ↔ key ∈ srv.broker.topics ∧ key.topic = topic := by
      intro key
      rw [hperm.mem_iff, List.mem_filter, ← AList.mem_keys, decide_eq_true_iff]
    have hnodup : keys.Nodup := hperm.nodup_iff.mpr (srv.broker.topics.keys_nodup.filter _)
    have hone := horderly.deletions hnodup (fun key hkey => hdel key ((hmem key).mp hkey).1)
    simp only [hmem] at hone
    exact hremoved.alike hone
  · exact horderly.owners.unchanged (x := (.deleteTopic topic, [])) trivial hkey
  · exact horderly.owners.staysBelow (x := (.deleteTopic topic, [])) trivial

/-- The topics `t` and `t-0` with two partitions of the first. -/
theorem deleteTopic_as_deletions_prefix :
    let t : Str := ['t']
    let srv := Runs.final Server.stepWith
      (Server.boot ⟨[], []⟩ ⟨id, fun _ => .refl _⟩ (World.blank 0))
      [(.createPartition ⟨t, 0, 100, 0, 0⟩, []), (.createPartition ⟨t, 1, 100, 0, 0⟩, []),
        (.createPartition ⟨['t', '-', '0'], 0, 100, 0, 0⟩, []), (.sendMessage ⟨t, 0⟩ [1], []),
        (.sendMessage ⟨['t', '-', '0'], 0⟩ [2], [])]
    (srv.stepWith (.deleteTopic t, [])).1 = .deleted (.ok ()) ∧
      (∀ keys : List TopicPartition,
        keys.Perm (srv.broker.topics.keys.filter (fun key => key.topic = t)) →
        Alike (srv.stepWith (.deleteTopic t, [])).2
          (Runs.final Server.stepWith srv (keys.map (fun key => (.deletePartition key, []))))) ∧
      (∀ key : TopicPartition, key.topic ≠ t →
        Unchanged [] key srv (srv.stepWith (.deleteTopic t, [])).2) ∧
      StaysBelow [] srv (srv.stepWith (.deleteTopic t, [])).2 := by
  intro t srv
  have hreq : ∀ x ∈ ([(.createPartition ⟨t, 0, 100, 0, 0⟩, []),
      (.createPartition ⟨t, 1, 100, 0, 0⟩, []),
      (.createPartition ⟨['t', '-', '0'], 0, 100, 0, 0⟩, []), (.sendMessage ⟨t, 0⟩ [1], []),
      (.sendMessage ⟨['t', '-', '0'], 0⟩ [2], [])] : List (Request × List Outcome)),
      x.1.Decodable ∧ .fail ∉ x.2 := by
    decide
  have hsame : ∀ key, key ∈ srv.broker.topics ↔ key ∈ srv.broker.configManager.configs := by
    have hkeys : srv.broker.topics.keys = srv.broker.configManager.configs.keys := by decide +kernel
    intro key
    rw [AList.mem_keys, hkeys, ← AList.mem_keys]
  have hdeleted := deleteTopic_as_deletions (Bare.blank 0) (fun x hx => (hreq x hx).1)
    (Eq.refl srv) (Or.inl (fun x hx => (hreq x hx).2)) hsame t
  exact hdeleted

end MyKafka
