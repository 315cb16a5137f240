import MyKafka.BrokerOwners
import MyKafka.BrokerRun

/-!
# What a request leaves alone

Every request keeps the inodes divided among the names of the keys, also when calls are refused in
the middle of it, and spares the keys it does not name. A creation has to be of a key whose name is
one component and no one else's.
-/

namespace MyKafka

open Posix MyKafka.Partition

variable {r : RawPath} {B : Path} {b b' : Broker} {w w' : World} {own : Name → ℕ → Prop}
  {key : TopicPartition} {K : TopicPartition → Prop}

/-- The name of the key is one component, and that of no other key. -/
structure Broker.Sets (b : Broker) (key : TopicPartition) : Prop extends key.Encodable where
  alone : ∀ key', b.Has key' → key'.toString = key.toString → key' = key

instance (b : Broker) (key : TopicPartition) : Decidable (b.Sets key) :=
  decidable_of_iff ('/' ∉ key.topic ∧ Char.ofNat 0 ∉ key.topic ∧
      ∀ key' ∈ b.topics.keys ++ b.configManager.configs.keys,
        key'.toString = key.toString → key' = key)
    ⟨fun ⟨hslash, hnull, halone⟩ => ⟨⟨hslash, hnull⟩,
        fun key' hkey' => halone key' (List.mem_append.mpr hkey')⟩,
      fun h => ⟨h.slash, h.null, fun key' hkey' => h.alone key' (List.mem_append.mp hkey')⟩⟩

/-- A creation is of a key that is there, or of one whose name is free. -/
def Broker.Admits (b : Broker) : Request → Prop
  | .createPartition request =>
    (⟨request.topic, request.partition⟩ : TopicPartition) ∈ b.topics ∨
      b.Sets ⟨request.topic, request.partition⟩
  | _ => True

instance (b : Broker) : (request : Request) → Decidable (b.Admits request)
  | .createPartition _ => inferInstanceAs (Decidable (_ ∨ _))
  | .tick _ | .deletePartition _ | .deleteTopic _ | .sendMessage _ _ | .getMessage _ _
  | .getOffsets _ | .restart _ => inferInstanceAs (Decidable True)

/-- The keys a request is about. -/
def Request.Names : Request → TopicPartition → Prop
  | .tick _, _ => False
  | .createPartition request, key => key = ⟨request.topic, request.partition⟩
  | .deletePartition key', key => key = key'
  | .deleteTopic topic, key => key.topic = topic
  | .sendMessage key' _, key => key = key'
  | .getMessage _ _, _ => False
  | .getOffsets _, _ => False
  | .restart _, _ => True

/-- The keys a request works on: those it names that share their name with no other key. -/
def Broker.WorksOn (b : Broker) : Request → TopicPartition → Prop
  | .restart _, _ => True
  | request, key => request.Names key ∧
      ∀ key', b.Has key' → key'.toString = key.toString → key' = key

theorem Broker.WorksOn.names {request : Request} (h : b.WorksOn request key) : request.Names key := by
  cases request with
  | restart closing => trivial
  | _ => exact h.1

theorem Broker.createAndAddNewPartition_mem {segSize partSize ttl : Int64} {u : Unit}
    (h : b.createAndAddNewPartition key segSize partSize ttl w = (.ok u, b', w')) :
    key ∈ b'.topics := by
  unfold createAndAddNewPartition at h
  split at h
  · cases h
  · cases h
    exact (AList.mem_insert _).mpr (Or.inl rfl)

namespace Divided

theorem createPartition (h : Divided r B b w own) (request : TopicPartitionRequest)
    (hadm : b.Admits (.createPartition request)) :
    Respects r B (fun key => key = ⟨request.topic, request.partition⟩) b w own
      (b.createPartition request w).2.1 (b.createPartition request w).2.2 := by
  unfold Broker.createPartition
  dsimp only
  split_ifs with hmem
  · exact .refl h _
  · have hsets := hadm.resolve_left hmem
    have hadd := h.createAndAddNewPartition hsets.toEncodable hsets.alone request.maxSegmentSize
      request.maxPartitionSize request.segmentTtl
    split
    · next e b₁ w₁ he =>
        rw [he] at hadd
        exact hadd
    · next b₁ w₁ he =>
        rw [he] at hadd
        refine hadd.trans (fun own₁ h₁ => ?_)
        have hhas : b₁.Has ⟨request.topic, request.partition⟩ :=
          Or.inl (Broker.createAndAddNewPartition_mem he)
        exact h₁.create (h₁.encodable _ hhas) (h₁.free hhas) _ _ _

theorem mem_replace {p : Partition} (p' : Partition) (hp : b.topics.lookup key = some p) :
    ({ b with topics := b.topics.replace key p' } : Broker).Has key :=
  Or.inl (AList.mem_replace.mpr (mem_of_lookup hp))

theorem sendMessage (h : Divided r B b w own) (key : TopicPartition) (payload : Payload) :
    Respects r B (fun key' => key' = key) b w own (b.sendMessage key payload w).2.1
      (b.sendMessage key payload w).2.2 := by
  unfold Broker.sendMessage
  split
  · exact .refl h _
  · next p hp =>
      have hwrite := h.write hp payload
      split
      · next e p₁ w₁ he =>
          rw [he] at hwrite
          exact hwrite
      · next offset p₁ w₁ he =>
          rw [he] at hwrite
          exact hwrite.trans (fun own₁ h₁ =>
            h₁.updateCommitOffset (mem_replace p₁ hp) (.ofInt offset))

theorem deletePartition_request (h : Divided r B b w own) (key : TopicPartition) :
    Respects r B (fun key' => key' = key) b w own (b.deletePartition key w).2.1
      (b.deletePartition key w).2.2 := by
  unfold Broker.deletePartition
  split
  · exact .refl h _
  · next p hp =>
      have hdel := h.deletePartition hp
      split
      · next e p₁ w₁ he =>
          rw [he] at hdel
          exact hdel
      · next p₁ w₁ he =>
          rw [he] at hdel
          refine hdel.trans (fun own₁ h₁ => ?_)
          have hhas := mem_replace p₁ hp
          have hrem := (h₁.remove (h₁.encodable key hhas) (h₁.free hhas)).trans
            (fun own₂ h₂ => h₂.erase key)
          dsimp only at hrem
          rwa [erase_replace] at hrem

theorem deleteEntries (h : Divided r B b w own) {keys : List TopicPartition}
    (hK : ∀ key ∈ keys, K key) :
    Respects r B K b w own (Broker.deleteEntries keys b w).2.1
      (Broker.deleteEntries keys b w).2.2 := by
  induction keys generalizing b w own with
  | nil => exact .refl h K
  | cons key keys ih =>
      have hkey : ∀ key', key' = key → K key' := by
        rintro key' rfl
        exact hK _ List.mem_cons_self
      have hrest : ∀ key' ∈ keys, K key' := fun key' hin => hK key' (List.mem_cons_of_mem key hin)
      rw [Broker.deleteEntries]
      split
      · exact ih h hrest
      · next p hp =>
          have hdel := h.deletePartition hp
          split
          · next e p₁ w₁ he =>
              rw [he] at hdel
              exact hdel.mono hkey
          · next p₁ w₁ he =>
              rw [he] at hdel
              have hhas := mem_replace p₁ hp
              have hrem := (hdel.trans (fun own₁ h₁ =>
                h₁.remove (h₁.encodable key hhas) (h₁.free hhas))).mono hkey
              dsimp only at hrem
              split
              · next e c w₂ he₂ =>
                  rw [he₂] at hrem
                  exact hrem
              · next c w₂ he₂ =>
                  rw [he₂] at hrem
                  exact hrem.trans (fun own₂ h₂ => ih h₂ hrest)

theorem eraseTopics (h : Divided r B b w own) {keys : List TopicPartition}
    (hK : ∀ key ∈ keys, K key) : Respects r B K b w own (Broker.eraseTopics keys b) w := by
  induction keys generalizing b w own with
  | nil => exact .refl h K
  | cons key keys ih =>
      refine ((h.erase key).mono ?_).trans
        (fun own₁ h₁ => ih h₁ (fun key' hin => hK key' (List.mem_cons_of_mem key hin)))
      rintro key' rfl
      exact hK _ List.mem_cons_self

theorem deleteTopic (h : Divided r B b w own) (topic : Str) :
    Respects r B (fun key => key.topic = topic ∧ key ∈ b.topics) b w own
      (b.deleteTopic topic w).2.1 (b.deleteTopic topic w).2.2 := by
  have hK : ∀ key ∈ b.keys.filter (fun key => key.topic = topic),
      key.topic = topic ∧ key ∈ b.topics := by
    intro key hkey
    rw [List.mem_filter, Broker.keys, (b.order.perm _).mem_iff, ← AList.mem_keys] at hkey
    exact ⟨by simpa using hkey.2, hkey.1⟩
  have hdel := h.deleteEntries hK
  unfold Broker.deleteTopic
  dsimp only
  split
  · next e b₁ w₁ he =>
      rw [he] at hdel
      exact hdel
  · next b₁ w₁ he =>
      rw [he] at hdel
      exact hdel.trans (fun own₁ h₁ => h₁.eraseTopics hK)

theorem getMessage (h : Divided r B b w own) (key : TopicPartition) (offset : Int64)
    (K : TopicPartition → Prop) : Respects r B K b w own b (b.getMessage key offset w).2 := by
  refine h.respects_fs ?_ K
  unfold Broker.getMessage
  split
  · rfl
  · split_ifs
    · rfl
    · split
      · rfl
      · next p hp => exact p.fs_readAt ..

end Divided

/-! ## Restarts -/

namespace ConfigManager

/-- Closing config files touches no file and leaves no more open. -/
theorem closeFiles_less (keys : List TopicPartition) : ∀ (c : ConfigManager) (w : World),
    (closeFiles keys c w).2.2.fs = w.fs ∧ (closeFiles keys c w).2.1.basePath = c.basePath ∧
      (∀ key ∈ (closeFiles keys c w).2.1.configs, key ∈ c.configs) ∧
      ∀ key i, (closeFiles keys c w).2.1.Uses key i → c.Uses key i := by
  induction keys with
  | nil => exact fun c w => ⟨rfl, rfl, fun _ => id, fun _ _ => id⟩
  | cons key keys ih =>
      intro c w
      rw [closeFiles]
      split
      · exact ih c w
      · next found hfound =>
          obtain ⟨hfs, huses⟩ := c.closeInfo_uses key found w
          have hless : ∀ info : CfgInfo, (∀ i, info.Uses i → found.Uses i) → ∀ key' i,
              { c with configs := c.configs.replace key info }.Uses key' i → c.Uses key' i := by
            rintro info hinfo key' i ⟨cfg, hcfg, hi⟩
            by_cases hkk : key' = key
            · subst hkk
              rw [lookup_replace_same (mem_of_lookup hfound), Option.some.injEq] at hcfg
              subst hcfg
              exact ⟨found, hfound, hinfo i hi⟩
            · rw [lookup_replace_ne hkk] at hcfg
              exact ⟨cfg, hcfg, hi⟩
          split
          · next e info w₁ he =>
              rw [he] at hfs huses
              exact ⟨hfs, rfl, fun _ => AList.mem_replace.mp, hless info huses⟩
          · next info w₁ he =>
              rw [he] at hfs huses
              obtain ⟨hfs', hbase, hmem, huses'⟩ :=
                ih { c with configs := c.configs.replace key info } w₁
              exact ⟨hfs'.trans hfs, hbase, fun k hk => AList.mem_replace.mp (hmem k hk),
                fun k i hi => hless info huses k i (huses' k i hi)⟩

theorem close_less (c : ConfigManager) (w : World) :
    (c.close w).2.2.fs = w.fs ∧ (c.close w).2.1.basePath = c.basePath ∧
      (∀ key ∈ (c.close w).2.1.configs, key ∈ c.configs) ∧
      ∀ key i, (c.close w).2.1.Uses key i → c.Uses key i := by
  have hless := closeFiles_less c.keys c w
  unfold close
  split
  · next e c₁ w₁ he =>
      rw [he] at hless
      exact hless
  · next c₁ w₁ he =>
      rw [he] at hless
      refine ⟨hless.1, hless.2.1, fun key hkey => ?_, ?_⟩
      · exact absurd hkey (AList.notMem_empty key)
      · rintro key i ⟨cfg, hcfg, -⟩
        rw [AList.lookup_empty] at hcfg
        cases hcfg

end ConfigManager

/-- Any key. -/
abbrev Anyone (_ : TopicPartition) : Prop := True

/-- A step on the first of several keys. -/
theorem Respects.head (h : Respects r B (fun key' => key' = key) b w own b' w')
    (keys : List TopicPartition) : Respects r B (fun key' => key' ∈ key :: keys) b w own b' w' :=
  h.mono (fun _ hkey => hkey ▸ List.mem_cons_self)

theorem Respects.tail {keys : List TopicPartition}
    (h : Respects r B (fun key' => key' ∈ keys) b w own b' w') (key : TopicPartition) :
    Respects r B (fun key' => key' ∈ key :: keys) b w own b' w' :=
  h.mono (fun _ => List.mem_cons_of_mem key)

theorem Respects.anyone (h : Respects r B K b w own b' w') : Respects r B Anyone b w own b' w' :=
  h.mono (fun _ _ => trivial)

namespace Divided

theorem closePartitions (h : Divided r B b w own) (keys : List TopicPartition) :
    Respects r B Anyone b w own (Broker.closePartitions keys b w).2.1
      (Broker.closePartitions keys b w).2.2 := by
  induction keys generalizing b w own with
  | nil => exact .refl h _
  | cons key keys ih =>
      rw [Broker.closePartitions]
      split
      · exact ih h
      · next p hp =>
          have hclose := (h.close hp).anyone
          split
          · next e p₁ w₁ he =>
              rw [he] at hclose
              exact hclose
          · next p₁ w₁ he =>
              rw [he] at hclose
              exact hclose.trans (fun own₁ h₁ => ih h₁)

theorem closeConfigs (h : Divided r B b w own) :
    Respects r B Anyone b w own { b with configManager := (b.configManager.close w).2.1 }
      (b.configManager.close w).2.2 := by
  obtain ⟨hfs, hbase, hmem, huses⟩ := b.configManager.close_less w
  have hdiv : Divided r B { b with configManager := (b.configManager.close w).2.1 } w own :=
    h.fewer rfl hbase (fun _ _ => id) hmem huses
  exact ⟨own, hdiv.of_fs hfs, fun _ _ => id, fun n i _ _ => by rw [hfs], fun q _ => by rw [hfs],
    fun q i _ _ => by rw [hfs], fun _ hno => absurd trivial hno, fun _ hno => absurd trivial hno⟩

theorem closeBroker (h : Divided r B b w own) :
    Respects r B Anyone b w own (b.close w).2.1 (b.close w).2.2 := by
  have hparts := h.closePartitions b.keys
  unfold Broker.close
  split
  · next e b₁ w₁ he =>
      rw [he] at hparts
      exact hparts
  · next b₁ w₁ he =>
      rw [he] at hparts
      exact hparts.trans (fun own₁ h₁ => h₁.closeConfigs)

theorem destroyPartitions (h : Divided r B b w own) (keys : List TopicPartition) :
    Respects r B Anyone b w own b (Broker.destroyPartitions keys b w) := by
  induction keys generalizing w own with
  | nil => exact .refl h _
  | cons key keys ih =>
      rw [Broker.destroyPartitions]
      split
      · exact ih h
      · next p hp =>
          exact (h.destroy hp).anyone.trans (fun own₁ h₁ => ih h₁)

theorem destroyBroker (h : Divided r B b w own) :
    ∃ b', Respects r B Anyone b w own b' (b.destroy w) := by
  unfold Broker.destroy
  have hclose := h.closeBroker.trans (fun own₁ h₁ =>
    h₁.closeConfigs.trans (fun own₂ h₂ => h₂.destroyPartitions (b.close w).2.1.keys))
  exact ⟨_, hclose⟩

theorem leave {srv : Server} (h : Divided r B srv.broker srv.world own) (closing : Bool) :
    ∃ b', Respects r B Anyone srv.broker srv.world own b' (srv.leave closing) := by
  unfold Server.leave
  split_ifs
  · obtain ⟨own₁, h₁, hsp₁⟩ := h.closeBroker
    obtain ⟨b', own₂, h₂, hsp₂⟩ := h₁.destroyBroker
    exact ⟨b', own₂, h₂, hsp₁.trans hsp₂⟩
  · exact ⟨_, .refl h _⟩

theorem reborn (h : Divided r B b w own) (order : KeyOrder) :
    Respects r B Anyone b w own (Broker.new r order w).1 (Broker.new r order w).2 := by
  have hfs : (w.createDirectories (r.child Broker.configName)).2.fs = w.fs :=
    World.fs_createDirectories h.atConf
  refine ⟨own, Divided.of_fs ?_ hfs, fun _ _ => id, fun n i _ _ => ?_, fun q _ => ?_,
    fun q i _ _ => ?_, fun _ hno => absurd trivial hno, fun _ hno => absurd trivial hno⟩
  · refine ⟨rfl, rfl, h.atBase, h.atConf, h.below, h.apart, h.named, h.outside, h.filed,
      ?_, ?_, ?_, ?_⟩
    · rintro key (hkey | hkey) <;> exact absurd hkey (AList.notMem_empty key)
    · rintro key key' (hkey | hkey) <;> exact absurd hkey (AList.notMem_empty key)
    · intro key p hp
      rw [show (Broker.new r order w).1.topics.lookup key = none from AList.lookup_empty key] at hp
      cases hp
    · rintro key i ⟨cfg, hcfg, -⟩
      rw [show (Broker.new r order w).1.configManager.configs.lookup key = none from
        AList.lookup_empty key] at hcfg
      cases hcfg
  · exact congrArg (fun fs => fs.data i) hfs
  · exact congrArg (fun fs => fs.node? q) hfs
  · exact congrArg (fun fs => fs.data i) hfs

theorem loadFiles (h : Divided r B b w own) {keys : List TopicPartition}
    (hkeys : ∀ key ∈ keys, key.Encodable ∧ key.Loadable) (hhas : ∀ key, b.Has key → key.Loadable) :
    Respects r B (fun key => key ∈ keys) b w own
      { b with configManager := (ConfigManager.loadFiles keys b.configManager w).1 }
      (ConfigManager.loadFiles keys b.configManager w).2 := by
  induction keys generalizing b w own with
  | nil => exact .refl h _
  | cons key keys ih =>
      obtain ⟨hk, hload⟩ := hkeys key List.mem_cons_self
      have hopen := (h.open hk (fun key' hkey' heq => (hhas key' hkey').toString_inj hload heq)).head keys
      rw [ConfigManager.loadFiles]
      refine hopen.trans (fun own₁ h₁ =>
        (ih h₁ (fun k hin => hkeys k (List.mem_cons_of_mem key hin)) ?_).tail key)
      intro key' hkey'
      by_cases hkk : key' = key
      · exact hkk ▸ hload
      · refine hhas key' (hkey'.imp_right (fun hin => ?_))
        rw [← AList.lookup_isSome] at hin ⊢
        rwa [← (b.configManager.open_leaves key w).lookup key' hkk]

theorem loadPartitions (h : Divided r B b w own) (keys : List TopicPartition) :
    Respects r B (fun key => key ∈ keys) b w own (Broker.loadPartitions keys b w).2.1
      (Broker.loadPartitions keys b w).2.2 := by
  induction keys generalizing b w own with
  | nil => exact .refl h _
  | cons key keys ih =>
      rw [Broker.loadPartitions]
      split
      · exact (ih h).tail key
      · next cfg hcfg =>
          have hhas : b.Has key := Or.inr (mem_of_lookup hcfg)
          have hadd := (h.createAndAddNewPartition (h.encodable key hhas) (h.free hhas)
            cfg.info.maxSegmentSize cfg.info.maxPartitionSize cfg.info.segmentTtl).head keys
          split
          · next e b₁ w₁ he =>
              rw [he] at hadd
              exact hadd
          · next b₁ w₁ he =>
              rw [he] at hadd
              exact hadd.trans (fun own₁ h₁ => (ih h₁).tail key)

theorem names (h : Divided r B b w own) {key : TopicPartition}
    (hkey : key ∈ ((w.listing b.configManager.basePath).filter
      (fun n => w.isRegular (b.configManager.basePath.child n))).filterMap
        ConfigManager.decodeName) : key.Encodable ∧ key.Loadable := by
  obtain ⟨n, hn, hdecode⟩ := List.mem_filterMap.mp hkey
  rw [List.mem_filter, World.listing, h.confPath, h.atConf.resolves, (w.order.perm _).mem_iff,
    FileSystem.mem_children] at hn
  obtain ⟨key', hk', rfl⟩ := h.filed n hn.1
  exact hk'.decoded hdecode

theorem load (h : Divided r B b w own) (hhas : ∀ key, b.Has key → key.Loadable) :
    Respects r B Anyone b w own (b.load w).2.1 (b.load w).2.2 :=
  (h.loadFiles (fun _ => h.names) hhas).anyone.trans (fun _ h₁ => (h₁.loadPartitions _).anyone)

theorem restart {srv : Server} (h : Divided r B srv.broker srv.world own) (closing : Bool) :
    Respects r B Anyone srv.broker srv.world own (srv.restart closing).2.broker
      (srv.restart closing).2.world := by
  obtain ⟨b', hleave⟩ := h.leave closing
  refine hleave.trans (fun own₁ h₁ => ?_)
  unfold Server.restart
  rw [h.basePath]
  refine (h₁.reborn srv.broker.order).trans (fun own₂ h₂ => h₂.load ?_)
  rintro key (hkey | hkey) <;> exact absurd hkey (AList.notMem_empty key)

/-! ## Steps -/

theorem request (srv : Server) (h : Divided r B srv.broker srv.world own) {request : Request}
    (hadm : srv.broker.Admits request) :
    Respects r B (srv.broker.WorksOn request) srv.broker srv.world own
      (srv.step request).2.broker (srv.step request).2.world := by
  have hone : ∀ key, key ∈ srv.broker.topics → request.Names key → ∀ key', key' = key →
      request.Names key' ∧
        ∀ key'', srv.broker.Has key'' → key''.toString = key'.toString → key'' = key' := by
    rintro key hmem hnames key' rfl
    exact ⟨hnames, h.free (Or.inl hmem)⟩
  cases request with
  | tick seconds =>
      refine h.respects_fs ?_ _
      rfl
  | createPartition request =>
      refine (h.createPartition request hadm).mono ?_
      rintro key rfl
      exact ⟨rfl, hadm.elim (fun hmem => h.free (Or.inl hmem)) (fun hsets => hsets.alone)⟩
  | deletePartition key =>
      by_cases hmem : key ∈ srv.broker.topics
      · exact (h.deletePartition_request key).mono (hone key hmem rfl)
      · rw [Server.step, Broker.deletePartition, AList.lookup_eq_none.mpr hmem]
        exact .refl h _
  | deleteTopic topic =>
      refine (h.deleteTopic topic).mono ?_
      rintro key ⟨htopic, hmem⟩
      exact hone key hmem htopic key rfl
  | sendMessage key payload =>
      by_cases hmem : key ∈ srv.broker.topics
      · exact (h.sendMessage key payload).mono (hone key hmem rfl)
      · rw [Server.step, Broker.sendMessage, AList.lookup_eq_none.mpr hmem]
        exact .refl h _
  | getMessage key offset => exact h.getMessage key offset _
  | getOffsets key => exact .refl h _
  | restart closing => exact h.restart closing

/-- A request spares the keys it does not work on, whatever the calls answer. -/
theorem stepWith {srv : Server} (h : Divided r B srv.broker srv.world own)
    {x : Request × List Outcome} (hadm : srv.broker.Admits x.1) :
    Respects r B (srv.broker.WorksOn x.1) srv.broker srv.world own (srv.stepWith x).2.broker
      (srv.stepWith x).2.world := by
  have h₀ : Divided r B srv.broker { srv.world with outcomes := x.2 } own := h.of_fs rfl
  obtain ⟨own', h', hsp⟩ :=
    request ⟨srv.broker, { srv.world with outcomes := x.2 }⟩ h₀ hadm
  exact ⟨own', h'.of_fs rfl, hsp.kept, hsp.data, hsp.node, hsp.outside, hsp.topics, hsp.configs⟩

end Divided

/-! ## The first start -/

theorem Bare.divided (h : Bare w r B) (order : KeyOrder) :
    ∃ own, Divided r B (Server.boot r order w).broker (Server.boot r order w).world own := by
  have hvacant : ∀ {q}, Under B q → q ≠ B → q ≠ confDir B → _ := h.vacant order
  have hat := h.at_boot order
  have hboot := h.boot_eq order
  have hhas : ∀ key, ¬ (Server.boot r order w).broker.Has key := by
    rw [hboot]
    rintro key (hkey | hkey) <;> exact AList.notMem_empty key hkey
  refine ⟨fun _ _ => False, ?_, ?_, hat.1, hat.2, fun _ _ hno => hno.elim,
    fun _ _ _ hno => hno.elim, ?_, fun _ _ _ _ _ hno => hno, ?_, fun key hkey => absurd hkey (hhas key),
    fun key _ hkey => absurd hkey (hhas key), ?_, ?_⟩
  · rw [hboot]
  · rw [hboot]
  · intro key q i hq hi
    rw [hvacant hq.below hq.ne_base hq.ne_conf] at hi
    cases hi
  · intro n hn
    refine absurd (hvacant ?_ ?_ ?_) hn
    · exact (List.prefix_append _ _).trans (List.prefix_append _ _)
    · simp [confDir]
    · simp
  · intro key p hp
    exact absurd (Or.inl (mem_of_lookup hp)) (hhas key)
  · rintro key i ⟨cfg, hcfg, -⟩
    exact absurd (Or.inr (mem_of_lookup hcfg)) (hhas key)

end MyKafka
