import MyKafka.BrokerRequests
import MyKafka.PartitionClosable

/-!
# Brokers that can be closed

As long as no call is refused, all that a broker holds can be closed: every segment its partitions
list and every config file it has open.
-/

namespace MyKafka

open Posix MyKafka.Partition

/-- The config files of a store are open. -/
def ConfigManager.Closable (c : ConfigManager) : Prop :=
  ∀ key cfg, c.configs.lookup key = some cfg → ∃ i, cfg.OpenOn i

/-- Everything a broker holds can be closed. -/
structure Broker.Closable (b : Broker) : Prop where
  partitions : ∀ key p, b.topics.lookup key = some p → p.Closable
  configs : b.configManager.Closable

variable {r : RawPath} {B : Path} {b b' : Broker} {w w' : World} {own : Name → ℕ → Prop}
  {key : TopicPartition} {c : ConfigManager} {p : Partition}

theorem World.obliging_remove (h : w.Obliging) (path : RawPath) : (w.remove path).Obliging := by
  unfold Posix.World.remove
  split
  · exact h
  · split
    · exact h
    · exact h
    · split_ifs <;> exact h

theorem World.obliging_removeAll (h : w.Obliging) (path : RawPath) :
    (w.removeAll path).Obliging := by
  unfold Posix.World.removeAll
  split <;> exact h

/-! ## The config store -/

namespace ConfigManager

theorem closable_empty (path : RawPath) (order : KeyOrder) :
    (⟨path, ∅, order⟩ : ConfigManager).Closable := by
  intro key cfg hcfg
  rw [AList.lookup_empty] at hcfg
  cases hcfg

theorem Closable.insert (h : c.Closable) (key : TopicPartition) {cfg : CfgInfo} {i : ℕ}
    (hcfg : cfg.OpenOn i) :
    ({ c with configs := insertNew c.configs key cfg } : ConfigManager).Closable := by
  intro key' cfg' hcfg'
  by_cases hk : key' = key
  · subst hk
    by_cases hmem : key' ∈ c.configs
    · rw [insertNew, if_pos hmem] at hcfg'
      exact h key' cfg' hcfg'
    · rw [lookup_insertNew hmem, Option.some.injEq] at hcfg'
      exact ⟨i, hcfg' ▸ hcfg⟩
  · rw [lookup_insertNew_ne hk] at hcfg'
    exact h key' cfg' hcfg'

theorem mmap_openOn {num i : ℕ} {size : ℤ} {a : Addr} (h : w.mmap (.live num i) size = (a, w'))
    (ha : a ≠ .failed) (info : RawInfo) : (⟨.live num i, a, info⟩ : CfgInfo).OpenOn i := by
  refine ⟨⟨num, rfl⟩, ?_⟩
  unfold World.mmap at h
  split at h
  · next heq =>
      cases heq
      split_ifs at h
      · exact (Prod.ext_iff.mp h).1.symm
      · exact absurd (Prod.ext_iff.mp h).1.symm ha
  · exact absurd (Prod.ext_iff.mp h).1.symm ha

theorem MapsFile.openOn {key : TopicPartition} {cfg : CfgInfo} (h : c.MapsFile key w cfg) :
    ∃ i, cfg.OpenOn i := by
  obtain ⟨fd, addr, info⟩ := cfg
  have hlive := w.openCreate_live (c.path key)
  rw [← h.fd] at hlive
  rcases hlive with hclosed | ⟨num, i, hfd⟩
  · exact absurd hclosed h.fd_open
  · dsimp only at hfd
    subst hfd
    obtain ⟨w₁, hmap⟩ := h.addr
    exact ⟨i, mmap_openOn (Prod.ext hmap rfl) h.addr_mapped info⟩

theorem Closable.adds (h : c.Closable) {key : TopicPartition} {r : Result Unit}
    {c' : ConfigManager} (hadds : c.Adds key w r c') : c'.Closable := by
  cases hadds with
  | unchanged e => exact h
  | added info hinfo =>
      obtain ⟨i, hi⟩ := hinfo.openOn
      exact h.insert key hi

theorem Closable.create (h : c.Closable) (key : TopicPartition) (segSize partSize ttl : Int64)
    (w : World) : (c.create key segSize partSize ttl w).2.1.Closable :=
  h.adds (c.create_adds key segSize partSize ttl w)

theorem Closable.open (h : c.Closable) (key : TopicPartition) (w : World) :
    (c.open key w).2.1.Closable :=
  h.adds (c.open_adds key w)

theorem Closable.updateCommitOffset (h : c.Closable) (key : TopicPartition) (offset : Int64)
    (w : World) : (c.updateCommitOffset key offset w).2.1.Closable := by
  unfold ConfigManager.updateCommitOffset
  split
  · exact h
  · next found hfound =>
      intro key' cfg hcfg
      by_cases hk : key' = key
      · subst hk
        rw [lookup_replace_same (mem_of_lookup hfound), Option.some.injEq] at hcfg
        subst hcfg
        obtain ⟨i, hopen⟩ := h key' found hfound
        exact ⟨i, hopen.fd, hopen.addr⟩
      · rw [lookup_replace_ne hk] at hcfg
        exact h key' cfg hcfg

theorem Closable.erase (h : c.Closable) (key : TopicPartition) :
    ({ c with configs := c.configs.erase key } : ConfigManager).Closable :=
  fun key' cfg hcfg => h key' cfg (lookup_of_erase hcfg)

theorem remove_open (hw : w.Obliging) {cfg : CfgInfo} (hcfg : c.configs.lookup key = some cfg)
    {i : ℕ} (hopen : cfg.OpenOn i) :
    ∃ w₁ : World, c.remove key w = (.ok (), { c with configs := c.configs.erase key },
      w₁.remove (c.path key)) ∧ w₁.fs = w.fs ∧ w₁.Obliging := by
  obtain ⟨cfg', w₁, hclose, hfs, -⟩ := closeInfo_spec (c := c) hw hopen
  have hfr := closeInfo_frame (S := fun _ => True) (I := fun _ => True) c key cfg
    (Frame.refl (w := w) (fun _ _ => trivial))
  rw [hclose] at hfr
  refine ⟨w₁, ?_, hfs, hfr.obliging hw⟩
  unfold ConfigManager.remove closeKey
  rw [hcfg]
  dsimp only
  rw [hclose]
  rfl

theorem Closable.remove_closable (h : c.Closable) (hw : w.Obliging) (key : TopicPartition) :
    (c.remove key w).2.1.Closable ∧ (c.remove key w).2.2.Obliging := by
  cases hcfg : c.configs.lookup key with
  | none =>
      unfold ConfigManager.remove closeKey
      rw [hcfg]
      exact ⟨h, hw⟩
  | some cfg =>
      obtain ⟨i, hopen⟩ := h key cfg hcfg
      obtain ⟨w₁, hrem, -, hw₁⟩ := remove_open hw hcfg hopen
      rw [hrem]
      exact ⟨h.erase key, World.obliging_remove hw₁ _⟩

theorem closeFiles_obliging (hw : w.Obliging) (keys : List TopicPartition) (c : ConfigManager) :
    (closeFiles keys c w).2.2.Obliging := by
  induction keys generalizing c w with
  | nil => exact hw
  | cons key keys ih =>
      rw [closeFiles]
      split
      · exact ih hw c
      · next found hfound =>
          have hfr := closeInfo_frame (S := fun _ => True) (I := fun _ => True) c key found
            (Frame.refl (w := w) (fun _ _ => trivial))
          rcases he : c.closeInfo key found w with ⟨_ | _, cfg, w₁⟩
          · rw [he] at hfr
            exact hfr.obliging hw
          · rw [he] at hfr
            exact ih (hfr.obliging hw) _

theorem close_obliging (hw : w.Obliging) (c : ConfigManager) : (c.close w).2.2.Obliging := by
  have hclose := closeFiles_obliging hw c.keys c
  unfold ConfigManager.close
  rcases he : closeFiles c.keys c w with ⟨_ | _, c₁, w₁⟩
  all_goals
    rw [he] at hclose
    exact hclose

end ConfigManager

/-! ## The partitions -/

namespace Broker.Closable

theorem replace (h : b.Closable) (key : TopicPartition) (hp : p.Closable) :
    ({ b with topics := b.topics.replace key p } : Broker).Closable := by
  refine ⟨fun key' p' hp' => ?_, h.configs⟩
  by_cases hmem : key ∈ b.topics
  · by_cases hk : key' = key
    · subst hk
      rw [lookup_replace_same hmem, Option.some.injEq] at hp'
      exact hp' ▸ hp
    · rw [lookup_replace_ne hk] at hp'
      exact h.partitions key' p' hp'
  · rw [replace_of_notMem hmem] at hp'
    exact h.partitions key' p' hp'

theorem erase (h : b.Closable) (key : TopicPartition) :
    ({ b with topics := b.topics.erase key } : Broker).Closable :=
  ⟨fun key' p' hp' => h.partitions key' p' (lookup_of_erase hp'), h.configs⟩

theorem insert (h : b.Closable) (key : TopicPartition) (hp : p.Closable) :
    ({ b with topics := b.topics.insert key p } : Broker).Closable := by
  refine ⟨fun key' p' hp' => ?_, h.configs⟩
  by_cases hk : key' = key
  · subst hk
    rw [show ({ b with topics := b.topics.insert key' p } : Broker).topics.lookup key' = some p from
      AList.lookup_insert _, Option.some.injEq] at hp'
    exact hp' ▸ hp
  · rw [show ({ b with topics := b.topics.insert key p } : Broker).topics.lookup key' =
      b.topics.lookup key' from AList.lookup_insert_ne hk] at hp'
    exact h.partitions key' p' hp'

end Broker.Closable

namespace Divided

theorem frame_open (h : Divided r B b w own) (key : TopicPartition) (segSize partSize ttl : ℤ) :
    Frame (Under (dirOf B key)) (own key.toString) w
        ((Partition.new (r.child key.toString) segSize partSize ttl).open w).2.2 ∧
      ((Partition.new (r.child key.toString) segSize partSize ttl).open w).2.1.Confined
        (dirOf B key) (own key.toString) w.fs :=
  open_frame (.refl (h.named_dir key)) (Confined.new (h.home key) segSize partSize ttl)

theorem add_closable (h : Divided r B b w own) (hb : b.Closable) (hw : w.Obliging)
    (hk : key.Encodable) (segSize partSize ttl : Int64) :
    (b.createAndAddNewPartition key segSize partSize ttl w).2.1.Closable ∧
      (b.createAndAddNewPartition key segSize partSize ttl w).2.2.Obliging := by
  have hpath : b.partitionPath key = r.child key.toString := Broker.partitionPath_eq h.basePath hk
  have hfr := h.frame_open key segSize.toInt partSize.toInt ttl.toInt
  have hopen := (Partition.Closable.new (r.child key.toString) segSize.toInt partSize.toInt
    ttl.toInt).open (.refl (h.named_dir key)) hw (Confined.new (h.home key) _ _ _)
  unfold Broker.createAndAddNewPartition
  rw [hpath]
  rcases he : (Partition.new (r.child key.toString) segSize.toInt partSize.toInt ttl.toInt).open w
    with ⟨_ | _, p, w₁⟩
  · rw [he] at hfr
    exact ⟨hb, (destroy_frame hfr.1 hfr.2).obliging hw⟩
  · rw [he] at hfr hopen
    exact ⟨hb.insert key hopen, hfr.1.obliging hw⟩

theorem conf (h : Divided r B b w own) :
    FileSystem.At w.fs b.configManager.basePath (confDir B) := h.confPath ▸ h.atConf

theorem create_closable (h : Divided r B b w own) (hb : b.Closable) (hw : w.Obliging)
    (hk : key.Encodable) (segSize partSize ttl : Int64) :
    (b.configManager.create key segSize partSize ttl w).2.1.Closable ∧
      (b.configManager.create key segSize partSize ttl w).2.2.Obliging :=
  ⟨hb.configs.create key segSize partSize ttl w,
    (ConfigManager.create_frame (.refl (h.named_cfg key))
      (ConfigManager.inside_path hk h.conf rfl) segSize partSize ttl).obliging hw⟩

theorem createPartition_closable (h : Divided r B b w own) (hb : b.Closable) (hw : w.Obliging)
    (request : TopicPartitionRequest) (hadm : b.Admits (.createPartition request)) :
    (b.createPartition request w).2.1.Closable ∧ (b.createPartition request w).2.2.Obliging := by
  unfold Broker.createPartition
  dsimp only
  split_ifs with hmem
  · exact ⟨hb, hw⟩
  · have hsets := hadm.resolve_left hmem
    have hadd := h.add_closable hb hw hsets.toEncodable request.maxSegmentSize
      request.maxPartitionSize request.segmentTtl
    have hdiv := h.createAndAddNewPartition hsets.toEncodable hsets.alone request.maxSegmentSize
      request.maxPartitionSize request.segmentTtl
    rcases he : b.createAndAddNewPartition ⟨request.topic, request.partition⟩
      request.maxSegmentSize request.maxPartitionSize request.segmentTtl w with ⟨_ | _, b₁, w₁⟩
    · rw [he] at hadd
      exact hadd
    · rw [he] at hadd hdiv
      obtain ⟨own₁, h₁, -⟩ := hdiv
      obtain ⟨hc, hw₂⟩ := h₁.create_closable hadd.1 hadd.2 hsets.toEncodable
        request.maxSegmentSize request.maxPartitionSize request.segmentTtl
      exact ⟨⟨hadd.1.partitions, hc⟩, hw₂⟩

theorem sendMessage_closable (h : Divided r B b w own) (hb : b.Closable) (hw : w.Obliging)
    (key : TopicPartition) (payload : Payload) :
    (b.sendMessage key payload w).2.1.Closable ∧ (b.sendMessage key payload w).2.2.Obliging := by
  unfold Broker.sendMessage
  split
  · exact ⟨hb, hw⟩
  · next p hp =>
      obtain ⟨hconf, -⟩ := h.topics key p hp
      have hfr := write_frame (.refl (h.named_dir key)) hconf payload
      have hwrite := (hb.partitions key p hp).write (.refl (h.named_dir key)) hw hconf payload
      rcases he : p.write payload w with ⟨_ | offset, p₁, w₁⟩
      · rw [he] at hfr hwrite
        exact ⟨hb.replace key hwrite, hfr.1.obliging hw⟩
      · rw [he] at hfr hwrite
        have hw₁ : w₁.Obliging := hfr.1.obliging hw
        refine ⟨⟨(hb.replace key hwrite).partitions,
          hb.configs.updateCommitOffset key (.ofInt offset) w₁⟩, ?_⟩
        unfold ConfigManager.updateCommitOffset
        dsimp only
        split
        · exact hw₁
        · next found _ =>
            have hout : (w₁.store found.addr 24 (LittleEndian.toLE 8 (Int64.ofInt offset).toInt)).outcomes
                = w₁.outcomes := by
              cases found.addr <;> rfl
            unfold World.Obliging
            rw [hout]
            exact hw₁

theorem frame_delete (h : Divided r B b w own) (hp : b.topics.lookup key = some p) :
    Frame (Under (dirOf B key)) (own key.toString) w (p.deletePartition w).2.2 :=
  (deletePartition_frame (.refl (h.named_dir key)) (h.topics key p hp).1).1

theorem deletePartition_closable (h : Divided r B b w own) (hb : b.Closable) (hw : w.Obliging)
    (key : TopicPartition) :
    (b.deletePartition key w).2.1.Closable ∧ (b.deletePartition key w).2.2.Obliging := by
  unfold Broker.deletePartition
  split
  · exact ⟨hb, hw⟩
  · next p hp =>
      have hfr := h.frame_delete hp
      obtain ⟨p₁, w₁, hdel, -⟩ := (hb.partitions key p hp).deletePartition hw
      rw [hdel] at hfr
      obtain ⟨hc, hw₂⟩ := hb.configs.remove_closable (hfr.obliging hw) key
      rw [hdel]
      exact ⟨⟨(hb.erase key).partitions, hc⟩, hw₂⟩

theorem deleteEntries_closable (h : Divided r B b w own) (hb : b.Closable) (hw : w.Obliging)
    (keys : List TopicPartition) :
    (Broker.deleteEntries keys b w).2.1.Closable ∧ (Broker.deleteEntries keys b w).2.2.Obliging := by
  induction keys generalizing b w own with
  | nil => exact ⟨hb, hw⟩
  | cons key keys ih =>
      rw [Broker.deleteEntries]
      split
      · exact ih h hb hw
      · next p hp =>
          have hfr := h.frame_delete hp
          obtain ⟨own₁, h₁, -⟩ := h.deletePartition hp
          obtain ⟨p₁, w₁, hdel, hsegs, -⟩ := (hb.partitions key p hp).deletePartition hw
          have hp₁ : p₁.Closable := by
            rw [Partition.Closable, hsegs]
            exact List.forall_mem_nil _
          rw [hdel] at hfr h₁
          have hhas := mem_replace p₁ hp
          obtain ⟨own₂, h₂, -⟩ := h₁.remove (h₁.encodable key hhas) (h₁.free hhas)
          obtain ⟨hc, hw₂⟩ := hb.configs.remove_closable (hfr.obliging hw) key
          have hb₂ := (hb.replace key hp₁).partitions
          rw [hdel]
          dsimp only at h₂ ⊢
          rcases he : b.configManager.remove key (w₁.removeAll p.path) with ⟨_ | _, c₂, w₂⟩
          · rw [he] at hc hw₂
            exact ⟨⟨hb₂, hc⟩, hw₂⟩
          · rw [he] at hc hw₂ h₂
            exact ih h₂ ⟨hb₂, hc⟩ hw₂

theorem eraseTopics_closable (hb : b.Closable) (keys : List TopicPartition) :
    (Broker.eraseTopics keys b).Closable := by
  induction keys generalizing b with
  | nil => exact hb
  | cons key keys ih => exact ih (hb.erase key)

theorem deleteTopic_closable (h : Divided r B b w own) (hb : b.Closable) (hw : w.Obliging)
    (topic : Str) :
    (b.deleteTopic topic w).2.1.Closable ∧ (b.deleteTopic topic w).2.2.Obliging := by
  have hdel := h.deleteEntries_closable hb hw (b.keys.filter (fun key => key.topic = topic))
  unfold Broker.deleteTopic
  dsimp only
  rcases he : Broker.deleteEntries (b.keys.filter (fun key => key.topic = topic)) b w
    with ⟨_ | _, b₁, w₁⟩
  · rw [he] at hdel
    exact hdel
  · rw [he] at hdel
    exact ⟨eraseTopics_closable hdel.1 _, hdel.2⟩

/-! ## Restarts -/

theorem closePartitions_obliging (h : Divided r B b w own) (hw : w.Obliging)
    (keys : List TopicPartition) : (Broker.closePartitions keys b w).2.2.Obliging := by
  induction keys generalizing b w own with
  | nil => exact hw
  | cons key keys ih =>
      rw [Broker.closePartitions]
      split
      · exact ih h hw
      · next p hp =>
          have hfr := close_frame (.refl (h.named_dir key)) (h.topics key p hp).1
          obtain ⟨own₁, h₁, -⟩ := h.close hp
          rcases he : p.close w with ⟨_ | _, p₁, w₁⟩
          · rw [he] at hfr
            exact hfr.1.obliging hw
          · rw [he] at hfr h₁
            exact ih h₁ (hfr.1.obliging hw)

theorem closeBroker_obliging (h : Divided r B b w own) (hw : w.Obliging) :
    (b.close w).2.2.Obliging := by
  have hclose := h.closePartitions_obliging hw b.keys
  unfold Broker.close
  rcases he : Broker.closePartitions b.keys b w with ⟨_ | _, b₁, w₁⟩
  · rw [he] at hclose
    exact hclose
  · rw [he] at hclose
    exact ConfigManager.close_obliging hclose _

theorem destroyPartitions_obliging (h : Divided r B b w own) (hw : w.Obliging)
    (keys : List TopicPartition) : (Broker.destroyPartitions keys b w).Obliging := by
  induction keys generalizing w own with
  | nil => exact hw
  | cons key keys ih =>
      rw [Broker.destroyPartitions]
      split
      · exact ih h hw
      · next p hp =>
          obtain ⟨own₁, h₁, -⟩ := h.destroy hp
          have hfr := destroy_frame (.refl (h.named_dir key)) (h.topics key p hp).1
          exact ih h₁ (hfr.obliging hw)

theorem destroyBroker_obliging (h : Divided r B b w own) (hw : w.Obliging) :
    (b.destroy w).Obliging := by
  obtain ⟨own₁, h₁, -⟩ := h.closeBroker
  obtain ⟨own₂, h₂, -⟩ := h₁.closeConfigs
  have hw₁ := h.closeBroker_obliging hw
  exact h₂.destroyPartitions_obliging (ConfigManager.close_obliging hw₁ _) _

theorem leave_obliging {srv : Server} (h : Divided r B srv.broker srv.world own)
    (hw : srv.world.Obliging) (closing : Bool) : (srv.leave closing).Obliging := by
  unfold Server.leave
  split_ifs
  · obtain ⟨own₁, h₁, -⟩ := h.closeBroker
    exact h₁.destroyBroker_obliging (h.closeBroker_obliging hw)
  · exact hw

theorem loadFiles_closable (h : Divided r B b w own) (hb : b.configManager.Closable)
    (hw : w.Obliging) {keys : List TopicPartition}
    (hkeys : ∀ key ∈ keys, key.Encodable ∧ key.Loadable)
    (hhas : ∀ key, b.Has key → key.Loadable) :
    (ConfigManager.loadFiles keys b.configManager w).1.Closable ∧
      (ConfigManager.loadFiles keys b.configManager w).2.Obliging := by
  induction keys generalizing b w own with
  | nil => exact ⟨hb, hw⟩
  | cons key keys ih =>
      obtain ⟨hk, hload⟩ := hkeys key List.mem_cons_self
      obtain ⟨own₁, h₁, -⟩ :=
        h.open hk (fun key' hkey' heq => (hhas key' hkey').toString_inj hload heq)
      have hfr := ConfigManager.open_frame (.refl (h.named_cfg key))
        (ConfigManager.inside_path hk h.conf rfl)
      rw [ConfigManager.loadFiles]
      refine ih h₁ (hb.open key w) (hfr.obliging hw)
        (fun k hin => hkeys k (List.mem_cons_of_mem key hin)) ?_
      intro key' hkey'
      by_cases hkk : key' = key
      · exact hkk ▸ hload
      · refine hhas key' (hkey'.imp_right (fun hin => ?_))
        rw [← AList.lookup_isSome] at hin ⊢
        rwa [← (b.configManager.open_leaves key w).lookup key' hkk]

theorem loadPartitions_closable (h : Divided r B b w own) (hb : b.Closable) (hw : w.Obliging)
    (keys : List TopicPartition) :
    (Broker.loadPartitions keys b w).2.1.Closable ∧
      (Broker.loadPartitions keys b w).2.2.Obliging := by
  induction keys generalizing b w own with
  | nil => exact ⟨hb, hw⟩
  | cons key keys ih =>
      rw [Broker.loadPartitions]
      split
      · exact ih h hb hw
      · next cfg hcfg =>
          have hhas : b.Has key := Or.inr (mem_of_lookup hcfg)
          have hadd := h.add_closable hb hw (h.encodable key hhas)
            cfg.info.maxSegmentSize cfg.info.maxPartitionSize cfg.info.segmentTtl
          obtain ⟨own₁, h₁, -⟩ := h.createAndAddNewPartition (h.encodable key hhas) (h.free hhas)
            cfg.info.maxSegmentSize cfg.info.maxPartitionSize cfg.info.segmentTtl
          rcases he : b.createAndAddNewPartition key cfg.info.maxSegmentSize
            cfg.info.maxPartitionSize cfg.info.segmentTtl w with ⟨_ | _, b₁, w₁⟩
          · rw [he] at hadd
            exact hadd
          · rw [he] at hadd h₁
            exact ih h₁ hadd.1 hadd.2

theorem new_closable (r : RawPath) (order : KeyOrder) (hw : w.Obliging) :
    (Broker.new r order w).1.Closable ∧ (Broker.new r order w).2.Obliging := by
  refine ⟨⟨fun key p hp => ?_, ConfigManager.closable_empty _ order⟩, ?_⟩
  · rw [show (Broker.new r order w).1.topics.lookup key = none from AList.lookup_empty key] at hp
    cases hp
  · have hs : w.served.2.Obliging := by
      rw [World.served_serving (hw.serving 1)]
      exact hw.rest
    unfold Broker.new ConfigManager.new World.createDirectories
    dsimp only
    split
    · next w₁ he =>
        rw [he] at hs
        exact hs
    · next w₁ he =>
        rw [he] at hs
        exact hs

theorem restart_closable (srv : Server) (h : Divided r B srv.broker srv.world own)
    (hw : srv.world.Obliging) (closing : Bool) :
    (srv.restart closing).2.broker.Closable ∧ (srv.restart closing).2.world.Obliging := by
  obtain ⟨b', own₁, h₁, -⟩ := h.leave closing
  obtain ⟨own₂, h₂, -⟩ := h₁.reborn srv.broker.order
  obtain ⟨hb₂, hw₂⟩ := new_closable r srv.broker.order (h.leave_obliging hw closing)
  have hnone : ∀ key, (Broker.new r srv.broker.order (srv.leave closing)).1.Has key →
      key.Loadable := by
    rintro key (hkey | hkey) <;> exact absurd hkey (AList.notMem_empty key)
  obtain ⟨own₃, h₃, -⟩ := h₂.loadFiles (fun _ => h₂.names) hnone
  obtain ⟨hc₃, hw₃⟩ := h₂.loadFiles_closable hb₂.configs hw₂ (fun _ => h₂.names) hnone
  unfold Server.restart
  rw [h.basePath]
  exact h₃.loadPartitions_closable ⟨hb₂.partitions, hc₃⟩ hw₃ _

/-- A step whose calls are all served leaves a broker that can be closed. -/
theorem stepWith_closable {srv : Server} (h : Divided r B srv.broker srv.world own)
    (hb : srv.broker.Closable) {x : Request × List Outcome} (hadm : srv.broker.Admits x.1)
    (hx : .fail ∉ x.2) : (srv.stepWith x).2.broker.Closable := by
  have h₀ : Divided r B srv.broker { srv.world with outcomes := x.2 } own := h.of_fs rfl
  have hw : World.Obliging { srv.world with outcomes := x.2 } := fun o ho hfail => hx (hfail ▸ ho)
  obtain ⟨request, outcomes⟩ := x
  cases request with
  | tick seconds => exact hb
  | createPartition request => exact (h₀.createPartition_closable hb hw request hadm).1
  | deletePartition key => exact (h₀.deletePartition_closable hb hw key).1
  | deleteTopic topic => exact (h₀.deleteTopic_closable hb hw topic).1
  | sendMessage key payload => exact (h₀.sendMessage_closable hb hw key payload).1
  | getMessage key offset => exact hb
  | getOffsets key => exact hb
  | restart closing =>
      exact (restart_closable ⟨srv.broker, { srv.world with outcomes := outcomes }⟩ h₀ hw closing).1

end Divided

end MyKafka
