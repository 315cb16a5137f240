import MyKafka.DeletionAtomicity

/-!
# Creations that fail

A creation opens and lists the partition before it makes the config file. Where making that file
cannot fail, a creation that fails leaves all as it was; elsewhere it leaves a partition that stores
every message and answers each with an error.
-/

namespace MyKafka

open Posix FileSystem MyKafka.Partition

variable {r : RawPath} {B : Path} {b b' : Broker} {w w' : World} {own : Name → ℕ → Prop}
  {key : TopicPartition}

namespace Partition

variable {p p' : Partition} {active : Segment} {payload : Payload} {offset : ℤ}

theorem cleanSegments_cancel {ss : List Segment} {res : Result Unit}
    (h : cleanSegments ss p w = (res, p', w')) : p'.cancel = p.cancel := by
  induction ss generalizing p w res with
  | nil =>
      cases h
      rfl
  | cons s ss ih =>
      rcases cleanSegments_turn h with ⟨res₁, e, -, hrest⟩ | ⟨-, hrest⟩ | ⟨-, hrest⟩
      all_goals
        have hcancel := ih hrest
        exact hcancel

theorem roll_cancel (p : Partition) (active : Segment) (w : World) :
    (p.roll active w).2.1.cancel = p.cancel := by
  unfold Partition.roll
  split_ifs
  · rcases (Segment.new p.path active.nextOffset p.maxSegmentSize).open w with ⟨_ | _, s, w₁⟩
    · rfl
    · dsimp only
      split_ifs
      · rcases he : ({ p with older := p.older ++ [active], activeSegment := some s } :
          Partition).cleanOldSegments w₁ with ⟨res, p₂, w₂⟩
        rw [cleanOldSegments] at he
        have hcancel := cleanSegments_cancel he
        exact hcancel
      · rfl
  · rfl

theorem write_cancel (p : Partition) (payload : Payload) (w : World) :
    (p.write payload w).2.1.cancel = p.cancel := by
  unfold Partition.write
  split_ifs
  · rfl
  · split
    · rfl
    · next active _ =>
        have hroll := p.roll_cancel active w
        rcases he : p.roll active w with ⟨_ | _, p₁, w₁⟩
        · rw [he] at hroll
          exact hroll
        · rw [he] at hroll
          dsimp only
          split
          · exact hroll
          · next active₁ _ =>
              rcases active₁.write payload w₁ with ⟨_ | _, t, w₂⟩ <;> exact hroll

/-- A partition that takes no more requests stores nothing. -/
theorem write_opened (h : (p.write payload w).1 = .ok offset) : p.cancel = false := by
  unfold Partition.write at h
  split_ifs at h with hcancel
  · cases h
  · exact Bool.eq_false_iff.mpr hcancel

end Partition

/-! ## Topics without a config entry -/

/-- Only partitions that take no more requests are listed without a config entry. -/
def Broker.Matched (b : Broker) : Prop :=
  ∀ key p, b.topics.lookup key = some p → key ∈ b.configManager.configs ∨ p.cancel = true

namespace Broker.Matched

theorem empty (r path : RawPath) (order order' : KeyOrder) :
    (⟨r, ∅, ⟨path, ∅, order⟩, order'⟩ : Broker).Matched := by
  intro key p hp
  rw [AList.lookup_empty] at hp
  cases hp

theorem mem_of_leaves {c c' : ConfigManager} {key' : TopicPartition}
    (h : ConfigManager.Leaves key c c') (hne : key' ≠ key) (hmem : key' ∈ c.configs) :
    key' ∈ c'.configs := by
  rw [← AList.lookup_isSome] at hmem ⊢
  rwa [h.lookup key' hne]

theorem one (h : b.Matched) (key : TopicPartition)
    (htopics : ∀ key' ≠ key, b'.topics.lookup key' = b.topics.lookup key')
    (hleaves : ConfigManager.Leaves key b.configManager b'.configManager)
    (hkey : ∀ p, b'.topics.lookup key = some p →
      key ∈ b'.configManager.configs ∨ p.cancel = true) : b'.Matched := by
  intro key' p hp
  by_cases hne : key' = key
  · subst hne
    exact hkey p hp
  · rw [htopics key' hne] at hp
    exact (h key' p hp).imp_left (mem_of_leaves hleaves hne)

theorem replace (h : b.Matched) {p p' : Partition} (hp : b.topics.lookup key = some p)
    (hcancel : p'.cancel = true ∨ p'.cancel = p.cancel) :
    ({ b with topics := b.topics.replace key p' } : Broker).Matched := by
  refine h.one key (fun key' hne => lookup_replace_ne hne p') (.refl key _) ?_
  intro p₁ hp₁
  rw [show ({ b with topics := b.topics.replace key p' } : Broker).topics.lookup key = some p' from
    lookup_replace_same (mem_of_lookup hp) p', Option.some.injEq] at hp₁
  subst hp₁
  rcases hcancel with hcancel | hcancel
  · exact Or.inr hcancel
  · rw [hcancel]
    exact h key p hp

theorem erase (h : b.Matched) (key : TopicPartition) :
    ({ b with topics := b.topics.erase key } : Broker).Matched :=
  fun key' p hp => h key' p (lookup_of_erase hp)

theorem deletePartition (h : b.Matched) (key : TopicPartition) (w : World) :
    (b.deletePartition key w).2.1.Matched := by
  unfold Broker.deletePartition
  split
  · exact h
  · next p hp =>
      obtain ⟨hcancel, -⟩ := p.deletePartition_cancels w
      rcases he : p.deletePartition w with ⟨_ | _, p₁, w₁⟩
      · rw [he] at hcancel
        exact h.replace hp (Or.inl hcancel)
      · have hleaves := b.configManager.remove_leaves key w₁
        dsimp only
        rcases he' : b.configManager.remove key w₁ with ⟨res, c, w₂⟩
        rw [he'] at hleaves
        refine h.one key (fun key' hne => AList.lookup_erase_ne hne) hleaves ?_
        intro p₂ hp₂
        rw [show ({ b with topics := b.topics.erase key, configManager := c } :
          Broker).topics.lookup key = none from AList.lookup_erase _ _] at hp₂
        cases hp₂

theorem deleteEntries (h : b.Matched) (keys : List TopicPartition) (w : World) :
    (Broker.deleteEntries keys b w).2.1.Matched := by
  induction keys generalizing b w with
  | nil => exact h
  | cons key keys ih =>
      rw [Broker.deleteEntries]
      split
      · exact ih h w
      · next p hp =>
          obtain ⟨hcancel, -⟩ := p.deletePartition_cancels w
          rcases he : p.deletePartition w with ⟨_ | _, p₁, w₁⟩
          · rw [he] at hcancel
            exact h.replace hp (Or.inl hcancel)
          · rw [he] at hcancel
            have hleaves := b.configManager.remove_leaves key w₁
            have hone : ∀ c, ConfigManager.Leaves key b.configManager c →
                ({ b with topics := b.topics.replace key p₁, configManager := c } :
                  Broker).Matched := by
              intro c hc
              refine h.one key (fun key' hne => lookup_replace_ne hne p₁) hc ?_
              intro p₂ hp₂
              rw [show ({ b with topics := b.topics.replace key p₁, configManager := c } :
                Broker).topics.lookup key = some p₁ from lookup_replace_same (mem_of_lookup hp) p₁,
                Option.some.injEq] at hp₂
              subst hp₂
              exact Or.inr hcancel
            dsimp only
            rcases he' : b.configManager.remove key w₁ with ⟨_ | _, c, w₂⟩
            · rw [he'] at hleaves
              exact hone c hleaves
            · rw [he'] at hleaves
              exact ih (hone c hleaves) w₂

theorem eraseTopics (h : b.Matched) (keys : List TopicPartition) :
    (Broker.eraseTopics keys b).Matched := by
  induction keys generalizing b with
  | nil => exact h
  | cons key keys ih => exact ih (h.erase key)

theorem deleteTopic (h : b.Matched) (topic : Str) (w : World) :
    (b.deleteTopic topic w).2.1.Matched := by
  have hloop := h.deleteEntries (b.keys.filter (fun key => key.topic = topic)) w
  unfold Broker.deleteTopic
  dsimp only
  rcases he : Broker.deleteEntries (b.keys.filter (fun key => key.topic = topic)) b w
    with ⟨_ | _, b₁, w₁⟩
  · rw [he] at hloop
    exact hloop
  · rw [he] at hloop
    exact hloop.eraseTopics _

theorem sendMessage (h : b.Matched) (key : TopicPartition) (payload : Payload) (w : World) :
    (b.sendMessage key payload w).2.1.Matched := by
  unfold Broker.sendMessage
  split
  · exact h
  · next p hp =>
      have hcancel := p.write_cancel payload w
      rcases he : p.write payload w with ⟨_ | offset, p₁, w₁⟩
      · rw [he] at hcancel
        exact h.replace hp (Or.inr hcancel)
      · rw [he] at hcancel
        have h₁ := h.replace hp (Or.inr hcancel)
        unfold ConfigManager.updateCommitOffset
        dsimp only
        split
        · exact h₁
        · exact fun key' p' hp' => (h₁ key' p' hp').imp_left AList.mem_replace.mpr

theorem loadPartitions (h : b.Matched) (keys : List TopicPartition) (w : World) :
    (Broker.loadPartitions keys b w).2.1.Matched := by
  induction keys generalizing b w with
  | nil => exact h
  | cons key keys ih =>
      rw [Broker.loadPartitions]
      split
      · exact ih h w
      · next cfg hcfg =>
          unfold Broker.createAndAddNewPartition
          rcases (Partition.new (b.partitionPath key) cfg.info.maxSegmentSize.toInt
            cfg.info.maxPartitionSize.toInt cfg.info.segmentTtl.toInt).open w with ⟨_ | _, p, w₁⟩
          · exact h
          · apply ih
            refine h.one key (fun key' hne => AList.lookup_insert_ne hne) (.refl key _) ?_
            exact fun _ _ => Or.inl (mem_of_lookup hcfg)

theorem restart (srv : Server) (closing : Bool) : (srv.restart closing).2.broker.Matched := by
  unfold Server.restart Broker.load
  apply loadPartitions
  exact fun key p hp => absurd hp (by simp [Broker.new])

end Broker.Matched

/-! ## One creation -/

/-- The first step of a creation. -/
def Broker.openNew (b : Broker) (request : TopicPartitionRequest) (w : World) :
    Result Unit × Partition × World :=
  (Partition.new (b.partitionPath request.key) request.maxSegmentSize.toInt
    request.maxPartitionSize.toInt request.segmentTtl.toInt).open w

theorem mem_insertNew {α β : Type} [DecidableEq α] (m : AList (fun _ : α => β)) (a : α) (v : β) :
    a ∈ insertNew m a v := by
  unfold insertNew
  split_ifs with h
  · exact h
  · exact (AList.mem_insert _).mpr (Or.inl rfl)

namespace Divided

theorem unfiled (h : Divided r B b w own) (hk : key.Encodable)
    (hfree : w.exists? (b.configManager.path key) = false) : w.fs.node? (cfgOf B key) = none := by
  have hres : w.fs.resolve (b.configManager.path key) = some (cfgOf B key) := by
    rw [ConfigManager.path_eq hk]
    exact h.conf.child key.plain_cfgName
  unfold World.exists? at hfree
  rw [hres] at hfree
  simpa using hfree

/-- A creation whose config file can be made fails before anything is listed. -/
theorem createPartition_served (h : Divided r B b w own) (request : TopicPartitionRequest)
    (hmem : request.key ∉ b.topics) (hsets : b.Sets request.key)
    (hfree : w.exists? (b.configManager.path request.key) = false)
    (hserve : (b.openNew request w).1 = .ok () → (b.openNew request w).2.2.Serving 6) :
    (∃ e w', b.createPartition request w = (.error e, b, w')) ∨
      ∃ p cfg w', b.createPartition request w = (.ok (), { b with
        topics := b.topics.insert request.key p
        configManager := { b.configManager with
          configs := insertNew b.configManager.configs request.key cfg } }, w') := by
  have hk := hsets.toEncodable
  have hnone := h.unfiled hk hfree
  have hadd := h.createAndAddNewPartition hk hsets.alone request.maxSegmentSize
    request.maxPartitionSize request.segmentTtl
  obtain ⟨hfr, -⟩ := h.frame_open request.key request.maxSegmentSize.toInt
    request.maxPartitionSize.toInt request.segmentTtl.toInt
  rw [← Broker.partitionPath_eq h.basePath hk] at hfr
  unfold Broker.createAndAddNewPartition at hadd
  unfold Broker.createPartition Broker.createAndAddNewPartition
  rw [show (⟨request.topic, request.partition⟩ : TopicPartition) = request.key from rfl, if_neg hmem]
  rcases he : (Partition.new (b.partitionPath request.key) request.maxSegmentSize.toInt
    request.maxPartitionSize.toInt request.segmentTtl.toInt).open w with ⟨e | _, p, w₁⟩
  · exact Or.inl ⟨e, p.destroy w₁, rfl⟩
  · right
    rw [Broker.openNew, he] at hserve
    rw [he] at hadd hfr
    obtain ⟨own₁, h₁, -⟩ := hadd
    have hnone₁ : w₁.fs.node? (cfgOf B request.key) = none := by
      rw [← hnone]
      exact hfr.within.node _ (fun hq =>
        request.key.toString_ne_configName (under_child hq (under_cfgOf request.key)))
    obtain ⟨cfg, i, w₂, hcreate, -⟩ := ConfigManager.create_spec (hserve rfl) hk h₁.conf hnone₁
      request.maxSegmentSize request.maxPartitionSize request.segmentTtl
    dsimp only at hcreate ⊢
    rw [hcreate]
    exact ⟨p, cfg, w₂, rfl⟩

end Divided

/-! ## Runs -/

namespace Server

variable {srv srv' : Server} {x : Request × List Outcome}

/-- The entries of both maps and what is read of every partition are the same. -/
structure Untouched (srv srv' : Server) : Prop where
  topics : ∀ key, srv'.broker.topics.lookup key = srv.broker.topics.lookup key
  configs : ∀ key, srv'.broker.configManager.configs.lookup key =
    srv.broker.configManager.configs.lookup key
  stored : ∀ key p, srv.broker.topics.lookup key = some p → ∀ o,
    (p.readAt o srv'.world).1 = (p.readAt o srv.world).1 ∧
      (p.readAt o srv'.world).2.1 = (p.readAt o srv.world).2.1

/-- A creation that fails changes nothing. -/
def CreationAtomic (srv : Server) (x : Request × List Outcome) : Prop :=
  ∀ request, x.1 = .createPartition request → (srv.stepWith x).1 ≠ .created (.ok ()) →
    Untouched srv (srv.stepWith x).2

/-- A message that the partition takes is answered without an error. -/
def SendAnswered (srv : Server) (x : Request × List Outcome) : Prop :=
  ∀ key payload, x.1 = .sendMessage key payload → ∀ p offset,
    srv.broker.topics.lookup key = some p →
    (p.write payload { srv.world with outcomes := x.2 }).1 = .ok offset →
    ∃ offset', (srv.stepWith x).1 = .sent ⟨.ok (), offset'⟩

/-- A creation is of a key that is there, or of one with a name of its own, no config file, and
served calls from the moment its partition is open. -/
def CreationServed (srv : Server) : Request × List Outcome → Prop
  | (.createPartition request, outs) =>
    request.key ∈ srv.broker.topics ∨ srv.broker.Sets request.key ∧
      srv.world.exists? (srv.broker.configManager.path request.key) = false ∧
      ((srv.broker.openNew request { srv.world with outcomes := outs }).1 = .ok () →
        (srv.broker.openNew request { srv.world with outcomes := outs }).2.2.Serving 6)
  | _ => True

theorem CreationServed.admits (h : srv.CreationServed x) : srv.broker.Admits x.1 := by
  obtain ⟨request, outs⟩ := x
  cases request with
  | createPartition request => exact h.imp_right And.left
  | _ => trivial

theorem CreationServed.cases (hown : HasOwners r B srv) {request : TopicPartitionRequest}
    {outs : List Outcome} (h : srv.CreationServed (.createPartition request, outs)) :
    ((srv.stepWith (.createPartition request, outs)).2.broker = srv.broker) ∨
      ((srv.stepWith (.createPartition request, outs)).1 = .created (.ok ()) ∧ ∃ p cfg,
        (srv.stepWith (.createPartition request, outs)).2.broker = { srv.broker with
          topics := srv.broker.topics.insert request.key p
          configManager := { srv.broker.configManager with
            configs := insertNew srv.broker.configManager.configs request.key cfg } }) := by
  obtain ⟨-, own, hdiv⟩ := hown
  have h₀ : Divided r B srv.broker { srv.world with outcomes := outs } own := hdiv.of_fs rfl
  unfold Server.stepWith Server.step
  by_cases hmem : request.key ∈ srv.broker.topics
  · left
    dsimp only
    rw [Broker.createPartition, show (⟨request.topic, request.partition⟩ : TopicPartition) =
      request.key from rfl, if_pos hmem]
  · obtain ⟨hsets, hfree, hserve⟩ := h.resolve_left hmem
    rcases h₀.createPartition_served request hmem hsets hfree hserve with
      ⟨e, w', he⟩ | ⟨p, cfg, w', he⟩
    · left
      dsimp only
      rw [he]
    · right
      dsimp only
      rw [he]
      exact ⟨rfl, p, cfg, rfl⟩

theorem CreationServed.atomic (hown : HasOwners r B srv) (h : srv.CreationServed x) :
    srv.CreationAtomic x := by
  obtain ⟨request, outs⟩ := x
  rintro request rfl hfail
  rcases h.cases hown with hsame | ⟨hok, -⟩
  · refine ⟨fun key => by rw [hsame], fun key => by rw [hsame], fun key p hp o => ?_⟩
    by_cases hkey : key = request.key
    · -- the key is there, and nothing is done
      subst hkey
      have hmem : request.key ∈ srv.broker.topics := mem_of_lookup hp
      have hworld : (srv.stepWith (.createPartition request, outs)).2.world = srv.world := by
        unfold Server.stepWith Server.step
        dsimp only
        rw [Broker.createPartition, show (⟨request.topic, request.partition⟩ : TopicPartition) =
          request.key from rfl, if_pos hmem]
        dsimp only
        rw [← show srv.world.outcomes = [] from hown.1]
      rw [hworld]
      exact ⟨rfl, rfl⟩
    · exact (hown.unchanged (x := (.createPartition request, outs)) h.admits hkey).stored p hp o
  · exact absurd hok hfail

/-- A creation that fails once its partition is open leaves the partition listed. -/
theorem created_of_atomic (request : TopicPartitionRequest) {outs : List Outcome}
    (hmem : request.key ∉ srv.broker.topics)
    (hopen : (srv.broker.openNew request { srv.world with outcomes := outs }).1 = .ok ())
    (h : srv.CreationAtomic (.createPartition request, outs)) :
    (srv.stepWith (.createPartition request, outs)).1 = .created (.ok ()) := by
  by_contra hfail
  have hnone := (h request rfl hfail).topics request.key
  have hlisted : (srv.stepWith (.createPartition request, outs)).2.broker.topics.lookup request.key =
      some (srv.broker.openNew request { srv.world with outcomes := outs }).2.1 := by
    have he : srv.broker.openNew request { srv.world with outcomes := outs } = (.ok (), _, _) :=
      Prod.ext hopen rfl
    rw [Broker.openNew] at he
    unfold Server.stepWith Server.step Broker.createPartition Broker.createAndAddNewPartition
    dsimp only
    rw [show (⟨request.topic, request.partition⟩ : TopicPartition) = request.key from rfl,
      if_neg hmem, he]
    exact AList.lookup_insert _
  rw [hlisted, AList.lookup_eq_none.mpr hmem] at hnone
  cases hnone

theorem sendAnswered (h : srv.broker.Matched) (x : Request × List Outcome) :
    srv.SendAnswered x := by
  obtain ⟨request, outs⟩ := x
  rintro key payload rfl p offset hp hwrite
  have hopened := write_opened hwrite
  have hmem : key ∈ srv.broker.configManager.configs := by
    refine (h key p hp).resolve_right ?_
    rw [hopened]
    exact Bool.false_ne_true
  obtain ⟨cfg, hcfg⟩ := Option.isSome_iff_exists.mp (AList.lookup_isSome.mpr hmem)
  unfold Server.stepWith Server.step Broker.sendMessage
  dsimp only
  rw [hp]
  dsimp only
  rcases he : p.write payload { srv.world with outcomes := outs } with ⟨_ | offset', p₁, w₁⟩
  · rw [he] at hwrite
    cases hwrite
  · dsimp only
    unfold ConfigManager.updateCommitOffset
    rw [hcfg]
    exact ⟨offset', rfl⟩

theorem matched_step (hown : HasOwners r B srv) (hm : srv.broker.Matched)
    (h : srv.CreationServed x) : (srv.stepWith x).2.broker.Matched := by
  obtain ⟨request, outs⟩ := x
  cases request with
  | createPartition request =>
      rcases h.cases hown with hsame | ⟨-, p, cfg, hnew⟩
      · rw [hsame]
        exact hm
      · rw [hnew]
        refine hm.one request.key (fun key' hne => AList.lookup_insert_ne hne)
          (.insertNew _ _ _) ?_
        exact fun _ _ => Or.inl (mem_insertNew _ _ _)
  | deletePartition key => exact hm.deletePartition key _
  | deleteTopic topic => exact hm.deleteTopic topic _
  | sendMessage key payload => exact hm.sendMessage key payload _
  | restart closing => exact .restart ⟨srv.broker, { srv.world with outcomes := outs }⟩ closing
  | tick seconds => exact hm
  | getMessage key offset => exact hm
  | getOffsets key => exact hm

end Server

/-- In a run whose creations can make their config file once the partition is open, a creation that
fails changes nothing, no partition that takes messages is without a config entry, and every message
that is stored is answered so; and whatever the state, a creation that fails once the partition is
open changes something. -/
theorem creations_atomic (h : Bare w r B) {order : KeyOrder} {xs : List (Request × List Outcome)}
    (hserved : Runs.Always Server.stepWith Server.CreationServed (Server.boot r order w) xs) :
    Runs.Always Server.stepWith (fun srv x => srv.CreationAtomic x ∧ srv.SendAnswered x ∧
      (srv.stepWith x).2.broker.Matched) (Server.boot r order w) xs ∧
    ∀ (srv : Server) (request : TopicPartitionRequest) (outs : List Outcome),
      request.key ∉ srv.broker.topics →
      (srv.broker.openNew request { srv.world with outcomes := outs }).1 = .ok () →
      srv.CreationAtomic (.createPartition request, outs) →
      (srv.stepWith (.createPartition request, outs)).1 = .created (.ok ()) := by
  have hboot : HasOwners r B (Server.boot r order w) ∧
      (Server.boot r order w).broker.Matched := by
    refine ⟨.boot h order, ?_⟩
    rw [h.boot_eq]
    exact .empty _ _ _ _
  refine ⟨?_, fun srv request outs hmem hopen => ?_⟩
  · refine Runs.always_of_invariant (P := fun srv => HasOwners r B srv ∧ srv.broker.Matched) ?_ ?_
      hboot hserved
    · rintro srv x ⟨hown, hm⟩ hx
      exact ⟨hx.atomic hown, srv.sendAnswered hm x, srv.matched_step hown hm hx⟩
    · rintro srv x ⟨hown, hm⟩ hx
      exact ⟨hown.stepWith hx.admits, srv.matched_step hown hm hx⟩
  · exact srv.created_of_atomic request hmem hopen

/-- A creation that is refused before the partition is open, and one that goes through. -/
theorem creations_atomic_refused :
    let t : Str := ['t']
    Runs.Always Server.stepWith (fun srv x => srv.CreationAtomic x ∧ srv.SendAnswered x ∧
        (srv.stepWith x).2.broker.Matched)
      (Server.boot ⟨[], []⟩ ⟨id, fun _ => .refl _⟩ (World.blank 0))
      [(.createPartition ⟨t, 0, 100, 0, 0⟩, [.fail]), (.createPartition ⟨t, 0, 100, 0, 0⟩, []),
        (.sendMessage ⟨t, 0⟩ [1], [])] := by
  intro t
  have hserved : Runs.Always Server.stepWith Server.CreationServed
      (Server.boot ⟨[], []⟩ ⟨id, fun _ => .refl _⟩ (World.blank 0))
      [(.createPartition ⟨t, 0, 100, 0, 0⟩, [.fail]), (.createPartition ⟨t, 0, 100, 0, 0⟩, []),
        (.sendMessage ⟨t, 0⟩ [1], [])] := by
    refine ⟨Or.inr ⟨by decide +kernel, by decide +kernel, fun hopen => ?_⟩,
      Or.inr ⟨by decide +kernel, by decide +kernel, fun _ => by decide +kernel⟩, trivial, trivial⟩
    have hok := congrArg Except.isOk hopen
    revert hok
    decide +kernel
  exact (creations_atomic (Bare.blank 0) hserved).1

/-- The topic `a/b` has a directory, but none for its config file. -/
theorem slash_half_created :
    let key : TopicPartition := ⟨['a', '/', 'b'], 0⟩
    let srv := Server.boot ⟨[], []⟩ ⟨id, fun _ => .refl _⟩ (World.blank 0)
    let made := (srv.stepWith (.createPartition ⟨key.topic, key.partition, 100, 0, 0⟩, [])).2
    ¬ srv.CreationAtomic (.createPartition ⟨key.topic, key.partition, 100, 0, 0⟩, []) ∧
      ¬ made.SendAnswered (.sendMessage key [1], []) := by
  intro key srv made
  refine ⟨fun h => ?_, fun h => ?_⟩
  · have hok := congrArg Response.isOk
      (srv.created_of_atomic ⟨key.topic, key.partition, 100, 0, 0⟩ (by decide +kernel)
        (eq_ok_of_isOk (by decide +kernel)) h)
    revert hok
    decide +kernel
  · have hstored : (made.broker.topics.lookup key).any (fun p =>
        (p.write [1] { made.world with outcomes := [] }).1.isOk) = true := by decide +kernel
    obtain ⟨p, hp, hwrite⟩ := (Option.any_eq_true _ _).mp hstored
    rcases he : (p.write [1] { made.world with outcomes := [] }).1 with _ | offset
    · rw [he] at hwrite
      cases hwrite
    · obtain ⟨offset', hsent⟩ := h key [1] rfl p offset hp he
      have hanswer : (made.stepWith (.sendMessage key [1], [])).1.isOk = false := by decide +kernel
      rw [hsent] at hanswer
      cases hanswer

end MyKafka
