import MyKafka.BrokerDeletion

/-!
# Deletions that fail

A deletion closes a partition before it takes its key out of the two maps, and no exit opens again
what was closed. So a deletion leaves each of its keys whole, or takes it away whole, exactly if it
answers without an error.
-/

namespace Posix

namespace FileSystem

/-- Nothing was added to the tree. -/
def Shrinks (fs fs' : FileSystem) : Prop := ∀ q n, fs'.node? q = some n → fs.node? q = some n

variable {fs fs' fs'' : FileSystem}

theorem Shrinks.refl (fs : FileSystem) : Shrinks fs fs := fun _ _ => id

theorem Shrinks.trans (h : Shrinks fs fs') (h' : Shrinks fs' fs'') : Shrinks fs fs'' :=
  fun q n hq => h q n (h' q n hq)

theorem Shrinks.setData (h : Shrinks fs fs') (i : ℕ) (d : FileData) :
    Shrinks fs (fs'.setData i d) := by
  intro q n hq
  rw [node?_setData] at hq
  exact h q n hq

theorem Shrinks.discard (h : Shrinks fs fs') (gone : Path → Bool) :
    Shrinks fs (fs'.discard gone) := by
  intro q n hq
  apply h
  by_cases hroot : q = []
  · subst hroot
    exact hq
  · rw [node?_discard fs' gone hroot] at hq
    split_ifs at hq
    exact hq

theorem Shrinks.walk (h : Shrinks fs fs') {cur d : Path} {ns : List Name}
    (hw : fs'.walk cur ns = some d) : fs.walk cur ns = some d := by
  induction ns generalizing cur with
  | nil => exact hw
  | cons n ns ih =>
      rw [FileSystem.walk] at hw ⊢
      split_ifs at hw with hdir
      have hdir' : fs.IsDir cur := h cur .dir hdir
      rw [if_pos hdir']
      exact ih hw

theorem Shrinks.node?_eq_none (h : Shrinks fs fs') {q : Path} (hq : fs.node? q = none) :
    fs'.node? q = none := by
  rw [Option.eq_none_iff_forall_ne_some] at hq ⊢
  exact fun n hn => hq n (h q n hn)

end FileSystem

namespace World

open FileSystem

/-- The path leads to nothing, unless it is the root. -/
def Gone (w : World) (r : RawPath) : Prop :=
  ∀ d, w.fs.resolve r = some d → d ≠ [] → w.fs.node? d = none

variable {w w' : World} {r : RawPath}

theorem Gone.shrinks (h : w.Gone r) (hs : Shrinks w.fs w'.fs) : w'.Gone r :=
  fun d hd hroot => hs.node?_eq_none (h d (hs.walk hd) hroot)

theorem removeAll_shrinks (w : World) (r : RawPath) : Shrinks w.fs (w.removeAll r).fs := by
  unfold removeAll
  split
  · exact .refl _
  · exact (Shrinks.refl _).discard _

theorem removeAll_gone_path (w : World) (r : RawPath) : (w.removeAll r).Gone r := by
  intro d hd hroot
  have hres := (w.removeAll_shrinks r).walk hd
  exact removeAll_gone hres hroot (List.prefix_refl d)

theorem remove_shrinks (w : World) (r : RawPath) : Shrinks w.fs (w.remove r).fs := by
  unfold remove
  split
  · exact .refl _
  · split
    · exact .refl _
    · exact (Shrinks.refl _).discard _
    · split_ifs
      · exact (Shrinks.refl _).discard _
      · exact .refl _

theorem ftruncate_shrinks (w : World) (d : Desc) (size : ℤ) :
    Shrinks w.fs (w.ftruncate d size).2.fs := by
  have hs := w.fs_served
  unfold ftruncate
  rcases he : w.served with ⟨_ | _, w₁⟩
  · rw [he] at hs
    rw [show w₁.fs = w.fs from hs]
    exact .refl _
  · rw [he] at hs
    cases d with
    | live num i =>
        dsimp only
        split_ifs
        · rw [show w₁.fs = w.fs from hs]
          exact .refl _
        · rw [fs_setImage, show w₁.fs = w.fs from hs]
          exact (Shrinks.refl _).setData _ _
    | stale num =>
        rw [show w₁.fs = w.fs from hs]
        exact .refl _
    | closed =>
        rw [show w₁.fs = w.fs from hs]
        exact .refl _

end World

end Posix

namespace MyKafka

open Posix FileSystem

variable {w w' : World}

namespace Index

theorem close_shrinks (x : Index) (w : World) : Shrinks w.fs (x.close w).2.2.fs := by
  unfold Index.close
  split_ifs
  · exact .refl _
  · have hm := w.fs_munmap x.addr
    rcases he : w.munmap x.addr with ⟨_ | _, w₁⟩
    · rw [he] at hm
      rw [show w₁.fs = w.fs from hm]
      exact .refl _
    · rw [he] at hm
      have ht := w₁.ftruncate_shrinks x.fd x.position
      rw [show w₁.fs = w.fs from hm] at ht
      dsimp only
      rcases he' : w₁.ftruncate x.fd x.position with ⟨_ | _, w₂⟩
      · rw [he'] at ht
        exact ht
      · rw [he'] at ht
        have hc := w₂.fs_close x.fd
        dsimp only
        rcases he'' : w₂.close x.fd with ⟨_ | _, w₃⟩
        all_goals
          rw [he''] at hc
          rw [show w₃.fs = w₂.fs from hc]
          exact ht

end Index

namespace Segment

theorem close_shrinks (s : Segment) (w : World) : Shrinks w.fs (s.close w).2.2.fs := by
  unfold Segment.close
  split_ifs
  · exact .refl _
  · have hc := w.fs_close s.fd
    rcases he : w.close s.fd with ⟨_ | _, w₁⟩
    · rw [he] at hc
      rw [show w₁.fs = w.fs from hc]
      exact .refl _
    · rw [he] at hc
      have hr := w₁.fs_close s.fdRead
      dsimp only
      rcases he' : w₁.close s.fdRead with ⟨_ | _, w₂⟩
      · rw [he'] at hr
        rw [show w₂.fs = w₁.fs from hr, show w₁.fs = w.fs from hc]
        exact .refl _
      · rw [he'] at hr
        have hx := s.index.close_shrinks w₂
        rw [show w₂.fs = w₁.fs from hr, show w₁.fs = w.fs from hc] at hx
        exact hx

theorem destroy_shrinks (s : Segment) (w : World) : Shrinks w.fs (s.destroy w).fs :=
  (s.close_shrinks w).trans ((s.close w).2.1.index.close_shrinks _)

end Segment

namespace Partition

variable {p p' : Partition}

theorem closeSegments_shrinks (ss : List Segment) (w : World) :
    Shrinks w.fs (closeSegments ss w).2.2.fs := by
  induction ss generalizing w with
  | nil => exact .refl _
  | cons s ss ih =>
      have hs := s.close_shrinks w
      rw [closeSegments]
      rcases he : s.close w with ⟨_ | _, t, w₁⟩
      · rw [he] at hs
        exact hs
      · rw [he] at hs
        exact hs.trans ((t.destroy_shrinks w₁).trans (ih (t.destroy w₁)))

/-- Whatever `close` answers, the partition takes no more requests. -/
theorem close_cancels (p : Partition) (w : World) :
    (p.close w).2.1.cancel = true ∧ (p.close w).2.1.path = p.path ∧
      Shrinks w.fs (p.close w).2.2.fs := by
  have hs := closeSegments_shrinks p.segments w
  unfold Partition.close
  rcases he : closeSegments p.segments w with ⟨_ | _, ss, w₁⟩
  all_goals
    rw [he] at hs
    exact ⟨rfl, rfl, hs⟩

theorem deletePartition_cancels (p : Partition) (w : World) :
    (p.deletePartition w).2.1.cancel = true ∧ Shrinks w.fs (p.deletePartition w).2.2.fs := by
  obtain ⟨hcancel, hpath, hs⟩ := p.close_cancels w
  unfold Partition.deletePartition
  rcases he : p.close w with ⟨_ | _, p₁, w₁⟩
  · rw [he] at hcancel hs
    exact ⟨hcancel, hs⟩
  · rw [he] at hcancel hs
    exact ⟨hcancel, hs.trans (w₁.removeAll_shrinks p₁.path)⟩

theorem deletePartition_gone (h : p.deletePartition w = (.ok (), p', w')) : w'.Gone p.path := by
  obtain ⟨-, hpath, -⟩ := p.close_cancels w
  unfold Partition.deletePartition at h
  rcases he : p.close w with ⟨_ | _, p₁, w₁⟩
  · rw [he] at h
    cases h
  · rw [he] at h hpath
    cases h
    rw [← show p'.path = p.path from hpath]
    exact w₁.removeAll_gone_path p'.path

end Partition

namespace ConfigManager

variable {c c' : ConfigManager} {key key' : TopicPartition}

/-- What is not in the store does not come back, and only what succeeds takes a key out. -/
theorem remove_drops (c : ConfigManager) (key : TopicPartition) (w : World) :
    Shrinks w.fs (c.remove key w).2.2.fs ∧
      (∀ key', c.configs.lookup key' = none → (c.remove key w).2.1.configs.lookup key' = none) ∧
      ((c.remove key w).1 = .ok () → (c.remove key w).2.1.configs.lookup key = none) := by
  unfold ConfigManager.remove closeKey
  rcases hcfg : c.configs.lookup key with _ | found
  · exact ⟨.refl _, fun _ => id, fun hok => absurd hok (by rintro ⟨⟩)⟩
  · have hother : ∀ key', c.configs.lookup key' = none → key' ≠ key := by
      rintro key' hnone rfl
      rw [hcfg] at hnone
      cases hnone
    obtain ⟨hfs, -⟩ := c.closeInfo_uses key found w
    dsimp only
    rcases he : c.closeInfo key found w with ⟨_ | _, info, w₁⟩
    · rw [he] at hfs
      refine ⟨?_, fun key' hnone => ?_, fun hok => absurd hok (by rintro ⟨⟩)⟩
      · rw [show w₁.fs = w.fs from hfs]
        exact .refl _
      · exact (lookup_replace_ne (hother key' hnone) info).trans hnone
    · rw [he] at hfs
      refine ⟨?_, fun key' hnone => ?_, fun _ => AList.lookup_erase _ _⟩
      · have hr := w₁.remove_shrinks (c.path key)
        rw [show w₁.fs = w.fs from hfs] at hr
        exact hr
      · exact (AList.lookup_erase_ne (hother key' hnone)).trans hnone

end ConfigManager

/-! ## Which keys a deletion takes away -/

namespace Broker

variable {b b' : Broker} {key : TopicPartition} {keys : List TopicPartition} {p : Partition}
  {e : Error}

theorem deleteEntries_drops (keys : List TopicPartition) (b : Broker) (w : World) :
    Shrinks w.fs (deleteEntries keys b w).2.2.fs ∧
      ∀ key, b.configManager.configs.lookup key = none →
        (deleteEntries keys b w).2.1.configManager.configs.lookup key = none := by
  induction keys generalizing b w with
  | nil => exact ⟨.refl _, fun _ => id⟩
  | cons key keys ih =>
      rw [deleteEntries]
      split
      · exact ih b w
      · next p _ =>
          obtain ⟨-, hs⟩ := p.deletePartition_cancels w
          rcases he : p.deletePartition w with ⟨_ | _, p₁, w₁⟩
          · rw [he] at hs
            exact ⟨hs, fun _ => id⟩
          · rw [he] at hs
            obtain ⟨hs₁, hnone, -⟩ := b.configManager.remove_drops key w₁
            dsimp only
            rcases he' : b.configManager.remove key w₁ with ⟨_ | _, c, w₂⟩
            · rw [he'] at hs₁ hnone
              exact ⟨hs.trans hs₁, hnone⟩
            · rw [he'] at hs₁ hnone
              obtain ⟨hs₂, hnone₂⟩ :=
                ih { b with topics := b.topics.replace key p₁, configManager := c } w₂
              exact ⟨(hs.trans hs₁).trans hs₂, fun key' h => hnone₂ key' (hnone key' h)⟩

/-- A loop that goes through takes the entries and the directories of its keys. -/
theorem deleteEntries_ok (h : deleteEntries keys b w = (.ok (), b', w')) (hkey : key ∈ keys)
    (hp : b.topics.lookup key = some p) :
    b'.configManager.configs.lookup key = none ∧ w'.Gone p.path := by
  induction keys generalizing b w with
  | nil => cases hkey
  | cons key' keys ih =>
      rw [deleteEntries] at h
      by_cases hk : key = key'
      · subst hk
        rw [hp] at h
        dsimp only at h
        rcases he : p.deletePartition w with ⟨_ | _, p₁, w₁⟩
        · rw [he] at h
          cases h
        · have hgone := Partition.deletePartition_gone he
          obtain ⟨hs₁, -, hnone⟩ := b.configManager.remove_drops key w₁
          rw [he] at h
          dsimp only at h
          rcases he' : b.configManager.remove key w₁ with ⟨_ | _, c, w₂⟩
          · rw [he'] at h
            cases h
          · rw [he'] at h hs₁ hnone
            obtain ⟨hs₂, hdrops⟩ := deleteEntries_drops keys
              { b with topics := b.topics.replace key p₁, configManager := c } w₂
            dsimp only at h
            rw [h] at hs₂ hdrops
            exact ⟨hdrops key (hnone rfl), (hgone.shrinks hs₁).shrinks hs₂⟩
      · have hin : key ∈ keys := (List.mem_cons.mp hkey).resolve_left hk
        split at h
        · exact ih h hin hp
        · next p' hp' =>
            rcases he : p'.deletePartition w with ⟨_ | _, p₁, w₁⟩
            · rw [he] at h
              cases h
            · rw [he] at h
              dsimp only at h
              rcases he' : b.configManager.remove key' w₁ with ⟨_ | _, c, w₂⟩
              · rw [he'] at h
                cases h
              · rw [he'] at h
                refine ih h hin ?_
                exact (lookup_replace_ne hk p₁).trans hp

/-- A loop that stops leaves a partition that takes no more requests. -/
theorem deleteEntries_error (h : deleteEntries keys b w = (.error e, b', w')) :
    ∃ key ∈ keys, key ∈ b.topics ∧ ∃ p, b'.topics.lookup key = some p ∧ p.cancel = true := by
  induction keys generalizing b w with
  | nil => cases h
  | cons key keys ih =>
      rw [deleteEntries] at h
      split at h
      · obtain ⟨key', hin, hrest⟩ := ih h
        exact ⟨key', List.mem_cons_of_mem key hin, hrest⟩
      · next p hp =>
          have hmem : key ∈ b.topics := mem_of_lookup hp
          obtain ⟨hcancel, -⟩ := p.deletePartition_cancels w
          rcases he : p.deletePartition w with ⟨_ | _, p₁, w₁⟩
          · rw [he] at h hcancel
            cases h
            exact ⟨key, List.mem_cons_self, hmem, p₁, lookup_replace_same hmem p₁, hcancel⟩
          · rw [he] at h hcancel
            dsimp only at h
            rcases he' : b.configManager.remove key w₁ with ⟨_ | _, c, w₂⟩
            · rw [he'] at h
              cases h
              exact ⟨key, List.mem_cons_self, hmem, p₁, lookup_replace_same hmem p₁, hcancel⟩
            · rw [he'] at h
              obtain ⟨key', hin, hmem', hrest⟩ := ih h
              refine ⟨key', List.mem_cons_of_mem key hin, ?_, hrest⟩
              exact AList.mem_replace.mp hmem'

/-- Keys that are there, open, are deleted when no call is refused. -/
theorem deleteEntries_served (hw : w.Obliging) (hnodup : keys.Nodup)
    (hdel : ∀ key ∈ keys, b.Deletable key) :
    ∃ b' w', deleteEntries keys b w = (.ok (), b', w') := by
  induction keys generalizing b w with
  | nil => exact ⟨b, w, rfl⟩
  | cons key keys ih =>
      obtain ⟨hfresh, hnodup⟩ := List.nodup_cons.mp hnodup
      obtain ⟨⟨p, hp, hclosable⟩, cfg, i, hcfg, hopen⟩ := hdel key List.mem_cons_self
      obtain ⟨p₁, w₁, hpart, -, -, hw₁⟩ := hclosable.deletePartition hw
      obtain ⟨w₂, hrem, -, hw₂⟩ := ConfigManager.remove_open
        (World.obliging_removeAll hw₁ p.path) hcfg hopen
      have hrest : ∀ key' ∈ keys, ({ b with
          topics := b.topics.replace key p₁
          configManager := { b.configManager with
            configs := b.configManager.configs.erase key } } : Broker).Deletable key' := by
        intro key' hin
        have hne : key' ≠ key := by
          rintro rfl
          exact hfresh hin
        exact (hdel key' (List.mem_cons_of_mem key hin)).congr (lookup_replace_ne hne p₁)
          (AList.lookup_erase_ne hne)
      obtain ⟨b', w', hloop⟩ := ih (World.obliging_remove hw₂ _) hnodup hrest
      refine ⟨b', w', ?_⟩
      rw [deleteEntries, hp]
      dsimp only
      rw [hpart]
      dsimp only
      rw [hrem]
      exact hloop

end Broker

/-! ## Steps -/

def Request.IsDeletion : Request → Prop
  | .deletePartition _ | .deleteTopic _ => True
  | _ => False

/-- The response carries no error. -/
def Response.isOk : Response → Bool
  | .ticked => true
  | .created res => res.isOk
  | .deleted res => res.isOk
  | .sent response => response.error.isOk
  | .message response => response.error.isOk
  | .offsets response => response.error.isOk
  | .loaded res => res.isOk

namespace Server

variable {srv srv' : Server} {x : Request × List Outcome} {key : TopicPartition}

/-- The keys a deletion is to take away. -/
def Concerns (srv : Server) : Request → TopicPartition → Prop
  | .deletePartition key, key' => key' = key
  | .deleteTopic topic, key' => key' ∈ srv.broker.topics ∧ key'.topic = topic
  | _, _ => False

/-- The key is in both maps, its partition is open and answers what it did before. -/
structure Present (srv srv' : Server) (key : TopicPartition) : Prop where
  topics : ∃ p, srv'.broker.topics.lookup key = some p ∧ p.cancel = false
  configs : key ∈ srv'.broker.configManager.configs
  messages : ∀ o, (srv'.broker.getMessage key o srv'.world).1 =
    (srv.broker.getMessage key o srv.world).1

/-- The key is in neither map, and the directory of its partition is gone. -/
structure Absent (srv srv' : Server) (key : TopicPartition) : Prop where
  topics : srv'.broker.topics.lookup key = none
  configs : srv'.broker.configManager.configs.lookup key = none
  directory : ∀ p, srv.broker.topics.lookup key = some p → srv'.world.Gone p.path

/-- The deletion leaves each of its keys whole or takes it away whole, and after an error it can be
made again. -/
structure AllOrNothing (srv : Server) (x : Request × List Outcome) : Prop where
  whole : ∀ key, srv.Concerns x.1 key →
    Present srv (srv.stepWith x).2 key ∨ Absent srv (srv.stepWith x).2 key
  again : (srv.stepWith x).1 ≠ .deleted (.ok ()) →
    ((srv.stepWith x).2.stepWith (x.1, [])).1 = .deleted (.ok ()) ∧
      ∀ key, srv.Concerns x.1 key → Absent srv ((srv.stepWith x).2.stepWith (x.1, [])).2 key

/-- No call of a deletion is refused, and its keys are there, with all they have open. -/
def DeletionServed (srv : Server) (x : Request × List Outcome) : Prop :=
  x.1.IsDeletion → .fail ∉ x.2 ∧ ∀ key, srv.Concerns x.1 key → srv.broker.Deletable key

theorem stepWith_deletePartition (srv : Server) (key : TopicPartition) (outs : List Outcome) :
    ∃ res b w, srv.broker.deletePartition key { srv.world with outcomes := outs } = (res, b, w) ∧
      srv.stepWith (.deletePartition key, outs) =
        (.deleted res, ⟨b, { w with outcomes := [] }⟩) := ⟨_, _, _, rfl, rfl⟩

theorem stepWith_deleteTopic (srv : Server) (topic : Str) (outs : List Outcome) :
    ∃ res b w, srv.broker.deleteTopic topic { srv.world with outcomes := outs } = (res, b, w) ∧
      srv.stepWith (.deleteTopic topic, outs) =
        (.deleted res, ⟨b, { w with outcomes := [] }⟩) := ⟨_, _, _, rfl, rfl⟩

/-- A deletion that answers without an error takes its keys away whole. -/
theorem absent_of_deleted (hx : x.1.IsDeletion) (hok : (srv.stepWith x).1 = .deleted (.ok ()))
    (hkey : srv.Concerns x.1 key) : Absent srv (srv.stepWith x).2 key := by
  obtain ⟨request, outs⟩ := x
  cases request with
  | deletePartition key' =>
      obtain rfl : key = key' := hkey
      obtain ⟨res, b, w, hdel, hstep⟩ := srv.stepWith_deletePartition key outs
      rw [hstep, Response.deleted.injEq] at hok
      subst hok
      rw [hstep]
      unfold Broker.deletePartition at hdel
      split at hdel
      · cases hdel
      · next p hp =>
          rcases he : p.deletePartition { srv.world with outcomes := outs } with ⟨_ | _, p₁, w₁⟩
          · rw [he] at hdel
            cases hdel
          · have hgone := Partition.deletePartition_gone he
            obtain ⟨hs, -, hnone⟩ := srv.broker.configManager.remove_drops key w₁
            rw [he] at hdel
            dsimp only at hdel
            rcases he' : srv.broker.configManager.remove key w₁ with ⟨res', c, w₂⟩
            rw [he'] at hdel hs hnone
            cases hdel
            refine ⟨AList.lookup_erase _ _, hnone rfl, fun p' hp' => ?_⟩
            rw [hp, Option.some.injEq] at hp'
            exact hp' ▸ hgone.shrinks hs
  | deleteTopic topic =>
      have hin := (srv.broker.mem_deleteList topic key).mpr hkey
      obtain ⟨p, hp⟩ := Option.isSome_iff_exists.mp (AList.lookup_isSome.mpr hkey.1)
      obtain ⟨res, b, w, hdel, hstep⟩ := srv.stepWith_deleteTopic topic outs
      rw [hstep, Response.deleted.injEq] at hok
      subst hok
      rw [hstep]
      unfold Broker.deleteTopic at hdel
      dsimp only at hdel
      rcases he : Broker.deleteEntries (srv.broker.keys.filter (fun key => key.topic = topic))
        srv.broker { srv.world with outcomes := outs } with ⟨_ | _, b₁, w₁⟩
      · rw [he] at hdel
        cases hdel
      · rw [he] at hdel
        cases hdel
        obtain ⟨hnone, hgone⟩ := Broker.deleteEntries_ok he hin hp
        refine ⟨?_, ?_, fun p' hp' => ?_⟩
        · dsimp only
          rw [Broker.lookup_eraseTopics, if_pos hin]
        · dsimp only
          rw [Broker.configManager_eraseTopics]
          exact hnone
        · rw [hp, Option.some.injEq] at hp'
          exact hp' ▸ hgone
  | _ => exact hx.elim

/-- A partition that takes no more requests is neither there nor away. -/
theorem not_whole {p : Partition} (hp : srv'.broker.topics.lookup key = some p)
    (hcancel : p.cancel = true) : ¬ (Present srv srv' key ∨ Absent srv srv' key) := by
  rintro (hpresent | habsent)
  · obtain ⟨p', hp', hopen⟩ := hpresent.topics
    rw [hp, Option.some.injEq] at hp'
    subst hp'
    rw [hcancel] at hopen
    cases hopen
  · have hnone := habsent.topics
    rw [hp] at hnone
    cases hnone

/-- A deletion that answers with an error leaves a key in two, or cannot be made again. -/
theorem deleted_of_allOrNothing (hx : x.1.IsDeletion) (h : AllOrNothing srv x) :
    (srv.stepWith x).1 = .deleted (.ok ()) := by
  by_contra hne
  obtain ⟨request, outs⟩ := x
  cases request with
  | deletePartition key =>
      obtain ⟨hagain, -⟩ := h.again hne
      have hwhole := h.whole key rfl
      obtain ⟨res, b, w, hdel, hstep⟩ := srv.stepWith_deletePartition key outs
      dsimp only at hagain hwhole
      rw [hstep] at hagain hwhole
      -- a key that is in the topics no more cannot be deleted again
      have hunknown : b.topics.lookup key ≠ none := by
        intro hnone
        obtain ⟨res', b', w', hdel', hstep'⟩ :=
          stepWith_deletePartition ⟨b, { w with outcomes := [] }⟩ key []
        rw [hstep', Response.deleted.injEq] at hagain
        subst hagain
        unfold Broker.deletePartition at hdel'
        rw [show (⟨b, { w with outcomes := [] }⟩ : Server).broker.topics.lookup key = none from hnone]
          at hdel'
        cases hdel'
      unfold Broker.deletePartition at hdel
      split at hdel
      · next hnone =>
          cases hdel
          exact hunknown hnone
      · next p hp =>
          obtain ⟨hcancel, -⟩ := p.deletePartition_cancels { srv.world with outcomes := outs }
          rcases he : p.deletePartition { srv.world with outcomes := outs } with ⟨_ | _, p₁, w₁⟩
          · rw [he] at hdel hcancel
            cases hdel
            exact not_whole (lookup_replace_same (mem_of_lookup hp) p₁) hcancel hwhole
          · rw [he] at hdel
            dsimp only at hdel
            rcases he' : srv.broker.configManager.remove key w₁ with ⟨res', c, w₂⟩
            rw [he'] at hdel
            cases hdel
            exact hunknown (AList.lookup_erase _ _)
  | deleteTopic topic =>
      obtain ⟨res, b, w, hdel, hstep⟩ := srv.stepWith_deleteTopic topic outs
      unfold Broker.deleteTopic at hdel
      dsimp only at hdel
      rcases he : Broker.deleteEntries (srv.broker.keys.filter (fun key => key.topic = topic))
        srv.broker { srv.world with outcomes := outs } with ⟨e | _, b₁, w₁⟩
      · rw [he] at hdel
        cases hdel
        obtain ⟨key, hin, -, p, hp, hcancel⟩ := Broker.deleteEntries_error he
        have hwhole := h.whole key ((srv.broker.mem_deleteList topic key).mp hin)
        rw [hstep] at hwhole
        exact not_whole hp hcancel hwhole
      · rw [he] at hdel
        cases hdel
        exact hne (by rw [hstep])
  | _ => exact hx

theorem allOrNothing_iff (hx : x.1.IsDeletion) :
    AllOrNothing srv x ↔ (srv.stepWith x).1 = .deleted (.ok ()) := by
  constructor
  · exact deleted_of_allOrNothing hx
  · intro hok
    exact ⟨fun key hkey => Or.inr (absent_of_deleted hx hok hkey), fun hne => absurd hok hne⟩

theorem DeletionServed.deleted (h : srv.DeletionServed x) (hx : x.1.IsDeletion) :
    (srv.stepWith x).1 = .deleted (.ok ()) := by
  obtain ⟨hfail, hdel⟩ := h hx
  obtain ⟨request, outs⟩ := x
  have hw : World.Obliging { srv.world with outcomes := outs } :=
    fun o ho hfail' => hfail (hfail' ▸ ho)
  cases request with
  | deletePartition key =>
      obtain ⟨⟨p, hp, hclosable⟩, cfg, i, hcfg, hopen⟩ := hdel key rfl
      obtain ⟨p₁, w₁, hpart, -, -, hw₁⟩ := hclosable.deletePartition hw
      obtain ⟨w₂, hrem, -⟩ := ConfigManager.remove_open
        (World.obliging_removeAll hw₁ p.path) hcfg hopen
      obtain ⟨res, b, w, hres, hstep⟩ := srv.stepWith_deletePartition key outs
      rw [hstep]
      unfold Broker.deletePartition at hres
      rw [hp] at hres
      dsimp only at hres
      rw [hpart] at hres
      dsimp only at hres
      rw [hrem] at hres
      cases hres
      rfl
  | deleteTopic topic =>
      obtain ⟨b₁, w₁, hloop⟩ := Broker.deleteEntries_served hw (srv.broker.nodup_deleteList topic)
        (fun key hin => hdel key ((srv.broker.mem_deleteList topic key).mp hin))
      obtain ⟨res, b, w, hres, hstep⟩ := srv.stepWith_deleteTopic topic outs
      rw [hstep]
      unfold Broker.deleteTopic at hres
      dsimp only at hres
      rw [hloop] at hres
      cases hres
      rfl
  | _ => exact hx.elim

/-- In a run whose deletions are served, each of them is made whole; and whatever the state and the
outcomes, a deletion is made whole exactly if it answers without an error. -/
theorem deletions_whole {xs : List (Request × List Outcome)}
    (hserved : Runs.Always stepWith DeletionServed srv xs) :
    Runs.Always stepWith (fun s x => x.1.IsDeletion → AllOrNothing s x) srv xs ∧
      ∀ (s : Server) (x : Request × List Outcome), x.1.IsDeletion →
        (AllOrNothing s x ↔ (s.stepWith x).1 = .deleted (.ok ())) := by
  refine ⟨Runs.always_mono (fun s x h hx => ?_) hserved, fun s x hx => allOrNothing_iff hx⟩
  exact (allOrNothing_iff hx).mpr (h.deleted hx)

/-- Two partitions of a topic. -/
theorem deletions_whole_two :
    let t : Str := ['t']
    Runs.Always stepWith (fun s x => x.1.IsDeletion → AllOrNothing s x)
      (Server.boot ⟨[], []⟩ ⟨id, fun _ => .refl _⟩ (World.blank 0))
      [(.createPartition ⟨t, 0, 100, 0, 0⟩, []), (.createPartition ⟨t, 1, 100, 0, 0⟩, []),
        (.sendMessage ⟨t, 0⟩ [1], []), (.deleteTopic t, [])] := by
  intro t
  set creations : List (Request × List Outcome) :=
    [(.createPartition ⟨t, 0, 100, 0, 0⟩, []), (.createPartition ⟨t, 1, 100, 0, 0⟩, []),
      (.sendMessage ⟨t, 0⟩ [1], [])] with hcreations
  have hreq : ∀ x ∈ creations, x.1.Decodable ∧ .fail ∉ x.2 := by decide
  have hboot : (Server.boot ⟨[], []⟩ ⟨id, fun _ => .refl _⟩ (World.blank 0)).broker.Closable :=
    (Divided.new_closable ⟨[], []⟩ ⟨id, fun _ => .refl _⟩ (Bare.blank 0).calm.obliging).1
  obtain ⟨-, hclosable⟩ := (Orderly.boot (Bare.blank 0) ⟨id, fun _ => .refl _⟩).run
    (fun x hx => (hreq x hx).1)
  have hb := hclosable hboot (fun x hx => (hreq x hx).2)
  have hserved : Runs.Always stepWith DeletionServed
      (Server.boot ⟨[], []⟩ ⟨id, fun _ => .refl _⟩ (World.blank 0))
      (creations ++ [(.deleteTopic t, [])]) := by
    rw [Runs.always_append]
    refine ⟨⟨fun h => h.elim, fun h => h.elim, fun h => h.elim, trivial⟩, fun _ => ⟨?_, ?_⟩, trivial⟩
    · decide
    · intro key hkey
      apply hb.deletable hkey.1
      have hkeys : (Runs.final stepWith (Server.boot ⟨[], []⟩ ⟨id, fun _ => .refl _⟩ (World.blank 0))
          creations).broker.topics.keys = (Runs.final stepWith (Server.boot ⟨[], []⟩
          ⟨id, fun _ => .refl _⟩ (World.blank 0)) creations).broker.configManager.configs.keys := by
        decide +kernel
      rw [AList.mem_keys, ← hkeys, ← AList.mem_keys]
      exact hkey.1
  exact (deletions_whole hserved).1

/-- A close that is refused leaves the partition closed in the topics. -/
theorem refused_close_keeps_closed :
    let key : TopicPartition := ⟨['t'], 0⟩
    let srv := Runs.final stepWith (Server.boot ⟨[], []⟩ ⟨id, fun _ => .refl _⟩ (World.blank 0))
      [(.createPartition ⟨['t'], 0, 100, 0, 0⟩, []), (.sendMessage key [1], [])]
    key ∈ srv.broker.topics ∧ key ∈ srv.broker.configManager.configs ∧
      ¬ AllOrNothing srv (.deletePartition key, [.fail]) := by
  intro key srv
  refine ⟨by decide +kernel, by decide +kernel, fun h => ?_⟩
  have hok := congrArg Response.isOk
    (deleted_of_allOrNothing (x := (.deletePartition key, [.fail])) trivial h)
  revert hok
  decide +kernel

end Server

end MyKafka
