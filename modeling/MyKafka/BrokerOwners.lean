import MyKafka.BrokerRestart
import MyKafka.OpenPartition

/-!
# Every inode belongs to a name

Whatever requests a broker has served and whatever the kernel has answered, the inodes its partitions
and config files use, and those its base directory names, are divided among the names of the keys. An
operation on a key works on the inodes of its name and on new ones, which it then owns.
-/

namespace MyKafka

open Posix MyKafka.Partition

/-! ## Confinement to what is used -/

section Mine

variable {S : Path → Prop} {I J : ℕ → Prop} {fs fs' : FileSystem} {i : ℕ}

theorem Segment.Confined.mine {s : Segment} (h : s.Confined S I fs) (hi : s.Uses i) :
    FileSystem.Mine I fs i := by
  rcases hi with ⟨num, hd⟩ | ⟨num, hd⟩ | ⟨num, hd⟩ | hd
  · have := h.fd
    rwa [hd] at this
  · have := h.fdRead
    rwa [hd] at this
  · have := h.index.fd
    rwa [hd] at this
  · have := h.index.addr
    rwa [hd] at this

theorem Segment.Confined.rebase {s : Segment} (h : s.Confined S I fs)
    (hJ : ∀ i, s.Uses i → J i) : s.Confined S J fs' := by
  have hdesc : ∀ {d : Desc}, (∀ i, d.Uses i → J i) → d.Mine J fs' := by
    intro d hd
    cases d with
    | live num i => exact Or.inr (hd i ⟨num, rfl⟩)
    | closed => trivial
    | stale num => trivial
  have haddr : ∀ {a : Addr}, (∀ i, a.Uses i → J i) → a.Mine J fs' := by
    intro a ha
    cases a with
    | mapped i => exact Or.inr (ha i rfl)
    | null | failed | stale => trivial
  exact ⟨h.filename, hdesc (fun i hi => hJ i (Or.inl hi)),
    hdesc (fun i hi => hJ i (Or.inr (Or.inl hi))), h.index.filename,
    hdesc (fun i hi => hJ i (Or.inr (Or.inr (Or.inl hi)))),
    haddr (fun i hi => hJ i (Or.inr (Or.inr (Or.inr hi))))⟩

variable {dir : Path} {p : Partition}

theorem Partition.Confined.mine (h : p.Confined dir I fs) (hi : p.Uses i) :
    FileSystem.Mine I fs i := by
  obtain ⟨s, hs, hi⟩ := hi
  exact (h.segments s hs).mine hi

/-- Confinement in another world, to the inodes the partition uses. -/
theorem Partition.Confined.rebase (h : p.Confined dir I fs) (hhome : Home fs' p.path dir)
    (hJ : ∀ i, p.Uses i → J i) : p.Confined dir J fs' := by
  refine ⟨hhome, fun s hs => ?_, fun s hs => ?_⟩
  · exact (h.older s hs).rebase (fun i hi => hJ i (.of_older ⟨s, hs, hi⟩))
  · exact (h.active s hs).rebase (fun i hi => hJ i (.of_active hs hi))

end Mine

/-! ## The division -/

/-- The key is known to one of the two maps. -/
def Broker.Has (b : Broker) (key : TopicPartition) : Prop :=
  key ∈ b.topics ∨ key ∈ b.configManager.configs

/-- The inodes of a broker are divided among the names of its keys. -/
structure Divided (r : RawPath) (B : Path) (b : Broker) (w : World) (own : Name → ℕ → Prop) :
    Prop where
  basePath : b.basePath = r
  confPath : b.configManager.basePath = r.child Broker.configName
  atBase : FileSystem.At w.fs r B
  atConf : FileSystem.At w.fs (r.child Broker.configName) (confDir B)
  below : ∀ n i, own n i → i < w.fs.nextIno
  apart : ∀ n m i, own n i → own m i → n = m
  named : ∀ (key : TopicPartition) q i, Owns B key q → w.fs.node? q = some (.file i) →
    own key.toString i
  outside : ∀ q i, ¬ Under B q → w.fs.node? q = some (.file i) → ∀ n, ¬ own n i
  filed : ∀ n, w.fs.node? (confDir B ++ [n]) ≠ none →
    ∃ key : TopicPartition, key.Encodable ∧ n = key.cfgName
  encodable : ∀ key, b.Has key → key.Encodable
  distinct : ∀ key key', b.Has key → b.Has key' → key.toString = key'.toString → key = key'
  topics : ∀ key p, b.topics.lookup key = some p →
    p.Confined (dirOf B key) (own key.toString) w.fs ∧ ∀ i, p.Uses i → own key.toString i
  configs : ∀ key i, b.configManager.Uses key i → own key.toString i

/-- The owners after a step of a name: it gets what is new. -/
def grant (own : Name → ℕ → Prop) (n : Name) (w w' : World) : Name → ℕ → Prop :=
  fun m i => own m i ∨ (m = n ∧ w.fs.nextIno ≤ i ∧ i < w'.fs.nextIno)

/-- What a step from `w` to `w'` that works on the keys `K` leaves of the others. -/
structure Spares (B : Path) (K : TopicPartition → Prop) (b : Broker) (w : World)
    (own : Name → ℕ → Prop) (b' : Broker) (w' : World) (own' : Name → ℕ → Prop) : Prop where
  kept : ∀ n i, own n i → own' n i
  data : ∀ n i, (∀ key, K key → key.toString ≠ n) → own n i → w'.fs.data i = w.fs.data i
  node : ∀ q, (∀ key, K key → ¬ Owns B key q) → w'.fs.node? q = w.fs.node? q
  outside : ∀ q i, ¬ Under B q → w.fs.node? q = some (.file i) → w'.fs.data i = w.fs.data i
  topics : ∀ key, ¬ K key → b'.topics.lookup key = b.topics.lookup key
  configs : ∀ key, ¬ K key → b'.configManager.configs.lookup key = b.configManager.configs.lookup key

variable {r : RawPath} {B : Path} {b b' b'' : Broker} {V : ℕ → Prop} {w w' w'' : World}
  {own own' own'' : Name → ℕ → Prop} {key : TopicPartition} {K : TopicPartition → Prop}

namespace Spares

theorem refl (B : Path) (K : TopicPartition → Prop) (b : Broker) (w : World)
    (own : Name → ℕ → Prop) : Spares B K b w own b w own :=
  ⟨fun _ _ => id, fun _ _ _ _ => rfl, fun _ _ => rfl, fun _ _ _ _ => rfl, fun _ _ => rfl,
    fun _ _ => rfl⟩

theorem node_outside (h : Spares B K b w own b' w' own') {q : Path} (hq : ¬ Under B q) :
    w'.fs.node? q = w.fs.node? q := h.node q (fun _ _ hown => hq hown.below)

theorem trans (h : Spares B K b w own b' w' own') (h' : Spares B K b' w' own' b'' w'' own'') :
    Spares B K b w own b'' w'' own'' where
  kept n i hi := h'.kept n i (h.kept n i hi)
  data n i hn hi := (h'.data n i hn (h.kept n i hi)).trans (h.data n i hn hi)
  node q hq := (h'.node q hq).trans (h.node q hq)
  outside q i hq hi :=
    (h'.outside q i hq ((h.node_outside hq).trans hi)).trans (h.outside q i hq hi)
  topics key hkey := (h'.topics key hkey).trans (h.topics key hkey)
  configs key hkey := (h'.configs key hkey).trans (h.configs key hkey)

theorem mono {K' : TopicPartition → Prop} (h : Spares B K b w own b' w' own')
    (hK : ∀ key, K key → K' key) : Spares B K' b w own b' w' own' where
  kept := h.kept
  data n i hn := h.data n i (fun key hkey => hn key (hK key hkey))
  node q hq := h.node q (fun key hkey => hq key (hK key hkey))
  outside := h.outside
  topics key hkey := h.topics key (fun hk => hkey (hK key hk))
  configs key hkey := h.configs key (fun hk => hkey (hK key hk))

end Spares

theorem owns_congr {key' : TopicPartition} {q : Path} (h : key.toString = key'.toString)
    (hq : Owns B key q) : Owns B key' q := by
  have hdir : dirOf B key = dirOf B key' := by rw [dirOf, h, dirOf]
  have hcfg : cfgOf B key = cfgOf B key' := by
    rw [cfgOf, cfgOf, TopicPartition.cfgName, TopicPartition.cfgName, h]
  rwa [Owns, hdir, hcfg] at hq

namespace Divided

theorem home (h : Divided r B b w own) (key : TopicPartition) :
    Home w.fs (r.child key.toString) (dirOf B key) :=
  ⟨r, B, key.toString, rfl, rfl, key.plain_toString, h.atBase⟩

theorem named_dir (h : Divided r B b w own) (key : TopicPartition) (i : ℕ)
    (hi : FileSystem.Named (Under (dirOf B key)) w.fs i) : own key.toString i := by
  obtain ⟨q, hq, hi⟩ := hi
  exact h.named key q i (Or.inl hq) hi

theorem named_cfg (h : Divided r B b w own) (key : TopicPartition) (i : ℕ)
    (hi : FileSystem.Named (fun q => q = cfgOf B key) w.fs i) : own key.toString i := by
  obtain ⟨q, hq, hi⟩ := hi
  exact h.named key q i (Or.inr hq) hi

theorem named_of_owns (h : Divided r B b w own) (key : TopicPartition) (i : ℕ)
    (hi : FileSystem.Named (Owns B key) w.fs i) : own key.toString i := by
  obtain ⟨q, hq, hi⟩ := hi
  exact h.named key q i hq hi

theorem frame_dir (h : Divided r B b w own)
    (hfr : Frame (Under (dirOf B key)) (own key.toString) w w') :
    Frame (Owns B key) (own key.toString) w w' :=
  hfr.widen (fun _ => Or.inl) (fun _ => id) (h.named_of_owns key)

theorem frame_cfg (h : Divided r B b w own)
    (hfr : Frame (fun q => q = cfgOf B key) (own key.toString) w w') :
    Frame (Owns B key) (own key.toString) w w' :=
  hfr.widen (fun _ => Or.inr) (fun _ => id) (h.named_of_owns key)

/-! ## A step that works on one key -/

theorem grant_mine {i : ℕ} (hi : FileSystem.Mine (own key.toString) w.fs i)
    (hlt : i < w'.fs.nextIno) : grant own key.toString w w' key.toString i := by
  rcases hi with hnew | hold
  · exact Or.inr ⟨rfl, hnew, hlt⟩
  · exact Or.inl hold

theorem grant_below (h : Divided r B b w own)
    (hfr : Frame (Owns B key) (own key.toString) w w') {n : Name} {i : ℕ}
    (hi : grant own key.toString w w' n i) : i < w'.fs.nextIno := by
  rcases hi with hi | ⟨-, -, hlt⟩
  · exact (h.below n i hi).trans_le hfr.within.next
  · exact hlt

theorem grant_apart (h : Divided r B b w own) {n m : Name} {i : ℕ}
    (hn : grant own key.toString w w' n i) (hm : grant own key.toString w w' m i) : n = m := by
  rcases hn with hi | ⟨hn, hge, -⟩ <;> rcases hm with hi' | ⟨hm, hge', -⟩
  · exact h.apart n m i hi hi'
  · exact absurd (h.below n i hi) (Nat.not_lt.mpr hge')
  · exact absurd (h.below m i hi') (Nat.not_lt.mpr hge)
  · rw [hn, hm]

theorem grant_named (h : Divided r B b w own)
    (hfr : Frame (Owns B key) (own key.toString) w w') {key' : TopicPartition} {q : Path} {i : ℕ}
    (hq : Owns B key' q) (hi : w'.fs.node? q = some (.file i)) :
    grant own key.toString w w' key'.toString i := by
  by_cases hname : key'.toString = key.toString
  · rw [hname]
    exact grant_mine (hfr.within.mine q i (owns_congr hname hq) hi) (FileSystem.node?_lt hi)
  · rw [hfr.within.node q (hq.disjoint hname)] at hi
    exact Or.inl (h.named key' q i hq hi)

theorem grant_outside (h : Divided r B b w own)
    (hfr : Frame (Owns B key) (own key.toString) w w') {q : Path} {i : ℕ} (hq : ¬ Under B q)
    (hi : w'.fs.node? q = some (.file i)) (n : Name) : ¬ grant own key.toString w w' n i := by
  rw [hfr.within.node q (fun hown => hq hown.below)] at hi
  rintro (hown | ⟨-, hge, -⟩)
  · exact h.outside q i hq hi n hown
  · exact absurd (FileSystem.node?_lt hi) (Nat.not_lt.mpr hge)

/-- What lies in the config directory still has the name of a key. -/
theorem filed_frame (h : Divided r B b w own) (hk : key.Encodable)
    (hfr : Frame (Owns B key) (own key.toString) w w') {n : Name}
    (hn : w'.fs.node? (confDir B ++ [n]) ≠ none) :
    ∃ key : TopicPartition, key.Encodable ∧ n = key.cfgName := by
  by_cases hown : Owns B key (confDir B ++ [n])
  · refine ⟨key, hk, ?_⟩
    rcases hown with hown | hown
    · exact absurd (under_child hown (List.prefix_append (confDir B) [n])) key.toString_ne_configName
    · simpa [cfgOf] using hown
  · rw [hfr.within.node _ hown] at hn
    exact h.filed n hn

theorem has_of_step (hleaves : ConfigManager.Leaves key b.configManager b'.configManager)
    (htopics : ∀ key' ≠ key, b'.topics.lookup key' = b.topics.lookup key') {key' : TopicPartition}
    (hkey' : b'.Has key') : key' = key ∨ b.Has key' := by
  by_cases hkk : key' = key
  · exact Or.inl hkk
  · refine Or.inr (hkey'.imp (fun hin => ?_) (fun hin => ?_))
    · rw [← AList.lookup_isSome, htopics key' hkk, AList.lookup_isSome] at hin
      exact hin
    · rw [← AList.lookup_isSome, hleaves.lookup key' hkk, AList.lookup_isSome] at hin
      exact hin

/-- A partition stays confined when it uses inodes its name owns after the step. -/
theorem confined_grant {key' : TopicPartition} {p : Partition} {I : ℕ → Prop}
    (hfr : Frame (Owns B key) (own key.toString) w w') (hconf : p.Confined (dirOf B key') I w.fs)
    (huses : ∀ i, p.Uses i → grant own key.toString w w' key'.toString i) :
    p.Confined (dirOf B key') (grant own key.toString w w' key'.toString) w'.fs := by
  refine hconf.rebase (hconf.home.frame hfr ?_) huses
  intro q hq hpre
  rw [dirOf, List.dropLast_concat] at hpre
  exact hq.not_above (prefix_confDir hpre)

theorem spares_grant (h : Divided r B b w own)
    (hfr : Frame (Owns B key) (own key.toString) w w')
    (hleaves : ConfigManager.Leaves key b.configManager b'.configManager)
    (htopics : ∀ key' ≠ key, b'.topics.lookup key' = b.topics.lookup key') :
    Spares B (fun key' => key' = key) b w own b' w' (grant own key.toString w w') where
  kept _ _ := Or.inl
  data n i hn hi := by
    refine hfr.within.data i ?_
    rintro (hnew | hold)
    · exact absurd (h.below n i hi) (Nat.not_lt.mpr hnew)
    · exact hn key rfl (h.apart n _ i hi hold).symm
  node q hq := hfr.within.node q (hq key rfl)
  outside q i hq hi := by
    refine hfr.within.data i ?_
    rintro (hnew | hold)
    · exact absurd (FileSystem.node?_lt hi) (Nat.not_lt.mpr hnew)
    · exact h.outside q i hq hi _ hold
  topics := htopics
  configs := hleaves.lookup

theorem divided_grant (h : Divided r B b w own) (hk : key.Encodable)
    (hfree : ∀ key', b.Has key' → key'.toString = key.toString → key' = key)
    (hfr : Frame (Owns B key) (own key.toString) w w') (hbase : b'.basePath = b.basePath)
    (hleaves : ConfigManager.Leaves key b.configManager b'.configManager)
    (htopics : ∀ key' ≠ key, b'.topics.lookup key' = b.topics.lookup key')
    (hp : ∀ p, b'.topics.lookup key = some p →
      p.Confined (dirOf B key) (own key.toString) w.fs ∧ ∀ i, p.Uses i → i < w'.fs.nextIno)
    (hc : ∀ i, b'.configManager.Uses key i →
      FileSystem.Mine (own key.toString) w.fs i ∧ i < w'.fs.nextIno) :
    Divided r B b' w' (grant own key.toString w w') where
  basePath := hbase.trans h.basePath
  confPath := hleaves.basePath.trans h.confPath
  atBase := hfr.atDir h.atBase (fun q hq hpre => hq.not_above (prefix_confDir hpre))
  atConf := hfr.atDir h.atConf (fun q hq => hq.not_above)
  below _ _ := h.grant_below hfr
  apart _ _ _ := h.grant_apart
  named _ _ _ := h.grant_named hfr
  outside _ _ := h.grant_outside hfr
  filed _ := h.filed_frame hk hfr
  encodable key' hkey' := by
    rcases has_of_step hleaves htopics hkey' with rfl | hkey'
    · exact hk
    · exact h.encodable key' hkey'
  distinct key₁ key₂ h₁ h₂ heq := by
    rcases has_of_step hleaves htopics h₁ with rfl | h₁ <;>
      rcases has_of_step hleaves htopics h₂ with rfl | h₂
    · rfl
    · exact (hfree key₂ h₂ heq.symm).symm
    · exact hfree key₁ h₁ heq
    · exact h.distinct key₁ key₂ h₁ h₂ heq
  topics key' p hp' := by
    by_cases hkk : key' = key
    · subst hkk
      obtain ⟨hconf, hlt⟩ := hp p hp'
      have huses : ∀ i, p.Uses i → grant own key'.toString w w' key'.toString i :=
        fun i hi => grant_mine (hconf.mine hi) (hlt i hi)
      exact ⟨confined_grant hfr hconf huses, huses⟩
    · rw [htopics key' hkk] at hp'
      obtain ⟨hconf, huses⟩ := h.topics key' p hp'
      have huses' : ∀ i, p.Uses i → grant own key.toString w w' key'.toString i :=
        fun i hi => Or.inl (huses i hi)
      exact ⟨confined_grant hfr hconf huses', huses'⟩
  configs key' i hi := by
    by_cases hkk : key' = key
    · subst hkk
      exact grant_mine (hc i hi).1 (hc i hi).2
    · obtain ⟨cfg, hcfg, hi⟩ := hi
      rw [hleaves.lookup key' hkk] at hcfg
      exact Or.inl (h.configs key' i ⟨cfg, hcfg, hi⟩)

/-- A step that works on one key. -/
theorem step (h : Divided r B b w own) (hk : key.Encodable)
    (hfree : ∀ key', b.Has key' → key'.toString = key.toString → key' = key)
    (hfr : Frame (Owns B key) (own key.toString) w w') (hbase : b'.basePath = b.basePath)
    (hleaves : ConfigManager.Leaves key b.configManager b'.configManager)
    (htopics : ∀ key' ≠ key, b'.topics.lookup key' = b.topics.lookup key')
    (hp : ∀ p, b'.topics.lookup key = some p →
      p.Confined (dirOf B key) (own key.toString) w.fs ∧ ∀ i, p.Uses i → i < w'.fs.nextIno)
    (hc : ∀ i, b'.configManager.Uses key i →
      FileSystem.Mine (own key.toString) w.fs i ∧ i < w'.fs.nextIno) :
    Divided r B b' w' (grant own key.toString w w') ∧
      Spares B (fun key' => key' = key) b w own b' w' (grant own key.toString w w') :=
  ⟨h.divided_grant hk hfree hfr hbase hleaves htopics hp hc, h.spares_grant hfr hleaves htopics⟩

end Divided

/-- A step from a divided broker to a divided one that spares the keys outside `K`. -/
def Respects (r : RawPath) (B : Path) (K : TopicPartition → Prop) (b : Broker) (w : World)
    (own : Name → ℕ → Prop) (b' : Broker) (w' : World) : Prop :=
  ∃ own', Divided r B b' w' own' ∧ Spares B K b w own b' w' own'

namespace Respects

theorem refl (h : Divided r B b w own) (K : TopicPartition → Prop) : Respects r B K b w own b w :=
  ⟨own, h, .refl B K b w own⟩

theorem trans (h : Respects r B K b w own b' w')
    (h' : ∀ own', Divided r B b' w' own' → Respects r B K b' w' own' b'' w'') :
    Respects r B K b w own b'' w'' := by
  obtain ⟨own₁, hdiv₁, hsp₁⟩ := h
  obtain ⟨own₂, hdiv₂, hsp₂⟩ := h' own₁ hdiv₁
  exact ⟨own₂, hdiv₂, hsp₁.trans hsp₂⟩

theorem mono {K' : TopicPartition → Prop} (h : Respects r B K b w own b' w')
    (hK : ∀ key, K key → K' key) : Respects r B K' b w own b' w' := by
  obtain ⟨own', hdiv, hsp⟩ := h
  exact ⟨own', hdiv, hsp.mono hK⟩

end Respects

/-! ## The operations on a key -/

namespace Divided

theorem of_fs (h : Divided r B b w own) (hfs : w'.fs = w.fs) : Divided r B b w' own := by
  refine ⟨h.basePath, h.confPath, hfs ▸ h.atBase, hfs ▸ h.atConf, hfs ▸ h.below, h.apart,
    hfs ▸ h.named, hfs ▸ h.outside, hfs ▸ h.filed, h.encodable, h.distinct, ?_, h.configs⟩
  rw [hfs]
  exact h.topics

theorem respects_fs (h : Divided r B b w own) (hfs : w'.fs = w.fs) (K : TopicPartition → Prop) :
    Respects r B K b w own b w' :=
  ⟨own, h.of_fs hfs, fun _ _ => id, fun n i _ _ => by rw [hfs], fun q _ => by rw [hfs],
    fun q i _ _ => by rw [hfs], fun _ _ => rfl, fun _ _ => rfl⟩

theorem free (h : Divided r B b w own) (hkey : b.Has key) :
    ∀ key', b.Has key' → key'.toString = key.toString → key' = key :=
  fun key' hkey' heq => h.distinct key' key hkey' hkey heq

theorem owned_lt (h : Divided r B b w own) {n : Name} {U V : ℕ → Prop} (hg : Grows U V w w')
    (hU : ∀ i, U i → own n i) {i : ℕ} (hi : V i) : i < w'.fs.nextIno :=
  (hg.uses i hi).elim (fun hi => (h.below n i (hU i hi)).trans_le hg.next) id

theorem config_lt (h : Divided r B b w own) (key : TopicPartition) (hnext : w.fs.nextIno ≤ w'.fs.nextIno)
    {i : ℕ} (hi : b.configManager.Uses key i) :
    FileSystem.Mine (own key.toString) w.fs i ∧ i < w'.fs.nextIno :=
  ⟨Or.inr (h.configs key i hi), (h.below _ i (h.configs key i hi)).trans_le hnext⟩

theorem topics_lt (h : Divided r B b w own) {p : Partition} (hp : b.topics.lookup key = some p)
    (hnext : w.fs.nextIno ≤ w'.fs.nextIno) :
    p.Confined (dirOf B key) (own key.toString) w.fs ∧ ∀ i, p.Uses i → i < w'.fs.nextIno :=
  ⟨(h.topics key p hp).1,
    fun i hi => (h.below _ i ((h.topics key p hp).2 i hi)).trans_le hnext⟩

theorem partition (h : Divided r B b w own) {p p' : Partition} (hp : b.topics.lookup key = some p)
    (hop : Frame (Under (dirOf B key)) (own key.toString) w w' ∧
      p'.Confined (dirOf B key) (own key.toString) w.fs) (hg : Grows p.Uses p'.Uses w w') :
    Respects r B (fun key' => key' = key) b w own
      { b with topics := b.topics.replace key p' } w' := by
  have hmem := mem_of_lookup hp
  have hhas : b.Has key := Or.inl hmem
  refine ⟨_, h.step (h.encodable key hhas) (h.free hhas) (h.frame_dir hop.1) rfl (.refl key _)
    (fun key' hne => lookup_replace_ne hne _) ?_ (fun i hi => h.config_lt key hg.next hi)⟩
  intro p₁ hp₁
  rw [show ({ b with topics := b.topics.replace key p' } : Broker).topics.lookup key = some p' from
    lookup_replace_same hmem _, Option.some.injEq] at hp₁
  subst hp₁
  exact ⟨hop.2, fun i hi => h.owned_lt hg (h.topics key p hp).2 hi⟩

theorem write (h : Divided r B b w own) {p : Partition} (hp : b.topics.lookup key = some p)
    (m : Payload) : Respects r B (fun key' => key' = key) b w own
      { b with topics := b.topics.replace key (p.write m w).2.1 } (p.write m w).2.2 :=
  h.partition hp (write_frame (.refl (h.named_dir key))
    (h.topics key p hp).1 m) (p.write_grows m w)

theorem close (h : Divided r B b w own) {p : Partition} (hp : b.topics.lookup key = some p) :
    Respects r B (fun key' => key' = key) b w own
      { b with topics := b.topics.replace key (p.close w).2.1 } (p.close w).2.2 :=
  h.partition hp (close_frame (.refl (h.named_dir key))
    (h.topics key p hp).1) (p.close_grows w)

theorem deletePartition (h : Divided r B b w own) {p : Partition}
    (hp : b.topics.lookup key = some p) : Respects r B (fun key' => key' = key) b w own
      { b with topics := b.topics.replace key (p.deletePartition w).2.1 }
      (p.deletePartition w).2.2 :=
  h.partition hp (deletePartition_frame
    (.refl (h.named_dir key)) (h.topics key p hp).1)
    (p.deletePartition_grows w)

theorem destroy (h : Divided r B b w own) {p : Partition} (hp : b.topics.lookup key = some p) :
    Respects r B (fun key' => key' = key) b w own b (p.destroy w) := by
  have hhas : b.Has key := Or.inl (mem_of_lookup hp)
  have hg := p.close_grows w
  exact ⟨_, h.step (h.encodable key hhas) (h.free hhas)
    (h.frame_dir (destroy_frame (.refl (h.named_dir key)) (h.topics key p hp).1)) rfl
    (.refl key _) (fun _ _ => rfl) (fun _ hp' => h.topics_lt hp' hg.next)
    (fun _ hi => h.config_lt key hg.next hi)⟩

/-- Opening the partition of a key, whatever comes of it. -/
theorem createAndAddNewPartition (h : Divided r B b w own) (hk : key.Encodable)
    (hfree : ∀ key', b.Has key' → key'.toString = key.toString → key' = key)
    (segSize partSize ttl : Int64) :
    Respects r B (fun key' => key' = key) b w own
      (b.createAndAddNewPartition key segSize partSize ttl w).2.1
      (b.createAndAddNewPartition key segSize partSize ttl w).2.2 := by
  have hpath : b.partitionPath key = r.child key.toString := Broker.partitionPath_eq h.basePath hk
  have hopen := open_frame (.refl (h.named_dir key)) (Confined.new (I := own key.toString)
    (h.home key) segSize.toInt partSize.toInt ttl.toInt)
  have hgrows := (Partition.new (r.child key.toString) segSize.toInt partSize.toInt
    ttl.toInt).open_grows w
  unfold Broker.createAndAddNewPartition
  rw [hpath]
  split
  · next e p w₁ he =>
      rw [he] at hopen hgrows
      have hg := hgrows.trans (p.close_grows w₁)
      exact ⟨_, h.step hk hfree (h.frame_dir (destroy_frame hopen.1 hopen.2)) rfl (.refl key _)
        (fun _ _ => rfl) (fun _ hp => h.topics_lt hp hg.next)
        (fun _ hi => h.config_lt key hg.next hi)⟩
  · next p w₁ he =>
      rw [he] at hopen hgrows
      refine ⟨_, h.step hk hfree (h.frame_dir hopen.1) rfl (.refl key _)
        (fun key' hne => AList.lookup_insert_ne hne) ?_
        (fun _ hi => h.config_lt key hgrows.next hi)⟩
      intro p' hp'
      rw [show ({ b with topics := b.topics.insert key p } : Broker).topics.lookup key = some p from
        AList.lookup_insert _, Option.some.injEq] at hp'
      subst hp'
      refine ⟨hopen.2, fun i hi => ?_⟩
      rcases hgrows.uses i hi with ⟨s, hs, -⟩ | hlt
      · simp [Partition.new, Partition.segments] at hs
      · exact hlt

theorem config (h : Divided r B b w own) (hk : key.Encodable)
    (hfree : ∀ key', b.Has key' → key'.toString = key.toString → key' = key) {c : ConfigManager}
    (hfr : Frame (fun q => q = cfgOf B key) (own key.toString) w w')
    (hleaves : ConfigManager.Leaves key b.configManager c)
    (hc : ∀ i, c.Uses key i → FileSystem.Mine (own key.toString) w.fs i ∧ i < w'.fs.nextIno) :
    Respects r B (fun key' => key' = key) b w own { b with configManager := c } w' :=
  ⟨_, h.step hk hfree (h.frame_cfg hfr) rfl hleaves (fun _ _ => rfl)
    (fun _ hp => h.topics_lt hp hfr.within.next) hc⟩

/-- What was used before and what the path of the key gives. -/
theorem opened (h : Divided r B b w own) (hk : key.Encodable)
    (hg : Grows (b.configManager.Uses key) V w w')
    (huses : ∀ i, V i → b.configManager.Uses key i ∨
      (w.openCreate (b.configManager.path key)).1.Uses i) {i : ℕ} (hi : V i) :
    FileSystem.Mine (own key.toString) w.fs i ∧ i < w'.fs.nextIno := by
  have hconf : FileSystem.At w.fs b.configManager.basePath (confDir B) := h.confPath ▸ h.atConf
  refine ⟨?_, h.owned_lt hg (h.configs key) hi⟩
  rcases huses i hi with hi | ⟨num, hnum⟩
  · exact Or.inr (h.configs key i hi)
  · have hm := ((Frame.refl (h.named_cfg key)).openCreate
      (ConfigManager.inside_path (S := fun q => q = cfgOf B key) hk hconf rfl)).2
    rwa [hnum] at hm

theorem create (h : Divided r B b w own) (hk : key.Encodable)
    (hfree : ∀ key', b.Has key' → key'.toString = key.toString → key' = key)
    (segSize partSize ttl : Int64) :
    Respects r B (fun key' => key' = key) b w own
      { b with configManager := (b.configManager.create key segSize partSize ttl w).2.1 }
      (b.configManager.create key segSize partSize ttl w).2.2 := by
  have hconf : FileSystem.At w.fs b.configManager.basePath (confDir B) := h.confPath ▸ h.atConf
  refine h.config hk hfree (ConfigManager.create_frame (.refl (h.named_cfg key))
    (ConfigManager.inside_path hk hconf rfl) segSize partSize ttl)
    (b.configManager.create_leaves key segSize partSize ttl w) ?_
  intro i hi
  exact h.opened hk (b.configManager.create_grows key segSize partSize ttl w)
    (fun _ => b.configManager.create_opened key segSize partSize ttl w) hi

theorem «open» (h : Divided r B b w own) (hk : key.Encodable)
    (hfree : ∀ key', b.Has key' → key'.toString = key.toString → key' = key) :
    Respects r B (fun key' => key' = key) b w own
      { b with configManager := (b.configManager.open key w).2.1 }
      (b.configManager.open key w).2.2 := by
  have hconf : FileSystem.At w.fs b.configManager.basePath (confDir B) := h.confPath ▸ h.atConf
  refine h.config hk hfree (ConfigManager.open_frame (.refl (h.named_cfg key))
    (ConfigManager.inside_path hk hconf rfl)) (b.configManager.open_leaves key w) ?_
  intro i hi
  exact h.opened hk (b.configManager.open_grows key w)
    (fun _ => b.configManager.open_opened key w) hi

theorem updateCommitOffset (h : Divided r B b w own) (hkey : b.Has key) (offset : Int64) :
    Respects r B (fun key' => key' = key) b w own
      { b with configManager := (b.configManager.updateCommitOffset key offset w).2.1 }
      (b.configManager.updateCommitOffset key offset w).2.2 := by
  have haddr : ∀ info, b.configManager.configs.lookup key = some info →
      info.addr.Mine (own key.toString) w.fs := by
    intro info hinfo
    cases ha : info.addr with
    | null | failed | stale => trivial
    | mapped i => exact Or.inr (h.configs key i ⟨info, hinfo, Or.inr ha⟩)
  refine h.config (h.encodable key hkey) (h.free hkey)
    (ConfigManager.updateCommitOffset_frame (.refl (h.named_cfg key)) haddr offset)
    (b.configManager.updateCommitOffset_leaves key offset w) ?_
  intro i hi
  exact h.config_lt key (b.configManager.nextIno_updateCommitOffset key offset w).ge
    (b.configManager.updateCommitOffset_uses key offset w hi)

theorem remove (h : Divided r B b w own) (hk : key.Encodable)
    (hfree : ∀ key', b.Has key' → key'.toString = key.toString → key' = key) :
    Respects r B (fun key' => key' = key) b w own
      { b with configManager := (b.configManager.remove key w).2.1 }
      (b.configManager.remove key w).2.2 := by
  have hconf : FileSystem.At w.fs b.configManager.basePath (confDir B) := h.confPath ▸ h.atConf
  refine h.config hk hfree (ConfigManager.remove_frame (.refl (h.named_cfg key))
    (ConfigManager.inside_path hk hconf rfl)) (b.configManager.remove_leaves key w) ?_
  intro i hi
  obtain ⟨hnext, huses⟩ := b.configManager.remove_uses key w
  exact h.config_lt key hnext.ge (huses i hi)

theorem fewer (h : Divided r B b w own) (hbase : b'.basePath = b.basePath)
    (hconf : b'.configManager.basePath = b.configManager.basePath)
    (htopics : ∀ key p, b'.topics.lookup key = some p → b.topics.lookup key = some p)
    (hconfigs : ∀ key ∈ b'.configManager.configs, key ∈ b.configManager.configs)
    (huses : ∀ key i, b'.configManager.Uses key i → b.configManager.Uses key i) :
    Divided r B b' w own := by
  have hhas : ∀ key, b'.Has key → b.Has key := by
    intro key hkey
    refine hkey.imp (fun hin => ?_) (hconfigs key)
    obtain ⟨p, hp⟩ := Option.isSome_iff_exists.mp (AList.lookup_isSome.mpr hin)
    exact mem_of_lookup (htopics key p hp)
  exact ⟨hbase.trans h.basePath, hconf.trans h.confPath, h.atBase, h.atConf, h.below, h.apart,
    h.named, h.outside, h.filed, fun key hkey => h.encodable key (hhas key hkey),
    fun key key' hkey hkey' => h.distinct key key' (hhas key hkey) (hhas key' hkey'),
    fun key p hp => h.topics key p (htopics key p hp),
    fun key i hi => h.configs key i (huses key i hi)⟩

theorem erase (h : Divided r B b w own) (key : TopicPartition) :
    Respects r B (fun key' => key' = key) b w own { b with topics := b.topics.erase key } w :=
  ⟨own, h.fewer rfl rfl (fun _ _ => lookup_of_erase) (fun _ => id) (fun _ _ => id),
    fun _ _ => id, fun _ _ _ _ => rfl, fun _ _ => rfl, fun _ _ _ _ => rfl,
    fun _ hne => AList.lookup_erase_ne hne, fun _ _ => rfl⟩

end Divided

end MyKafka
