import MyKafka.BrokerRep
import MyKafka.BrokerRun

/-!
# Leaving and loading a broker

Closing a broker, like killing it between two operations, leaves its logs on the disk. A new broker
on the same base path finds them under the names of their keys, in whatever order the two hash
tables and the directory list them; loading may drop a prefix of a log, as retention does.
-/

namespace MyKafka

open Posix MyKafka.Partition

/-- An empty log whose directory is gone, as a deletion leaves it that was stopped half-way. -/
structure Missing (w : World) (B : Path) (key : TopicPartition) (e : Entry) : Prop where
  log : e.log = []
  oldest : e.oldest = 0
  gone : ∀ q, Under (dirOf B key) q → w.fs.node? q = none

/-- A disk that holds the logs of `st` and nothing else. -/
structure Rests (r : RawPath) (B : Path) (w : World) (st : Store) : Prop where
  calm : w.Calm
  atBase : FileSystem.At w.fs r B
  atConf : FileSystem.At w.fs (r.child Broker.configName) (confDir B)
  decodable : ∀ key e, st key = some e → key.Decodable
  present : ∀ key e, st key = some e → (Shelved w r B key e ∨ Missing w B key e) ∧
    ∃ i, InfoFile w B key e i
  only : Only w r B st

variable {r : RawPath} {B : Path} {w w' : World} {key key' : TopicPartition} {e e' : Entry}
  {p : Partition} {cfg : CfgInfo} {topics : TopicPartition → Option Partition}
  {configs : TopicPartition → Option CfgInfo} {st : Store} {b : Broker} {c : ConfigManager}

theorem Missing.agree (h : Missing w B key e) (ha : Agree (dirOf B key) w w') :
    Missing w' B key e :=
  ⟨h.log, h.oldest, fun q hq => (ha.node q hq).trans (h.gone q hq)⟩

theorem HoldsInfo.of_fs (h : HoldsInfo w B key e cfg) (hfs : w'.fs = w.fs) :
    HoldsInfo w' B key e cfg := by
  obtain ⟨i, hopen, hfile⟩ := h.file
  exact ⟨h.info, i, hopen, by rw [InfoFile, hfs]; exact hfile⟩

theorem Mirrors.rests (h : Mirrors r B w topics configs st) : Rests r B w st := by
  refine ⟨h.calm, h.atBase, h.atConf, h.decodable, ?_, h.only⟩
  intro key e he
  obtain ⟨p, cfg, -, hlog, -, hinfo⟩ := h.present key e he
  obtain ⟨i, -, hfile⟩ := hinfo.file
  exact ⟨Or.inl hlog.shelved, i, hfile⟩

/-- What is done below the directory of a key leaves its config file. -/
theorem InfoFile.frame {i : ℕ} (h : InfoFile w B key e i)
    (hfr : Frame (Under (dirOf B key)) (FileSystem.Named (Under (dirOf B key)) w.fs) w w') :
    InfoFile w' B key e i := by
  have hown : ¬ Under (dirOf B key) (cfgOf B key) :=
    fun hq => key.toString_ne_configName (under_child hq (under_cfgOf key))
  exact ⟨(hfr.within.node _ hown).trans h.1, by rw [hfr.within.file hown h.1]; exact h.2⟩

namespace Rests

theorem toString_ne (h : Rests r B w st) (hk : key.Decodable) (hne : key' ≠ key)
    (he : st key' = some e) : key.toString ≠ key'.toString :=
  fun heq => hne ((h.decodable key' e he).toString_inj hk heq.symm)

/-- A step that touches one key and leaves a log of it. -/
theorem step (h : Rests r B w st) (he : st key = some e) (ht : Touches B key w w')
    (hcalm : w'.Calm) (hshelf : Shelved w' r B key e' ∨ Missing w' B key e')
    (hinfo : ∃ i, InfoFile w' B key e' i) : Rests r B w' (Function.update st key (some e')) where
  calm := hcalm
  atBase := ht.atDir h.atBase (List.prefix_append _ _)
  atConf := ht.atDir h.atConf (List.prefix_refl _)
  decodable key' e'' he' := by
    by_cases hkk : key' = key
    · exact hkk ▸ h.decodable key e he
    · rw [Function.update_of_ne hkk] at he'
      exact h.decodable key' e'' he'
  present key' e'' he' := by
    by_cases hkk : key' = key
    · subst hkk
      rw [Function.update_self] at he'
      obtain rfl := Option.some.inj he'
      exact ⟨hshelf, hinfo⟩
    · rw [Function.update_of_ne hkk] at he'
      have hne := h.toString_ne (h.decodable key e he) hkk he'
      obtain ⟨hlog, i, hfile⟩ := h.present key' e'' he'
      exact ⟨hlog.imp (fun hs => hs.agree (ht.agree hne)) (fun hs => hs.agree (ht.agree hne)), i,
        ht.infoFile hne hfile⟩
  only := by
    refine h.only.touches (h.decodable key e he) ht (fun key' hne hkey => ?_) (Or.inl ?_)
    · rwa [Function.update_of_ne hne]
    · rw [Function.update_self]
      simp

theorem keep (h : Rests r B w st) (he : st key = some e) (ht : Touches B key w w')
    (hcalm : w'.Calm) (hshelf : Shelved w' r B key e ∨ Missing w' B key e)
    (hinfo : ∃ i, InfoFile w' B key e i) : Rests r B w' st := by
  have hs := h.step he ht hcalm hshelf hinfo
  rwa [← he, Function.update_eq_self] at hs

theorem of_fs (h : Rests r B w st) (hcalm : w'.Calm) (hfs : w'.fs = w.fs) (hnow : w'.now = w.now) :
    Rests r B w' st := by
  have hagree : ∀ dir, Agree dir w w' := fun dir =>
    ⟨fun q _ => by rw [hfs], fun q _ => by rw [hfs], fun q i _ _ => by rw [hfs], hnow.ge⟩
  refine ⟨hcalm, hfs ▸ h.atBase, hfs ▸ h.atConf, h.decodable, ?_, ?_⟩
  · intro key e he
    obtain ⟨hlog, i, hfile⟩ := h.present key e he
    exact ⟨hlog.imp (fun hs => hs.agree (hagree _)) (fun hs => hs.agree (hagree _)), i,
      by rw [InfoFile, hfs]; exact hfile⟩
  · exact h.only.agree hfs hagree

end Rests

/-! ## Closing -/

/-- The partitions of the keys `todo` are open, and everything lies on the disk as well. -/
structure Leaving (r : RawPath) (B : Path) (b : Broker) (w : World) (st : Store)
    (todo : List TopicPartition) : Prop extends Rests r B w st where
  nodup : todo.Nodup
  «open» : ∀ key ∈ todo, ∃ e p, st key = some e ∧ b.topics.lookup key = some p ∧
    HoldsLog w r B key e p

namespace Broker

theorem closePartitions_spec {todo : List TopicPartition} : ∀ {b : Broker} {w : World},
    Leaving r B b w st todo →
    ∃ b' w', closePartitions todo b w = (.ok (), b', w') ∧ Rests r B w' st ∧ w'.now = w.now ∧
      b'.configManager = b.configManager ∧ b'.order = b.order ∧
      b'.topics.keys = b.topics.keys ∧
      (∀ key ∈ todo, ∀ p, b'.topics.lookup key = some p → p.Closed) ∧
      ∀ key ∉ todo, b'.topics.lookup key = b.topics.lookup key := by
  induction todo with
  | nil =>
      intro b w h
      exact ⟨b, w, rfl, h.toRests, rfl, rfl, rfl, rfl, by simp, fun _ _ => rfl⟩
  | cons key todo ih =>
      intro b w h
      obtain ⟨hfresh, hnodup⟩ := List.nodup_cons.mp h.nodup
      obtain ⟨e, p, he, hp, hlog⟩ := h.open key List.mem_cons_self
      obtain ⟨cs, hrep, hset, haddr, hold⟩ := hlog.chunks
      obtain ⟨p', w₁, hclose, hclosed, -, hstored, hw₁, hnow₁⟩ := close_spec h.calm hrep
      have hfr := (close_frame (Frame.refl (fun _ => id)) (hlog.confined h.atBase)).1
      rw [hclose] at hfr
      have ht := Serves.touches_dir hfr
      obtain ⟨-, i, hfile⟩ := h.present key e he
      have hrests := h.toRests.keep he ht hw₁
        (Or.inl ⟨cs, hlog.path ▸ hstored, hset, haddr, hold⟩) ⟨i, hfile.frame hfr⟩
      have hopen : ∀ k ∈ todo, ∃ e p, st k = some e ∧
          (b.topics.replace key p').lookup k = some p ∧ HoldsLog w₁ r B k e p := by
        intro k hkt
        have hkk : k ≠ key := by
          rintro rfl
          exact hfresh hkt
        obtain ⟨e', q, he', hq, hlog'⟩ := h.open k (List.mem_cons_of_mem key hkt)
        have hne := h.toRests.toString_ne (h.decodable key e he) hkk he'
        exact ⟨e', q, he', (lookup_replace_ne hkk _).trans hq, hlog'.agree (ht.agree hne)⟩
      obtain ⟨b', w', hrest, hrests', hnow', hcfg, hord, hkeys, hall, hother⟩ := ih
        (b := { b with topics := b.topics.replace key p' }) ⟨hrests, hnodup, hopen⟩
      refine ⟨b', w', ?_, hrests', hnow'.trans hnow₁, hcfg, hord,
        hkeys.trans (AList.keys_replace _ _ _), ?_, ?_⟩
      · rw [closePartitions, hp]
        dsimp only
        rw [hclose]
        exact hrest
      · intro k hkt q hq
        by_cases hin : k ∈ todo
        · exact hall k hin q hq
        · rw [hother k hin] at hq
          obtain rfl := (List.mem_cons.mp hkt).resolve_right hin
          rw [lookup_replace_same (mem_of_lookup hp)] at hq
          exact Option.some.inj hq ▸ hclosed
      · intro k hkt
        rw [List.mem_cons, not_or] at hkt
        rw [hother k hkt.2]
        exact lookup_replace_ne hkt.1 _

theorem closePartitions_closed {todo : List TopicPartition} (w : World) : ∀ {b : Broker},
    (∀ key p, b.topics.lookup key = some p → p.Closed) →
    ∃ b', closePartitions todo b w = (.ok (), b', w) ∧ b'.configManager = b.configManager ∧
      ∀ key p, b'.topics.lookup key = some p → p.Closed := by
  induction todo with
  | nil => exact fun {b} h => ⟨b, rfl, rfl, h⟩
  | cons key todo ih =>
      intro b h
      rw [closePartitions]
      cases hp : b.topics.lookup key with
      | none => exact ih h
      | some p =>
          obtain ⟨p', hclose, hclosed⟩ := close_closed (h key p hp) w
          obtain ⟨b', hrest, hcfg, hall⟩ := ih (b := { b with topics := b.topics.replace key p' }) (by
            intro k q hq
            by_cases hkk : k = key
            · subst hkk
              rw [lookup_replace_same (mem_of_lookup hp)] at hq
              exact Option.some.inj hq ▸ hclosed
            · rw [lookup_replace_ne hkk] at hq
              exact h k q hq)
          dsimp only
          rw [hclose]
          exact ⟨b', hrest, hcfg, hall⟩

theorem destroyPartitions_closed {todo : List TopicPartition} (w : World)
    (h : ∀ key p, b.topics.lookup key = some p → p.Closed) : destroyPartitions todo b w = w := by
  induction todo with
  | nil => rfl
  | cons key todo ih =>
      rw [destroyPartitions]
      cases hp : b.topics.lookup key with
      | none => exact ih
      | some p =>
          obtain ⟨p', hclose, -⟩ := close_closed (h key p hp) w
          dsimp only
          rw [Partition.destroy, hclose]
          exact ih

end Broker

/-- Both ways of leaving a broker keep what it stored. -/
theorem Serves.leave {b : Broker} (h : Serves r B b w st) (closing : Bool) :
    Rests r B (Server.leave ⟨b, w⟩ closing) st ∧ (Server.leave ⟨b, w⟩ closing).now = w.now := by
  have hm := h.mirrors
  cases closing with
  | false => exact ⟨hm.rests, rfl⟩
  | true =>
      obtain ⟨b₁, w₁, hparts, hrests₁, hnow₁, hcfg₁, -, -, hall₁, hother₁⟩ :=
        Broker.closePartitions_spec (b := b) (w := w)
          (show Leaving r B b w st b.keys from ⟨hm.rests, h.nodup_keys, by
            intro key hkey
            obtain ⟨e, he⟩ := Option.ne_none_iff_exists'.mp ((h.mem_keys key).mp hkey)
            obtain ⟨p, cfg, hp, hlog, -⟩ := hm.present key e he
            exact ⟨e, p, he, hp, hlog⟩⟩)
      obtain ⟨c₂, w₂, hconf, hempty, hfs₂, hnow₂, hout₂⟩ := ConfigManager.close_spec
        (c := b₁.configManager) hrests₁.calm.obliging (by
          intro key cfg hcfg
          rw [hcfg₁] at hcfg
          cases he : st key with
          | none => simp [(hm.absent key he).2] at hcfg
          | some e =>
              obtain ⟨-, cfg', -, -, hcfg', hinfo⟩ := hm.present key e he
              obtain ⟨i, hon, -⟩ := hinfo.file
              obtain rfl := Option.some.inj (hcfg.symm.trans hcfg')
              exact ⟨i, hon⟩)
      have hclosed : ∀ key p, b₁.topics.lookup key = some p → p.Closed := by
        intro key p hp
        by_cases hkey : key ∈ b.keys
        · exact hall₁ key hkey p hp
        · have hst : st key = none := not_not.mp (fun hne => hkey ((h.mem_keys key).mpr hne))
          rw [hother₁ key hkey, (hm.absent key hst).1] at hp
          cases hp
      obtain ⟨b₃, hagain, hcfg₃, hclosed₃⟩ := Broker.closePartitions_closed w₂
        (b := { b₁ with configManager := c₂ }) hclosed
      obtain ⟨c₄, hconf₄, hempty₄⟩ := ConfigManager.close_empty (c := b₃.configManager)
        (by rw [hcfg₃]; exact hempty) w₂
      obtain ⟨c₅, hconf₅, -⟩ := ConfigManager.close_empty hempty₄ w₂
      have hleave : Server.leave ⟨b, w⟩ true = w₂ := by
        have hclose : b.close w = (.ok (), { b₁ with configManager := c₂ }, w₂) := by
          rw [Broker.close, hparts]
          dsimp only
          rw [hconf]
        have hclose' : ({ b₁ with configManager := c₂ } : Broker).close w₂ =
            (.ok (), { b₃ with configManager := c₄ }, w₂) := by
          rw [Broker.close, show ({ b₁ with configManager := c₂ } : Broker).keys = b₁.keys from rfl,
            hagain]
          dsimp only
          rw [hconf₄]
        rw [Server.leave, if_pos rfl, hclose]
        dsimp only
        rw [Broker.destroy, hclose']
        dsimp only
        rw [hconf₅]
        exact Broker.destroyPartitions_closed w₂ hclosed₃
      rw [hleave]
      have hcalm : w₂.Calm := by
        rw [show w₁.outcomes = [] from hrests₁.calm, List.suffix_nil] at hout₂
        exact hout₂
      exact ⟨hrests₁.of_fs hcalm hfs₂ hnow₂, hnow₂.trans hnow₁⟩

/-! ## Loading the config files -/

namespace ConfigManager

/-- Every entry of the store is that of a log. -/
def Sound (w : World) (B : Path) (st : Store) (c : ConfigManager) : Prop :=
  ∀ key cfg, c.configs.lookup key = some cfg → ∃ e, st key = some e ∧ HoldsInfo w B key e cfg

theorem loadFiles_spec {keys : List TopicPartition} (hkeys : ∀ key ∈ keys, st key ≠ none) :
    ∀ {c : ConfigManager} {w : World}, Rests r B w st →
    c.basePath = r.child Broker.configName → Sound w B st c →
    ∃ c' w', loadFiles keys c w = (c', w') ∧ Rests r B w' st ∧ w'.fs = w.fs ∧ w'.now = w.now ∧
      c'.basePath = c.basePath ∧ Sound w' B st c' ∧
      ∀ key, key ∈ c'.configs ↔ key ∈ c.configs ∨ key ∈ keys := by
  induction keys with
  | nil => exact fun {c w} h hbase hs => ⟨c, w, rfl, h, rfl, rfl, rfl, hs, by simp⟩
  | cons key keys ih =>
      intro c w h hbase hs
      obtain ⟨e, he⟩ := Option.ne_none_iff_exists'.mp (hkeys key List.mem_cons_self)
      obtain ⟨-, i, hfile⟩ := h.present key e he
      obtain ⟨cfg, hopen, hon, hinfo⟩ := open_spec h.calm (h.decodable key e he).toEncodable
        (hbase ▸ h.atConf) hfile.1 hfile.2
      have hrests : Rests r B { w with nextFd := w.nextFd + 1 } st := h.of_fs h.calm rfl rfl
      have hold : Sound { w with nextFd := w.nextFd + 1 } B st c := by
        intro k cfg₀ hcfg₀
        obtain ⟨e₀, he₀, hinfo₀⟩ := hs k cfg₀ hcfg₀
        exact ⟨e₀, he₀, hinfo₀.of_fs rfl⟩
      have hsound : Sound { w with nextFd := w.nextFd + 1 } B st
          { c with configs := insertNew c.configs key cfg } := by
        intro k cfg₀ hcfg₀
        by_cases hkk : k = key
        · subst hkk
          by_cases hmem : k ∈ c.configs
          · rw [insertNew, if_pos hmem] at hcfg₀
            exact hold k cfg₀ hcfg₀
          · rw [lookup_insertNew hmem] at hcfg₀
            obtain rfl := Option.some.inj hcfg₀
            exact ⟨e, he, hinfo, i, hon, hfile⟩
        · rw [lookup_insertNew_ne hkk] at hcfg₀
          exact hold k cfg₀ hcfg₀
      obtain ⟨c', w', hrest, hrests', hfs, hnow, hbase', hsound', hmem⟩ :=
        ih (c := { c with configs := insertNew c.configs key cfg }) (fun k hk => hkeys k (List.mem_cons_of_mem key hk)) hrests hbase hsound
      refine ⟨c', w', ?_, hrests', hfs, hnow, hbase', hsound', ?_⟩
      · rw [loadFiles, hopen]
        exact hrest
      · intro k
        rw [hmem k, List.mem_cons]
        show k ∈ insertNew c.configs key cfg ∨ _ ↔ _
        rw [insertNew]
        split_ifs with hin
        · constructor
          · exact fun hk => hk.imp_right Or.inr
          · rintro (hk | rfl | hk)
            · exact Or.inl hk
            · exact Or.inl hin
            · exact Or.inr hk
        · rw [AList.mem_insert]
          tauto

theorem mem_names (h : Rests r B w st) (hbase : c.basePath = r.child Broker.configName) :
    key ∈ ((w.listing c.basePath).filter (fun n => w.isRegular (c.basePath.child n))).filterMap
      decodeName ↔ st key ≠ none := by
  have hres := h.atConf.resolves
  rw [List.mem_filterMap]
  constructor
  · rintro ⟨n, hn, hdecode⟩
    rw [List.mem_filter, World.listing, hbase, hres, (w.order.perm _).mem_iff,
      FileSystem.mem_children] at hn
    obtain ⟨key', hkey', hown⟩ := h.only (confDir B ++ [n])
      ((List.prefix_append _ _).trans (List.prefix_append _ _)) (by simp [confDir]) (by simp) hn.1
    have hname : n = key'.cfgName := by
      rcases hown with hown | hown
      · exact absurd (under_child hown (List.prefix_append (confDir B) [n]))
          key'.toString_ne_configName
      · simpa [cfgOf] using hown
    have hkey' : st key' ≠ none := by
      refine hkey'.resolve_right (fun horphan => hn.1 ?_)
      rw [hname]
      exact horphan.unfiled
    obtain ⟨e, he⟩ := Option.ne_none_iff_exists'.mp hkey'
    rw [hname, (h.decodable key' e he).decodeName, Option.some.injEq] at hdecode
    rwa [← hdecode]
  · intro hkey
    obtain ⟨e, he⟩ := Option.ne_none_iff_exists'.mp hkey
    obtain ⟨-, i, hfile⟩ := h.present key e he
    refine ⟨key.cfgName, ?_, (h.decodable key e he).decodeName⟩
    rw [List.mem_filter, World.listing, hbase, hres, (w.order.perm _).mem_iff,
      FileSystem.mem_children, World.isRegular,
      FileSystem.fileAt_eq (h.atConf.child key.plain_cfgName) hfile.1]
    refine ⟨?_, rfl⟩
    rw [show confDir B ++ [key.cfgName] = cfgOf B key from rfl, hfile.1]
    simp

theorem load_spec (h : Rests r B w st) (hbase : c.basePath = r.child Broker.configName)
    (hc : c.configs = ∅) :
    ∃ c' w', c.load w = (c', w') ∧ Rests r B w' st ∧ w'.fs = w.fs ∧ w'.now = w.now ∧
      c'.basePath = r.child Broker.configName ∧ Sound w' B st c' ∧
      ∀ key, key ∈ c'.configs ↔ st key ≠ none := by
  obtain ⟨c', w', hload, hrests, hfs, hnow, hbase', hsound, hmem⟩ := loadFiles_spec
    (fun key hkey => (mem_names h hbase).mp hkey) h hbase (by
      intro key cfg hcfg
      simp [hc] at hcfg)
  refine ⟨c', w', hload, hrests, hfs, hnow, hbase'.trans hbase, hsound, ?_⟩
  intro key
  rw [hmem key, mem_names h hbase, hc]
  simp

end ConfigManager

/-! ## Loading the partitions -/

/-- A log some time later: retention may have dropped a prefix. -/
inductive Ages : Option Entry → Option Entry → Prop
  | absent : Ages none none
  | present {e : Entry} {n : ℕ} (hle : e.oldest ≤ n) (hlen : n ≤ e.log.length)
      (hidle : e.segmentTtl.toInt = 0 → e.maxPartitionSize.toInt = 0 → n = e.oldest) :
      Ages (some e) (some { e with oldest := n })

theorem Ages.refl {v : Option Entry} (h : ∀ e, v = some e → e.oldest ≤ e.log.length) :
    Ages v v := by
  cases v with
  | none => exact .absent
  | some e => exact .present le_rfl (h e rfl) (fun _ _ => rfl)

theorem Ages.trans {v v' v'' : Option Entry} (h : Ages v v') (h' : Ages v' v'') : Ages v v'' := by
  cases h with
  | absent => exact h'
  | present hle hlen hidle =>
      cases h' with
      | present hle' hlen' hidle' =>
          exact .present (hle.trans hle') hlen'
            (fun httl hsize => (hidle' httl hsize).trans (hidle httl hsize))

theorem Rests.oldest_le (h : Rests r B w st) (he : st key = some e) : e.oldest ≤ e.log.length := by
  rcases (h.present key e he).1 with ⟨cs, hstored, -, -, hold⟩ | hmissing
  swap
  · exact hmissing.oldest.trans_le (Nat.zero_le _)
  cases cs with
  | nil => exact absurd rfl hstored.represents.ne_nil
  | cons c cs =>
      have := hstored.represents.next_le List.mem_cons_self
      unfold Blocks.next at this
      rw [hold]
      show c.base ≤ _
      omega

/-- The partitions of the keys `todo` are still to be opened. -/
structure Loading (r : RawPath) (B : Path) (b : Broker) (w : World) (st : Store)
    (todo : List TopicPartition) : Prop extends Rests r B w st where
  nodup : todo.Nodup
  basePath : b.basePath = r
  present' : ∀ key ∈ todo, st key ≠ none
  infos : ∀ key e, st key = some e → ∃ cfg, b.configManager.configs.lookup key = some cfg ∧
    HoldsInfo w B key e cfg
  loaded : ∀ key e, key ∉ todo → st key = some e → ∃ p, b.topics.lookup key = some p ∧
    HoldsLog w r B key e p
  absent : ∀ key, st key = none → b.topics.lookup key = none
  length : ∀ key e, st key = some e → e.log.length < 2 ^ 63

theorem Loading.opened {b : Broker} {st : Store} {todo : List TopicPartition} {p : Partition} {n : ℕ}
    (h : Loading r B b w st (key :: todo)) (he : st key = some e)
    (hlog : HoldsLog w' r B key { e with oldest := n } p) (hw' : w'.Calm)
    (hfr : Frame (Under (dirOf B key)) (FileSystem.Named (Under (dirOf B key)) w.fs) w w') :
    Loading r B { b with topics := b.topics.insert key p } w'
      (Function.update st key (some { e with oldest := n })) todo := by
  obtain ⟨hfresh, hnodup⟩ := List.nodup_cons.mp h.nodup
  have ht := Serves.touches_dir hfr
  obtain ⟨-, i, hfile⟩ := h.present key e he
  have hname : ∀ {k e'}, k ≠ key → st k = some e' → key.toString ≠ k.toString := fun hkk he' =>
    h.toRests.toString_ne (h.decodable key e he) hkk he'
  refine ⟨h.toRests.step he ht hw' (Or.inl hlog.shelved) ⟨i, hfile.frame hfr⟩, hnodup, h.basePath,
    ?_, ?_, ?_, ?_, ?_⟩
  · intro k hk
    rw [Function.update_of_ne (fun hkk : k = key => hfresh (hkk ▸ hk))]
    exact h.present' k (List.mem_cons_of_mem key hk)
  · intro k e' he'
    by_cases hkk : k = key
    · subst hkk
      rw [Function.update_self] at he'
      obtain rfl := Option.some.inj he'
      obtain ⟨cfg, hcfg, hinfo⟩ := h.infos k e he
      obtain ⟨j, hon, hfile'⟩ := hinfo.file
      exact ⟨cfg, hcfg, hinfo.info, j, hon, hfile'.frame hfr⟩
    · rw [Function.update_of_ne hkk] at he'
      obtain ⟨cfg', hcfg', hinfo'⟩ := h.infos k e' he'
      exact ⟨cfg', hcfg', hinfo'.touches ht (hname hkk he')⟩
  · intro k e' hk he'
    by_cases hkk : k = key
    · subst hkk
      rw [Function.update_self] at he'
      obtain rfl := Option.some.inj he'
      exact ⟨p, AList.lookup_insert _, hlog⟩
    · rw [Function.update_of_ne hkk] at he'
      obtain ⟨q, hq, hlog'⟩ := h.loaded k e' (by simp [hkk, hk]) he'
      exact ⟨q, (AList.lookup_insert_ne hkk).trans hq, hlog'.agree (ht.agree (hname hkk he'))⟩
  · intro k hk
    have hkk : k ≠ key := by
      rintro rfl
      rw [Function.update_self] at hk
      cases hk
    rw [Function.update_of_ne hkk] at hk
    exact (AList.lookup_insert_ne hkk).trans (h.absent k hk)
  · intro k e' he'
    by_cases hkk : k = key
    · subst hkk
      rw [Function.update_self] at he'
      obtain rfl := Option.some.inj he'
      exact h.length k e he
    · rw [Function.update_of_ne hkk] at he'
      exact h.length k e' he'

namespace Broker

theorem openKey_spec (h : Rests r B w st) (he : st key = some e) (hlen : e.log.length < 2 ^ 63) :
    ∃ n p' w', (Partition.new (r.child key.toString) e.maxSegmentSize.toInt
        e.maxPartitionSize.toInt e.segmentTtl.toInt).open w = (.ok (), p', w') ∧
      Ages (some e) (some { e with oldest := n }) ∧
      HoldsLog w' r B key { e with oldest := n } p' ∧ w'.Calm ∧ w'.now = w.now ∧
      Frame (Under (dirOf B key)) (FileSystem.Named (Under (dirOf B key)) w.fs) w w' := by
  have hfr := (open_frame (Frame.refl (fun _ => id)) (Confined.new
    (I := FileSystem.Named (Under (dirOf B key)) w.fs)
    ⟨r, B, key.toString, rfl, rfl, key.plain_toString, h.atBase⟩ e.maxSegmentSize.toInt
    e.maxPartitionSize.toInt e.segmentTtl.toInt)).1
  rcases (h.present key e he).1 with ⟨cs, hstored, hset, haddr, hold⟩ | hmissing
  · obtain ⟨k, p', w', hopen, hre⟩ := open_stored (p := Partition.new (r.child key.toString)
      e.maxSegmentSize.toInt e.maxPartitionSize.toInt e.segmentTtl.toInt) h.calm
      (Fresh.new _ _ _ _) hstored hset hlen
    rw [hopen] at hfr
    refine ⟨firstBase (cs.drop k), p', w', hopen, .present ?_ hre.rep.firstBase_le ?_,
      ⟨hre.settings, cs.drop k, hre.rep, fun c hc => hset c (List.mem_of_mem_drop hc),
        fun c hc => haddr c (List.mem_of_mem_drop hc), rfl⟩, hre.calm, hre.now_eq, hfr⟩
    · exact hold.trans_le (firstBase_drop_le hstored.represents hre.lt)
    · intro httl hsize
      rw [hre.idle httl hsize, List.drop_zero, hold]
  · obtain ⟨p', w', hopen, hrep, hsettings⟩ := open_vacant h.calm h.atBase key.plain_toString
      hmissing.gone e.maxSegmentSize.toInt e.maxPartitionSize.toInt e.segmentTtl.toInt
    rw [hopen] at hfr
    rw [← hmissing.log] at hrep
    exact ⟨0, p', w', hopen, .present hmissing.oldest.le (Nat.zero_le _)
      (fun _ _ => hmissing.oldest.symm), ⟨hsettings, _, hrep, settled_empty _ _,
      addressable_empty _ _, rfl⟩, hfr.calm h.calm, hfr.now, hfr⟩

theorem loadPartitions_spec {todo : List TopicPartition} : ∀ {b : Broker} {w : World} {st : Store},
    Loading r B b w st todo →
    ∃ b' w' st', loadPartitions todo b w = (.ok (), b', w') ∧ Loading r B b' w' st' [] ∧
      (∀ key, Ages (st key) (st' key)) ∧ b'.configManager = b.configManager ∧
      b'.order = b.order ∧ w'.now = w.now := by
  induction todo with
  | nil =>
      intro b w st h
      exact ⟨b, w, st, rfl, h, fun key => Ages.refl (fun e he => h.toRests.oldest_le he),
        rfl, rfl, rfl⟩
  | cons key todo ih =>
      intro b w st h
      obtain ⟨e, he⟩ := Option.ne_none_iff_exists'.mp (h.present' key List.mem_cons_self)
      obtain ⟨cfg, hcfg, hinfo⟩ := h.infos key e he
      obtain ⟨n, p, w₁, hopen, hages, hlog, hw₁, hnow₁, hfr⟩ :=
        openKey_spec h.toRests he (h.length key e he)
      have hloading := h.opened he hlog hw₁ hfr
      obtain ⟨b', w', st', hrest, hdone, hages', hcfg', hord, hnow⟩ := ih hloading
      refine ⟨b', w', st', ?_, hdone, ?_, hcfg', hord, hnow.trans hnow₁⟩
      · have hinfo' : cfg.info.maxSegmentSize = e.maxSegmentSize ∧
            cfg.info.maxPartitionSize = e.maxPartitionSize ∧
            cfg.info.segmentTtl = e.segmentTtl := by
          rw [hinfo.info]
          exact ⟨rfl, rfl, rfl⟩
        rw [loadPartitions, hcfg]
        dsimp only
        rw [createAndAddNewPartition, partitionPath_eq h.basePath (h.decodable key e he).toEncodable,
          hinfo'.1, hinfo'.2.1, hinfo'.2.2, hopen]
        exact hrest
      · intro k
        by_cases hkk : k = key
        · have ha := hages' k
          rw [hkk, Function.update_self] at ha
          rw [hkk, he]
          exact hages.trans ha
        · have ha := hages' k
          rwa [Function.update_of_ne hkk] at ha

end Broker

theorem Loading.serves {b : Broker} (h : Loading r B b w st [])
    (hconf : b.configManager.basePath = r.child Broker.configName)
    (hkeys : ∀ key, key ∈ b.configManager.configs ↔ st key ≠ none) : Serves r B b w st := by
  refine ⟨h.basePath, hconf, h.calm, h.atBase, h.atConf, h.decodable, ?_, ?_, h.only⟩
  · intro key e he
    obtain ⟨p, hp, hlog⟩ := h.loaded key e List.not_mem_nil he
    obtain ⟨cfg, hcfg, hinfo⟩ := h.infos key e he
    exact ⟨p, cfg, hp, hlog, hcfg, hinfo⟩
  · intro key hkey
    refine ⟨h.absent key hkey, ?_⟩
    rw [AList.lookup_eq_none, hkeys key, not_not]
    exact hkey

/-- A new broker on what an old one left. -/
theorem Rests.load (h : Rests r B w st)
    (hlen : ∀ key e, st key = some e → e.log.length < 2 ^ 63) (order : KeyOrder) :
    ∃ b b' w' st', Broker.new r order w = (b, w) ∧ b.load w = (.ok (), b', w') ∧
      (∀ key, Ages (st key) (st' key)) ∧ Serves r B b' w' st' ∧ b'.order = order ∧
      w'.now = w.now := by
  have hnew : Broker.new r order w =
      (⟨r, ∅, ⟨r.child Broker.configName, ∅, order⟩, order⟩, w) := by
    rw [Broker.new, ConfigManager.new, World.createDirectories_at h.calm h.atConf]
  obtain ⟨c', w₁, hload, hrests, -, hnow₁, hbase, hsound, hkeys⟩ := ConfigManager.load_spec
    (c := ⟨r.child Broker.configName, ∅, order⟩) h rfl rfl
  have hmem : ∀ key, key ∈ c'.keys ↔ st key ≠ none := by
    intro key
    rw [ConfigManager.keys, (c'.order.perm _).mem_iff, ← AList.mem_keys]
    exact hkeys key
  have hloading : Loading r B ⟨r, ∅, c', order⟩ w₁ st c'.keys := by
    refine ⟨hrests, ((c'.order.perm _).nodup_iff).mpr c'.configs.keys_nodup, rfl,
      fun key hkey => (hmem key).mp hkey, ?_, ?_, fun key _ => AList.lookup_empty key, hlen⟩
    · intro key e he
      have hin : key ∈ c'.configs := (hkeys key).mpr (by rw [he]; simp)
      obtain ⟨cfg, hcfg⟩ := Option.isSome_iff_exists.mp (AList.lookup_isSome.mpr hin)
      obtain ⟨e', he', hinfo⟩ := hsound key cfg hcfg
      obtain rfl := Option.some.inj (he.symm.trans he')
      exact ⟨cfg, hcfg, hinfo⟩
    · intro key e hnot he
      exact absurd ((hmem key).mpr (by rw [he]; simp)) hnot
  obtain ⟨b', w', st', hparts, hdone, hages, hcfg, hord, hnow⟩ :=
    Broker.loadPartitions_spec hloading
  refine ⟨_, b', w', st', hnew, ?_, hages, hdone.serves (by rw [hcfg]; exact hbase) ?_, hord,
    hnow.trans hnow₁⟩
  · rw [Broker.load, hload]
    exact hparts
  · intro key
    rw [hcfg]
    refine (hkeys key).trans ?_
    have ha := hages key
    constructor
    · intro hne hnone
      rw [hnone] at ha
      cases hst : st key with
      | none => exact hne hst
      | some e =>
          rw [hst] at ha
          cases ha
    · intro hne hnone
      rw [hnone] at ha
      cases hst : st' key with
      | none => exact hne hst
      | some e =>
          rw [hst] at ha
          cases ha

theorem Serves.restart {b : Broker} (h : Serves r B b w st)
    (hlen : ∀ key e, st key = some e → e.log.length < 2 ^ 63) (closing : Bool) :
    ∃ b' w' st', Server.restart ⟨b, w⟩ closing = (.ok (), ⟨b', w'⟩) ∧
      (∀ key, Ages (st key) (st' key)) ∧ Serves r B b' w' st' ∧ w'.now = w.now := by
  obtain ⟨hrests, hnow⟩ := h.leave closing
  obtain ⟨b₀, b', w', st', hnew, hload, hages, hserves, -, hnow'⟩ := hrests.load hlen b.order
  refine ⟨b', w', st', ?_, hages, hserves, hnow'.trans hnow⟩
  rw [Server.restart, h.basePath, hnew]
  dsimp only
  rw [hload]

end MyKafka
