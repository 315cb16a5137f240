import MyKafka.BrokerRequests

/-!
# Keys do not see each other

In every run that creates only keys whose names are plain and their own, whatever the kernel answers,
the partitions lie in separate directories below the base path, and a request changes nothing that is
seen through a key it does not name. Two keys of one name share a directory.
-/

namespace MyKafka

open Posix MyKafka.Partition

/-- What is seen through a key is the same. -/
structure Unchanged (B : Path) (key : TopicPartition) (srv srv' : Server) : Prop where
  partition : srv'.broker.topics.lookup key = srv.broker.topics.lookup key
  config : srv'.broker.configManager.get key = srv.broker.configManager.get key
  offsets : srv'.broker.getOffsets key = srv.broker.getOffsets key
  stored : ∀ p, srv.broker.topics.lookup key = some p → ∀ o,
    (p.readAt o srv'.world).1 = (p.readAt o srv.world).1 ∧
      (p.readAt o srv'.world).2.1 = (p.readAt o srv.world).2.1
  messages : ∀ o, (srv'.broker.getMessage key o srv'.world).1 =
    (srv.broker.getMessage key o srv.world).1
  nodes : srv.broker.Has key → ∀ q, Owns B key q → srv'.world.fs.node? q = srv.world.fs.node? q
  files : srv.broker.Has key → ∀ q i, Owns B key q → srv.world.fs.node? q = some (.file i) →
    srv'.world.fs.data i = srv.world.fs.data i

/-- Each partition has a directory below the base path to itself. -/
structure Separate (B : Path) (srv : Server) : Prop where
  leads : ∀ key p q, srv.broker.topics.lookup key = some p →
    srv.world.fs.resolve p.path = some q → q = dirOf B key
  below : ∀ key, dirOf B key = B ++ [key.toString] ∧ PlainName key.toString
  apart : ∀ key key', key ∈ srv.broker.topics → key' ∈ srv.broker.topics → key ≠ key' →
    ¬ dirOf B key <+: dirOf B key'

/-- Nothing changes at the base path itself or outside. -/
structure StaysBelow (B : Path) (srv srv' : Server) : Prop where
  nodes : ∀ q, ¬ Under B q ∨ q = B → srv'.world.fs.node? q = srv.world.fs.node? q
  files : ∀ q i, ¬ Under B q → srv.world.fs.node? q = some (.file i) →
    srv'.world.fs.data i = srv.world.fs.data i

/-- The segment keeps no number and no address that the kernel may have given out again. -/
def Segment.Tidy (s : Segment) : Prop :=
  s.fd.isStale = false ∧ s.fdRead.isStale = false ∧ s.index.fd.isStale = false ∧
    s.index.addr.isStale = false

/-- The partition was not closed in vain, which leaves segments in it that are freed. -/
def Partition.Tidy (p : Partition) : Prop := p.cancel = false ∧ ∀ s ∈ p.segments, s.Tidy

def CfgInfo.Tidy (cfg : CfgInfo) : Prop := cfg.fd.isStale = false ∧ cfg.addr.isStale = false

/-- Neither the partitions nor the config store keep what a refused `close` left behind. -/
def Broker.Tidy (b : Broker) : Prop :=
  (∀ x ∈ b.topics.entries, x.2.Tidy) ∧ ∀ x ∈ b.configManager.configs.entries, x.2.Tidy

instance (s : Segment) : Decidable s.Tidy := inferInstanceAs (Decidable (_ ∧ _))

instance (p : Partition) : Decidable p.Tidy := inferInstanceAs (Decidable (_ ∧ _))

instance (cfg : CfgInfo) : Decidable cfg.Tidy := inferInstanceAs (Decidable (_ ∧ _))

instance (b : Broker) : Decidable b.Tidy := inferInstanceAs (Decidable (_ ∧ _))

/-- Keys are isolated: their directories are, and each further request, whatever its calls answer,
leaves the keys it does not name and everything outside the base path as they were. -/
structure Isolated (B : Path) (srv : Server) : Prop where
  separate : Separate B srv
  spared : srv.broker.Tidy → ∀ x : Request × List Outcome, srv.broker.Admits x.1 →
    ∀ key, ¬ x.1.Names key → Unchanged B key srv (srv.stepWith x).2
  within : srv.broker.Tidy → ∀ x : Request × List Outcome, srv.broker.Admits x.1 →
    StaysBelow B srv (srv.stepWith x).2

variable {r : RawPath} {B : Path} {w w' : World} {srv srv' : Server} {own own' : Name → ℕ → Prop}
  {key : TopicPartition} {K : TopicPartition → Prop}

namespace Divided

theorem separate (h : Divided r B srv.broker srv.world own) : Separate B srv where
  leads key p q hp hq := (h.topics key p hp).1.home.leads hq
  below key := ⟨rfl, key.plain_toString⟩
  apart key key' hkey hkey' hne hpre := by
    apply hne
    apply h.distinct key key' (Or.inl hkey) (Or.inl hkey')
    simpa [dirOf] using hpre.eq_of_length (by simp [dirOf])

/-- A key outside the named ones, whose name is not theirs. -/
theorem unchanged (h : Divided r B srv.broker srv.world own) (hw : srv.world.Calm)
    (hw' : srv'.world.Calm)
    (hsp : Spares B K srv.broker srv.world own srv'.broker srv'.world own') (hkey : ¬ K key)
    (hK : srv.broker.Has key → ∀ key', K key' → key'.toString ≠ key.toString) :
    Unchanged B key srv srv' := by
  have hp := hsp.topics key hkey
  have hcfg : srv'.broker.configManager.get key = srv.broker.configManager.get key := by
    rw [ConfigManager.get, hsp.configs key hkey, ConfigManager.get]
  have hstored : ∀ p, srv.broker.topics.lookup key = some p → ∀ o,
      (p.readAt o srv'.world).1 = (p.readAt o srv.world).1 ∧
        (p.readAt o srv'.world).2.1 = (p.readAt o srv.world).2.1 := by
    intro p hp o
    refine p.readAt_same hw hw' (fun i hi => ?_) o
    exact hsp.data _ i (hK (Or.inl (mem_of_lookup hp))) ((h.topics key p hp).2 i hi)
  refine ⟨hp, hcfg, ?_, hstored, ?_, ?_, ?_⟩
  · rw [Broker.getOffsets, hp, hcfg, Broker.getOffsets]
  · intro o
    unfold Broker.getMessage
    rw [hp, hcfg]
    split
    · rfl
    · split_ifs
      · rfl
      · split
        · rfl
        · next p hp =>
            obtain ⟨hres, hpay⟩ := hstored p hp o.toInt
            exact congrArg₂ GetMessageResponse.mk hres hpay
  · intro hhas q hq
    exact hsp.node q (fun key' hkey' => hq.disjoint (hK hhas key' hkey').symm)
  · intro hhas q i hq hi
    exact hsp.data _ i (hK hhas) (h.named key q i hq hi)

end Divided

theorem Broker.WorksOn.name_ne {b : Broker} {request : Request} (hkey : ¬ request.Names key)
    (hhas : b.Has key) {key' : TopicPartition} (hkey' : b.WorksOn request key') :
    key'.toString ≠ key.toString := by
  intro heq
  cases request with
  | restart closing => exact hkey trivial
  | _ =>
      obtain rfl := hkey'.2 key hhas heq.symm
      exact hkey hkey'.1

/-- A broker whose inodes are divided. -/
def HasOwners (r : RawPath) (B : Path) (srv : Server) : Prop :=
  srv.world.Calm ∧ ∃ own, Divided r B srv.broker srv.world own

namespace HasOwners

theorem boot (h : Bare w r B) (order : KeyOrder) : HasOwners r B (Server.boot r order w) := by
  refine ⟨?_, h.divided order⟩
  rw [h.boot_eq]
  exact h.calm

theorem stepWith (h : HasOwners r B srv) {x : Request × List Outcome} (hadm : srv.broker.Admits x.1) :
    HasOwners r B (srv.stepWith x).2 := by
  obtain ⟨-, own, hdiv⟩ := h
  obtain ⟨own', hdiv', -⟩ := hdiv.stepWith hadm
  exact ⟨rfl, own', hdiv'⟩

theorem unchanged (h : HasOwners r B srv) {x : Request × List Outcome}
    (hadm : srv.broker.Admits x.1) (hkey : ¬ x.1.Names key) :
    Unchanged B key srv (srv.stepWith x).2 := by
  obtain ⟨hw, own, hdiv⟩ := h
  obtain ⟨own', -, hsp⟩ := hdiv.stepWith hadm
  exact hdiv.unchanged hw rfl hsp (fun hworks => hkey hworks.names)
    (fun hhas key' => Broker.WorksOn.name_ne hkey hhas)

theorem staysBelow (h : HasOwners r B srv) {x : Request × List Outcome}
    (hadm : srv.broker.Admits x.1) : StaysBelow B srv (srv.stepWith x).2 := by
  obtain ⟨hw, own, hdiv⟩ := h
  obtain ⟨own', -, hsp⟩ := hdiv.stepWith hadm
  refine ⟨fun q hq => hsp.node q (fun key' _ hown => ?_), fun q i hq hi => hsp.outside q i hq hi⟩
  exact hq.elim (fun hout => hout hown.below) hown.ne_base

theorem isolated (h : HasOwners r B srv) : Isolated B srv := by
  refine ⟨?_, fun _ x hadm key hkey => h.unchanged hadm hkey, fun _ x hadm => h.staysBelow hadm⟩
  obtain ⟨-, own, hdiv⟩ := h
  exact hdiv.separate

end HasOwners

/-- In every run that creates keys with a plain name of their own only, and in which no step is taken
with a number or an address in use that the kernel may have given out again, keys are isolated. -/
theorem keys_isolated {order : KeyOrder} {requests : List (Request × List Outcome)}
    (h : Bare w r B)
    (hadm : Runs.Always Server.stepWith (fun srv x => srv.broker.Admits x.1 ∧ srv.broker.Tidy)
      (Server.boot r order w) requests) :
    Isolated B (Runs.final Server.stepWith (Server.boot r order w) requests) := by
  have hfinal : HasOwners r B (Runs.final Server.stepWith (Server.boot r order w) requests) :=
    Runs.invariant (fun srv x hsrv hx => hsrv.stepWith hx.1) (.boot h order) hadm
  exact hfinal.isolated

theorem keys_isolated_from_others :
    Isolated [] (Runs.final Server.stepWith
      (Server.boot ⟨[], []⟩ ⟨id, fun _ => .refl _⟩ (World.blank 0))
      [(.createPartition ⟨['a'], 0, 0, 0, 0⟩, []), (.createPartition ⟨['b'], -1, 0, 0, 0⟩, [.fail]),
        (.createPartition ⟨['b'], -1, 0, 0, 0⟩, []), (.sendMessage ⟨['a'], 0⟩ [1], [.ok, .fail]),
        (.restart true, []), (.deleteTopic ['a'], [])]) :=
  keys_isolated (Bare.blank 0) (by decide +kernel)

/-- The keys `(t, -5)` and `(t-, 5)` share a directory, and sending to the one changes what is read
through the other. -/
theorem shared_directory :
    let a : TopicPartition := ⟨['t'], -5⟩
    let b : TopicPartition := ⟨['t', '-'], 5⟩
    let srv := Runs.final Server.stepWith
      (Server.boot ⟨[], []⟩ ⟨id, fun _ => .refl _⟩ (World.blank 0))
      [(.createPartition ⟨a.topic, a.partition, 100, 0, 0⟩, []),
        (.createPartition ⟨b.topic, b.partition, 100, 0, 0⟩, []), (.sendMessage a [1, 2, 3], []),
        (.sendMessage a [4], []), (.sendMessage b (List.replicate 28 255), [])]
    ¬ Request.Names (.sendMessage b [8]) a ∧
      ¬ Unchanged [] a srv (srv.stepWith (.sendMessage b [8], [])).2 ∧ ¬ Separate [] srv := by
  intro a b srv
  have hne : a ≠ b := by decide
  have hbefore : (srv.broker.getMessage a 1 srv.world).1.payload = [4] := by decide +kernel
  have hafter : ((srv.stepWith (.sendMessage b [8], [])).2.broker.getMessage a 1
      (srv.stepWith (.sendMessage b [8], [])).2.world).1.payload = [] := by decide +kernel
  have ha : a ∈ srv.broker.topics := by decide +kernel
  have hb : b ∈ srv.broker.topics := by decide +kernel
  refine ⟨hne, fun h => ?_, fun h => ?_⟩
  · have hsame := congrArg GetMessageResponse.payload (h.messages 1)
    rw [hbefore, hafter] at hsame
    cases hsame
  · exact h.apart a b ha hb hne (List.prefix_refl _)

end MyKafka
