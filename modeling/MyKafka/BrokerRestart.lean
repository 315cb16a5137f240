import MyKafka.BrokerRefinement

/-!
# What survives a restart

A key is stored under a name that is read back when a new broker loads the base path. In every run
that creates keys whose names can be read back, the keys, their settings and their messages are the
same after a restart, up to what retention drops when the partitions are opened.
-/

namespace MyKafka

open Posix MyKafka.Partition

/-- The partition of a key and the messages sent to it, before and after a restart. -/
structure SameLog (p p' : Partition) (w' : World) (msgs : List Payload) : Prop where
  settings : p'.settings = p.settings
  newest : p'.newestOffset = p.newestOffset ∧ p.newestOffset = msgs.length
  oldest : p.oldestOffset ≤ p'.oldestOffset
  idle : p.maxPartitionSize = 0 → p.segmentTtl = 0 → p'.oldestOffset = p.oldestOffset
  messages : ∀ (n : ℕ) m, msgs[n]? = some m → p'.oldestOffset ≤ n →
    p'.readAt n w' = (.ok (), m, w')

/-- After closing the broker and loading a new one exactly the keys of `h` are there, with the config
and the log they had. -/
def SurvivesRestart (h : History) (srv : Server) : Prop :=
  ∃ srv', srv.restart true = (.ok (), srv') ∧
    (∀ key, key ∈ srv'.broker.topics ↔ h key ≠ none) ∧
    (∀ key, key ∈ srv'.broker.configManager.configs ↔ h key ≠ none) ∧
    (∀ key, srv'.broker.configManager.get key = srv.broker.configManager.get key) ∧
    ∀ key msgs, h key = some msgs → ∃ p p', srv.broker.topics.lookup key = some p ∧
      srv'.broker.topics.lookup key = some p' ∧ SameLog p p' srv'.world msgs

variable {r : RawPath} {B : Path} {w w' : World} {key : TopicPartition} {e e' : Entry}
  {st st' : Store} {b b' : Broker} {p p' : Partition}

theorem Serves.mem_topics (h : Serves r B b w st) (key : TopicPartition) :
    key ∈ b.topics ↔ st key ≠ none := by
  rw [← AList.lookup_isSome]
  cases he : st key with
  | none => simp [(h.mirrors.absent key he).1]
  | some e =>
      obtain ⟨p, cfg, hp, -⟩ := h.mirrors.present key e he
      simp [hp]

theorem Serves.get_eq (h : Serves r B b w st) (key : TopicPartition) :
    b.configManager.get key = match st key with
      | none => ConfigManager.notFound key
      | some e => .ok e.info := by
  unfold ConfigManager.get
  cases he : st key with
  | none => rw [(h.mirrors.absent key he).2]
  | some e =>
      obtain ⟨p, cfg, -, -, hcfg, hinfo⟩ := h.mirrors.present key e he
      rw [hcfg]
      exact congrArg Except.ok hinfo.info

theorem Serves.mem_configs (h : Serves r B b w st) (key : TopicPartition) :
    key ∈ b.configManager.configs ↔ st key ≠ none := by
  rw [← AList.lookup_isSome]
  cases he : st key with
  | none => simp [(h.mirrors.absent key he).2]
  | some e =>
      obtain ⟨p, cfg, -, -, hcfg, -⟩ := h.mirrors.present key e he
      simp [hcfg]

theorem HoldsLog.reads (hw : w.Calm) (h : HoldsLog w r B key e p) :
    p.oldestOffset = e.oldest ∧ p.newestOffset = e.log.length ∧
      ∀ (n : ℕ) m, e.log[n]? = some m → p.oldestOffset ≤ n → p.readAt n w = (.ok (), m, w) := by
  obtain ⟨cs, hrep, -, haddr, hold⟩ := h.chunks
  refine ⟨by rw [hrep.oldest, hold], newestOffset_eq hrep, ?_⟩
  intro n m hn hle
  exact readAt_ok hw hrep haddr hn hle

/-- A log that only aged reads the same. -/
theorem HoldsLog.same (hw : w.Calm) (hw' : w'.Calm) (h : HoldsLog w r B key e p)
    (h' : HoldsLog w' r B key e' p') (ha : Ages (some e) (some e')) :
    SameLog p p' w' e.log := by
  obtain ⟨hold, hnew, -⟩ := h.reads hw
  obtain ⟨hold', hnew', hread'⟩ := h'.reads hw'
  have hset := h.settings
  have hset' := h'.settings
  cases ha with
  | @present _ n hle hlen hidle =>
      refine ⟨hset'.trans hset.symm, ⟨hnew'.trans hnew.symm, hnew⟩, ?_, ?_, hread'⟩
      · rw [hold, hold']
        exact_mod_cast hle
      · intro hsize httl
        have hsize' : p.maxPartitionSize = e.maxPartitionSize.toInt :=
          congrArg (fun x => x.2.2.1) hset
        have httl' : p.segmentTtl = e.segmentTtl.toInt := congrArg (fun x => x.2.2.2) hset
        rw [hold, hold', hidle (httl'.symm.trans httl) (hsize'.symm.trans hsize)]

theorem Ages.info (h : Ages (some e) (some e')) : e'.info = e.info := by
  cases h with
  | present => rfl

theorem Serves.survives (h : Serves r B b w st)
    (hlen : ∀ key e, st key = some e → e.log.length < 2 ^ 63) :
    SurvivesRestart st.logs ⟨b, w⟩ := by
  obtain ⟨b', w', st', hrestart, hages, h', -⟩ := h.restart hlen true
  have hiff : ∀ key, st' key ≠ none ↔ st.logs key ≠ none := by
    intro key
    have ha := hages key
    unfold Store.logs
    generalize st key = v at ha
    generalize st' key = v' at ha
    cases ha <;> simp
  refine ⟨⟨b', w'⟩, hrestart, ?_, ?_, ?_, ?_⟩
  · intro key
    exact (h'.mem_topics key).trans (hiff key)
  · intro key
    exact (h'.mem_configs key).trans (hiff key)
  · intro key
    have ha := hages key
    show b'.configManager.get key = b.configManager.get key
    rw [h.get_eq, h'.get_eq]
    generalize st key = v at ha
    generalize st' key = v' at ha
    cases ha <;> rfl
  · intro key msgs hmsgs
    obtain ⟨e, he, rfl⟩ := Option.map_eq_some_iff.mp hmsgs
    have ha := hages key
    rw [he] at ha
    obtain ⟨e', he'⟩ : ∃ e', st' key = some e' := by
      generalize st' key = v' at ha
      cases ha
      exact ⟨_, rfl⟩
    rw [he'] at ha
    obtain ⟨p, -, hp, hlog, -⟩ := h.mirrors.present key e he
    obtain ⟨p', -, hp', hlog', -⟩ := h'.mirrors.present key e' he'
    exact ⟨p, p', hp, hp', hlog.same h.mirrors.calm h'.mirrors.calm hlog' ha⟩

/-! ## Runs -/

theorem Serves.run {requests : List Request} {n : ℕ} : ∀ {b : Broker} {w : World} {st : Store},
    Serves r B b w st → sends requests + n < 2 ^ 63 →
    (∀ key e, st key = some e → e.log.length + (sends requests + n) < 2 ^ 63) →
    Runs.Always Server.step (fun srv request => request.Servable srv.broker) ⟨b, w⟩ requests →
    ∃ st', Runs.Trace StoreNext st (Runs.trace Server.step ⟨b, w⟩ requests) st' ∧
      Serves r B (Runs.final Server.step ⟨b, w⟩ requests).broker
        (Runs.final Server.step ⟨b, w⟩ requests).world st' ∧
      ∀ key e, st' key = some e → e.log.length + n < 2 ^ 63 := by
  induction requests with
  | nil =>
      intro b w st h _ hcount _
      exact ⟨st, .nil st, h, fun key e he => by simpa [sends] using hcount key e he⟩
  | cons request requests ih =>
      intro b w st h htotal hcount hok
      have hsends := sends_cons request requests
      obtain ⟨st₁, hn, h₁⟩ := h.step hok.1 (fun key e he => by
        have := hcount key e he
        omega)
      obtain ⟨st', htrace, h', hshort'⟩ := ih h₁ (by omega)
        (hn.count (by omega) htotal hcount) hok.2
      exact ⟨st', .cons hn htrace, h', hshort'⟩

/-- From an empty base directory: when every key that is created has a name that can be read back, a
restart brings back the keys that clients know of, with their settings, offsets and messages. -/
theorem survives_restart {order : KeyOrder} {requests : List Request} (h : Bare w r B)
    (hcount : sends requests < 2 ^ 63)
    (hok : Runs.Always Server.step (fun srv request => request.Servable srv.broker)
      (Server.boot r order w) requests) :
    SurvivesRestart
      ((Runs.trace Server.step (Server.boot r order w) requests).foldl History.next
        (fun _ => none))
      (Runs.final Server.step (Server.boot r order w) requests) := by
  obtain ⟨st, htrace, hserves, hshort⟩ := (h.boot order).run (n := 0) hcount
    (fun key e he => by cases he) hok
  have hsurvives := hserves.survives hshort
  rwa [Store.logs_trace htrace] at hsurvives

theorem ready_of_all {o : Option Partition} (h : o.all (fun p => decide p.Ready) = true) :
    ∀ p, o = some p → p.Ready := by
  rintro p rfl
  exact of_decide_eq_true h

theorem survives_restart_sent :
    let requests : List Request := [.createPartition ⟨"logs".toList, 2, 100, 0, 0⟩,
      .sendMessage ⟨"logs".toList, 2⟩ [1, 2]]
    SurvivesRestart
      ((Runs.trace Server.step (Server.boot ⟨[], []⟩ ⟨id, fun _ => .refl _⟩ (World.blank 0))
        requests).foldl History.next (fun _ => none))
      (Runs.final Server.step (Server.boot ⟨[], []⟩ ⟨id, fun _ => .refl _⟩ (World.blank 0))
        requests) := by
  intro requests
  apply survives_restart (Bare.blank 0) (by decide)
  refine ⟨Or.inr ⟨⟨by decide, by decide⟩, by decide⟩, ⟨?_, ?_⟩, trivial⟩
  · exact Nat.lt_of_sub_pos (by decide)
  · exact ready_of_all (by decide +kernel)

/-- The key `("t", -5)` comes back as `("t-", 5)`. -/
theorem renamed_by_restart :
    let requests : List Request := [.createPartition ⟨"t".toList, -5, 100, 0, 0⟩]
    ¬ SurvivesRestart
      ((Runs.trace Server.step (Server.boot ⟨[], []⟩ ⟨id, fun _ => .refl _⟩ (World.blank 0))
        requests).foldl History.next (fun _ => none))
      (Runs.final Server.step (Server.boot ⟨[], []⟩ ⟨id, fun _ => .refl _⟩ (World.blank 0))
        requests) := by
  rintro requests ⟨srv', hrestart, htopics, -⟩
  have hgone : (⟨"t".toList, -5⟩ : TopicPartition) ∉ srv'.broker.topics := by
    have hsrv := congrArg Prod.snd hrestart
    dsimp only at hsrv
    rw [← hsrv]
    decide +kernel
  exact hgone ((htopics _).mpr (by decide +kernel))

end MyKafka
