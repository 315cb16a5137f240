import MyKafka.BrokerRestart

/-!
# Kills within a request

Creating, deleting and writing change a partition and the config store one after the other, so a kill
may fall between the two. What it leaves is an orphan directory, a config file without directory, or
a log that is longer than its commit offset says; loading repairs the first, and the second when the
log was empty.
-/

namespace MyKafka

open Posix MyKafka.Partition

/-! ## Requests that are stopped -/

namespace Broker

/-- The disk after at most `n` of the atomic steps of `createPartition`. -/
def createPartitionSteps (b : Broker) (request : TopicPartitionRequest) (n : ℕ) (w : World) :
    World :=
  let key : TopicPartition := ⟨request.topic, request.partition⟩
  if key ∈ b.topics ∨ n = 0 then w
  else
    match b.createAndAddNewPartition key request.maxSegmentSize request.maxPartitionSize
        request.segmentTtl w with
    | (.error _, _, w) => w
    | (.ok _, b, w) =>
      if n = 1 then w
      else (b.configManager.create key request.maxSegmentSize request.maxPartitionSize
        request.segmentTtl w).2.2

/-- The same of `sendMessage`. -/
def sendMessageSteps (b : Broker) (key : TopicPartition) (payload : Payload) (n : ℕ) (w : World) :
    World :=
  match b.topics.lookup key with
  | none => w
  | some partition =>
    if n = 0 then w
    else
      match partition.write payload w with
      | (.error _, _, w) => w
      | (.ok offset, _, w) =>
        if n = 1 then w
        else (b.configManager.updateCommitOffset key (.ofInt offset) w).2.2

/-- The same of the loop of `deleteTopic`. -/
def deleteEntriesSteps : List TopicPartition → ℕ → Broker → World → World
  | [], _, _, w => w
  | key :: keys, n, b, w =>
    match b.topics.lookup key with
    | none => deleteEntriesSteps keys n b w
    | some partition =>
      if n = 0 then w
      else
        match partition.deletePartition w with
        | (.error _, _, w) => w
        | (.ok _, p, w) =>
          if n = 1 then w
          else
            match b.configManager.remove key w with
            | (.error _, _, w) => w
            | (.ok _, c, w) =>
              deleteEntriesSteps keys (n - 2)
                { b with topics := b.topics.replace key p, configManager := c } w

variable {b : Broker} {w : World} {key : TopicPartition} {n : ℕ}

/-- Two steps are the whole request. -/
theorem createPartitionSteps_all (request : TopicPartitionRequest) (hn : 2 ≤ n) :
    b.createPartitionSteps request n w = (b.createPartition request w).2.2 := by
  unfold createPartitionSteps createPartition
  dsimp only
  by_cases hmem : (⟨request.topic, request.partition⟩ : TopicPartition) ∈ b.topics
  · rw [if_pos (Or.inl hmem), if_pos hmem]
  · rw [if_neg (by rintro (h | h); exacts [hmem h, by omega]), if_neg hmem]
    rcases b.createAndAddNewPartition _ _ _ _ w with ⟨_ | _, b', w'⟩
    · rfl
    · dsimp only
      rw [if_neg (by omega)]

theorem sendMessageSteps_all (payload : Payload) (hn : 2 ≤ n) :
    b.sendMessageSteps key payload n w = (b.sendMessage key payload w).2.2 := by
  unfold sendMessageSteps sendMessage
  cases b.topics.lookup key with
  | none => rfl
  | some p =>
      dsimp only
      rw [if_neg (by omega)]
      rcases p.write payload w with ⟨_ | _, p', w'⟩
      · rfl
      · dsimp only
        rw [if_neg (by omega)]

/-- A deletion of one key goes through the loop once. -/
theorem deletePartitionSteps_all (hn : 2 ≤ n) :
    deleteEntriesSteps [key] n b w = (b.deletePartition key w).2.2 := by
  unfold deleteEntriesSteps deletePartition
  cases b.topics.lookup key with
  | none => rfl
  | some p =>
      dsimp only
      rw [if_neg (by omega)]
      rcases p.deletePartition w with ⟨_ | _, p', w'⟩
      · rfl
      · dsimp only
        rw [if_neg (by omega)]
        rcases b.configManager.remove key w' with ⟨_ | _, c, w''⟩ <;> rfl

theorem deleteEntriesSteps_all {keys : List TopicPartition} (hn : 2 * keys.length ≤ n) :
    deleteEntriesSteps keys n b w = (deleteEntries keys b w).2.2 := by
  induction keys generalizing n b w with
  | nil => rfl
  | cons key keys ih =>
      rw [List.length_cons] at hn
      rw [deleteEntriesSteps, deleteEntries]
      cases b.topics.lookup key with
      | none => exact ih (by omega)
      | some p =>
          dsimp only
          rw [if_neg (by omega)]
          rcases p.deletePartition w with ⟨_ | _, p', w'⟩
          · rfl
          · dsimp only
            rw [if_neg (by omega)]
            rcases b.configManager.remove key w' with ⟨_ | _, c, w''⟩
            · rfl
            · exact ih (by omega)

end Broker

namespace Server

/-- The disk when the process is killed after `n` atomic steps of the request. -/
def killed (srv : Server) (request : Request) (n : ℕ) : World :=
  match request with
  | .createPartition creation => srv.broker.createPartitionSteps creation n srv.world
  | .deletePartition key => Broker.deleteEntriesSteps [key] n srv.broker srv.world
  | .deleteTopic topic =>
    Broker.deleteEntriesSteps (srv.broker.keys.filter (fun key => key.topic = topic)) n srv.broker
      srv.world
  | .sendMessage key payload => srv.broker.sendMessageSteps key payload n srv.world
  | request => if n = 0 then srv.world else (srv.step request).2.world

/-- A new broker on the same base path. -/
def reload (srv : Server) (w : World) : Result Unit × Server :=
  match Broker.new srv.broker.basePath srv.broker.order w with
  | (b, w) =>
    match b.load w with
    | (res, b, w) => (res, ⟨b, w⟩)

end Server

/-- What happens to a server: a request is served, or the process is killed after `n` atomic steps of
it and started again. -/
inductive Event where
  | serve (request : Request)
  | kill (request : Request) (n : ℕ)

def Event.request : Event → Request
  | .serve request => request
  | .kill request _ => request

def Server.live (srv : Server) : Event → Response × Server
  | .serve request => srv.step request
  | .kill request n =>
    match srv.reload (srv.killed request n) with
    | (res, srv) => (.loaded res, srv)

/-! ## What a kill leaves -/

variable {r : RawPath} {B : Path} {w w' : World} {key : TopicPartition} {e : Entry}
  {st st' : Store} {b : Broker}

theorem Rests.orphan (h : Rests r B w st) (ht : Touches B key w w') (hcalm : w'.Calm)
    (hkey : st key = none) (horphan : Orphan w' r B key) : Rests r B w' st where
  calm := hcalm
  atBase := ht.atDir h.atBase (List.prefix_append _ _)
  atConf := ht.atDir h.atConf (List.prefix_refl _)
  decodable := h.decodable
  present key' e he := by
    have hne : key' ≠ key := by
      rintro rfl
      rw [hkey] at he
      cases he
    have hk := h.toString_ne horphan.decodable hne he
    obtain ⟨hlog, i, hfile⟩ := h.present key' e he
    exact ⟨hlog.imp (fun hs => hs.agree (ht.agree hk)) (fun hs => hs.agree (ht.agree hk)), i,
      ht.infoFile hk hfile⟩
  only := h.only.touches horphan.decodable ht (fun _ _ hne => hne) (Or.inr (Or.inl horphan))

/-- A creation that is stopped after its first step. -/
theorem Serves.createPartitionSteps (h : Serves r B b w st) (request : TopicPartitionRequest)
    (hkey : request.key ∈ b.topics ∨ request.key.Decodable) {n : ℕ} (hn : n < 2) :
    Rests r B (b.createPartitionSteps request n w) st := by
  have hm := h.mirrors
  unfold Broker.createPartitionSteps
  dsimp only
  split_ifs with hskip hone
  · exact hm.rests
  · rw [not_or] at hskip
    have hdec := hkey.resolve_left hskip.1
    have hnew : st request.key = none := by
      by_contra hne
      obtain ⟨e, he⟩ := Option.ne_none_iff_exists'.mp hne
      obtain ⟨p, -, hp, -⟩ := hm.present _ e he
      exact hskip.1 (mem_of_lookup hp)
    obtain ⟨p, w', hopen, hlog, hfree, hw', hfr⟩ := open_new hm hdec hnew request.maxSegmentSize
      request.maxPartitionSize request.segmentTtl
    have hcreate : b.createAndAddNewPartition request.key request.maxSegmentSize
        request.maxPartitionSize request.segmentTtl w =
        (.ok (), { b with topics := b.topics.insert request.key p }, w') := by
      rw [Broker.createAndAddNewPartition, Broker.partitionPath_eq h.basePath hdec.toEncodable, hopen]
    rw [show (⟨request.topic, request.partition⟩ : TopicPartition) = request.key from rfl, hcreate]
    exact hm.rests.orphan (touches_dir hfr) hw' hnew ⟨hdec, hfree, hlog.shelved⟩
  · rw [not_or] at hskip
    omega

/-- A deletion that is stopped between its two steps leaves the config file of an empty log. -/
theorem Mirrors.deleted {topics : TopicPartition → Option Partition}
    {configs : TopicPartition → Option CfgInfo} (hm : Mirrors r B w topics configs st)
    (he : st key = some e) (hlog : e.log = []) {p : Partition} (hp : topics key = some p) :
    Rests r B (p.deletePartition w).2.2 st := by
  obtain ⟨p', cfg, hp', hholds, -, hinfo⟩ := hm.present key e he
  obtain rfl := Option.some.inj (hp.symm.trans hp')
  obtain ⟨p₁, w₁, hdel, hw₁, hgone, hfr⟩ := hholds.delete hm.calm hm.atBase
  obtain ⟨i, -, hfile⟩ := hinfo.file
  have hold := hm.rests.oldest_le he
  rw [hlog, List.length_nil, Nat.le_zero] at hold
  rw [hdel]
  exact hm.rests.keep he (Serves.touches_dir hfr) hw₁ (Or.inr ⟨hlog, hold, hgone⟩)
    ⟨i, hfile.frame hfr⟩

theorem Broker.deleteEntriesSteps_spec {todo : List TopicPartition} : ∀ {n : ℕ} {b : Broker}
    {w : World} {topics : TopicPartition → Option Partition} {st : Store}, todo.Nodup →
    b.configManager.basePath = r.child Broker.configName →
    Mirrors r B w topics (fun key => b.configManager.configs.lookup key) st →
    (∀ key ∈ todo, st key ≠ none ∧ topics key = b.topics.lookup key) →
    (n % 2 = 1 → ∀ key e, todo[n / 2]? = some key → st key = some e → e.log = []) →
    ∃ st', Rests r B (deleteEntriesSteps todo n b w) st' ∧
      ∀ key e, st' key = some e → st key = some e := by
  induction todo with
  | nil =>
      intro n b w topics st _ _ hm _ _
      exact ⟨st, hm.rests, fun _ _ he => he⟩
  | cons key todo ih =>
      intro n b w topics st hnodup hconf hm htodo hempty
      obtain ⟨hfresh, hnodup⟩ := List.nodup_cons.mp hnodup
      obtain ⟨hkey, htop⟩ := htodo key List.mem_cons_self
      obtain ⟨e, he⟩ := Option.ne_none_iff_exists'.mp hkey
      obtain ⟨p, p', w₁, w₂, hp, hdel, hremove, -, hm₂⟩ := hm.delete hconf he
      rw [deleteEntriesSteps, ← htop, hp]
      dsimp only
      rcases (by omega : n = 0 ∨ n = 1 ∨ 2 ≤ n) with rfl | rfl | hn
      · exact ⟨st, hm.rests, fun _ _ he => he⟩
      · rw [if_neg Nat.one_ne_zero, hdel]
        dsimp only
        rw [if_pos rfl]
        have hrests := hm.deleted he (hempty rfl key e rfl he) hp
        rw [hdel] at hrests
        exact ⟨st, hrests, fun _ _ he => he⟩
      · have hne : ∀ k ∈ todo, k ≠ key := by
          rintro k hk rfl
          exact hfresh hk
        rw [if_neg (by omega), hdel]
        dsimp only
        rw [if_neg (by omega), hremove]
        dsimp only
        obtain ⟨st', hrests, hsub⟩ := ih (n := n - 2)
          (b := { b with
            topics := b.topics.replace key p'
            configManager := { b.configManager with
              configs := b.configManager.configs.erase key } }) hnodup hconf hm₂ (by
            intro k hk
            obtain ⟨hk₁, hk₂⟩ := htodo k (List.mem_cons_of_mem key hk)
            rw [Function.update_of_ne (hne k hk), Function.update_of_ne (hne k hk), hk₂]
            exact ⟨hk₁, (lookup_replace_ne (hne k hk) _).symm⟩) (by
            intro hodd k e' hk he'
            have hk' : (key :: todo)[n / 2]? = some k := by
              rw [show n / 2 = (n - 2) / 2 + 1 by omega, List.getElem?_cons_succ, hk]
            exact hempty (by omega) k e' hk' ((Store.of_update he').resolve_left (by simp)))
        exact ⟨st', hrests, fun k e' he' =>
          (Store.of_update (hsub k e' he')).resolve_left (by simp)⟩

/-- The partition of the key, if it is there, was never written to. -/
def Broker.Unwritten (b : Broker) (key : TopicPartition) : Prop :=
  ∀ p, b.topics.lookup key = some p → p.newestOffset = 0

/-- The kill does not fall between the write of a message and its commit, nor between the two steps
that delete a partition with messages. -/
def Event.Clean (b : Broker) : Event → Prop
  | .kill (.sendMessage key _) n => n = 1 → key ∉ b.topics
  | .kill (.deletePartition key) n => n = 1 → b.Unwritten key
  | .kill (.deleteTopic topic) n =>
    n % 2 = 1 → ∀ key, (b.keys.filter (fun key => key.topic = topic))[n / 2]? = some key →
      b.Unwritten key
  | _ => True

theorem Serves.log_eq_nil (h : Serves r B b w st) (hkey : b.Unwritten key) (he : st key = some e) :
    e.log = [] := by
  obtain ⟨p, -, hp, hlog, -⟩ := h.mirrors.present key e he
  obtain ⟨cs, hrep, -⟩ := hlog.chunks
  have hnew := newestOffset_eq hrep
  rw [hkey p hp] at hnew
  exact List.length_eq_zero_iff.mp (by exact_mod_cast hnew.symm)

/-- The disk that a clean kill leaves is that of the logs after the request, or of some of those
before it. -/
theorem Serves.killed (h : Serves r B b w st) {request : Request} {n : ℕ}
    (hreq : request.Servable b) (hclean : (Event.kill request n).Clean b)
    (hroom : ∀ key e, st key = some e → e.log.length + sends [request] < 2 ^ 63) :
    ∃ st', Rests r B (Server.killed ⟨b, w⟩ request n) st' ∧
      ((∃ response, StoreNext st request response st') ∨
        ∀ key e, st' key = some e → st key = some e) := by
  have hwhole : ∃ st', Rests r B (Server.step ⟨b, w⟩ request).2.world st' ∧
      ((∃ response, StoreNext st request response st') ∨
        ∀ key e, st' key = some e → st key = some e) := by
    obtain ⟨st', hn, h'⟩ := h.step hreq hroom
    exact ⟨st', h'.mirrors.rests, Or.inl ⟨_, hn⟩⟩
  have hnone : ∃ st', Rests r B w st' ∧ ((∃ response, StoreNext st request response st') ∨
      ∀ key e, st' key = some e → st key = some e) :=
    ⟨st, h.mirrors.rests, Or.inr (fun _ _ he => he)⟩
  cases request with
  | tick | getMessage | getOffsets | restart =>
      rw [Server.killed]
      · split_ifs
        · exact hnone
        · exact hwhole
      all_goals simp
  | createPartition creation =>
      by_cases hn : n < 2
      · exact ⟨st, h.createPartitionSteps creation hreq hn, Or.inr (fun _ _ he => he)⟩
      · rw [Server.killed, Broker.createPartitionSteps_all creation (by omega)]
        exact hwhole
  | sendMessage key payload =>
      by_cases hn : n < 2
      · have hskip : b.sendMessageSteps key payload n w = w := by
          rw [Broker.sendMessageSteps]
          cases hp : b.topics.lookup key with
          | none => rfl
          | some p =>
              have hzero : n = 0 := by
                by_contra hne
                exact hclean (by omega) (mem_of_lookup hp)
              dsimp only
              rw [if_pos hzero]
        rw [Server.killed, hskip]
        exact hnone
      · rw [Server.killed, Broker.sendMessageSteps_all payload (by omega)]
        exact hwhole
  | deletePartition key =>
      by_cases hn : n < 2
      · cases hkey : st key with
        | none =>
            rw [Server.killed, Broker.deleteEntriesSteps, (h.mirrors.absent key hkey).1]
            exact hnone
        | some e =>
            have hempty : n % 2 = 1 → ∀ k e', [key][n / 2]? = some k → st k = some e' → e'.log = [] := by
              intro hodd k e' hk he'
              obtain rfl : n = 1 := by omega
              obtain rfl := Option.some.inj hk
              exact h.log_eq_nil (hclean rfl) he'
            obtain ⟨st', hrests, hsub⟩ := Broker.deleteEntriesSteps_spec (List.nodup_singleton key)
              h.confPath h.mirrors (by simp [hkey]) hempty
            exact ⟨st', hrests, Or.inr hsub⟩
      · rw [Server.killed, Broker.deletePartitionSteps_all (by omega)]
        exact hwhole
  | deleteTopic topic =>
      set todo := b.keys.filter (fun key => key.topic = topic) with htodo
      have hmem : ∀ key ∈ todo, st key ≠ none ∧ b.topics.lookup key = b.topics.lookup key :=
        fun key hkey => ⟨(h.mem_keys key).mp (List.mem_filter.mp hkey).1, rfl⟩
      have hempty : n % 2 = 1 → ∀ key e, todo[n / 2]? = some key → st key = some e → e.log = [] :=
        fun hodd key e hk he => h.log_eq_nil (hclean hodd key hk) he
      obtain ⟨st', hrests, hsub⟩ := Broker.deleteEntriesSteps_spec (h.nodup_keys.filter _)
        h.confPath h.mirrors hmem hempty
      exact ⟨st', hrests, Or.inr hsub⟩

/-! ## Runs with kills -/

/-- The commit offset of a partition is its last offset, and decides what can be fetched. -/
structure Broker.CommitMatches (b : Broker) (w : World) (key : TopicPartition) (p : Partition) :
    Prop where
  commit : ∃ info, b.configManager.get key = .ok info ∧ info.commitOffset.toInt = p.newestOffset - 1
  fetched : ∀ o : Int64, (b.getMessage key o w).1.error = .ok () ↔
    p.oldestOffset ≤ o.toInt ∧ o.toInt < p.newestOffset
  checked : ∀ o : Int64, (∃ msg, (b.getMessage key o w).1.error = Utils.err .noMessage msg) ↔
    p.newestOffset ≤ o.toInt

def Server.CommitsMatch (srv : Server) : Prop :=
  ∀ key p, srv.broker.topics.lookup key = some p → srv.broker.CommitMatches srv.world key p

theorem Serves.commitsMatch (h : Serves r B b w st)
    (hshort : ∀ key e, st key = some e → e.log.length < 2 ^ 63) :
    Server.CommitsMatch ⟨b, w⟩ := by
  intro key p hp
  cases he : st key with
  | none =>
      have hnone := (h.mirrors.absent key he).1
      rw [hnone] at hp
      cases hp
  | some e =>
      obtain ⟨p', cfg, hp', hlog, hcfg, hinfo⟩ := h.mirrors.present key e he
      obtain rfl := Option.some.inj (hp.symm.trans hp')
      obtain ⟨cs, hrep, -, -, hold⟩ := hlog.chunks
      have hoffset := newestOffset_eq hrep
      have hoff := hrep.oldest
      rw [← hold] at hoff
      have hreads : ∀ o, Reads e o (b.getMessage key o w).1 := by
        intro o
        have hmsg := (h.getMessage (fun e he => hshort key e he) o).2
        rwa [he] at hmsg
      refine ⟨⟨e.info, ?_, ?_⟩, fun o => ?_, fun o => ?_⟩
      · rw [ConfigManager.get, show b.configManager.configs.lookup key = some cfg from hcfg]
        exact congrArg Except.ok hinfo.info
      · rw [toInt_commit (hshort key e he), hoffset]
      · rw [hoffset, hoff]
        exact (hreads o).ok
      · rw [hoffset]
        exact (hreads o).noMessage

theorem Rests.reload (h : Rests r B w' st)
    (hshort : ∀ key e, st key = some e → e.log.length < 2 ^ 63) (hb : b.basePath = r) :
    ∃ b₁ w₁ st', Server.reload ⟨b, w⟩ w' = (.ok (), ⟨b₁, w₁⟩) ∧ Serves r B b₁ w₁ st' ∧
      ∀ key, Ages (st key) (st' key) := by
  obtain ⟨b₀, b₁, w₁, st', hnew, hload, hages, hserves, -⟩ := h.load hshort b.order
  refine ⟨b₁, w₁, st', ?_, hserves, hages⟩
  rw [Server.reload]
  dsimp only
  rw [hb, hnew]
  dsimp only
  rw [hload]

theorem Ages.count {n : ℕ} {st' : Store} (h : ∀ key, Ages (st key) (st' key))
    (hcount : ∀ key e, st key = some e → e.log.length + n < 2 ^ 63) :
    ∀ key e, st' key = some e → e.log.length + n < 2 ^ 63 := by
  intro key e he
  have ha := h key
  rw [he] at ha
  generalize hv : st key = v at ha
  cases ha with
  | @present e₀ => exact hcount key e₀ hv

theorem Serves.live (h : Serves r B b w st) {event : Event} {n m : ℕ}
    (hreq : event.request.Servable b) (hclean : event.Clean b) (hle : sends [event.request] + n ≤ m)
    (hm : m < 2 ^ 63) (hcount : ∀ key e, st key = some e → e.log.length + m < 2 ^ 63) :
    ∃ st', Serves r B (Server.live ⟨b, w⟩ event).2.broker (Server.live ⟨b, w⟩ event).2.world st' ∧
      ∀ key e, st' key = some e → e.log.length + n < 2 ^ 63 := by
  have hroom : ∀ key e, st key = some e → e.log.length + sends [event.request] < 2 ^ 63 := by
    intro key e he
    have := hcount key e he
    omega
  cases event with
  | serve request =>
      obtain ⟨st', hn, h'⟩ := h.step hreq hroom
      exact ⟨st', h', hn.count hle hm hcount⟩
  | kill request k =>
      have hreq : request.Servable b := hreq
      obtain ⟨st₁, hrests, hst₁⟩ := h.killed hreq hclean hroom
      have hcount₁ : ∀ key e, st₁ key = some e → e.log.length + n < 2 ^ 63 := by
        rcases hst₁ with ⟨response, hn⟩ | hsub
        · exact hn.count hle hm hcount
        · intro key e he
          have := hcount key e (hsub key e he)
          omega
      obtain ⟨b₁, w₁, st', hreload, h', hages⟩ := hrests.reload (b := b) (w := w) (fun key e he => by
        have := hcount₁ key e he
        omega) h.basePath
      rw [Server.live]
      dsimp only
      rw [hreload]
      exact ⟨st', h', Ages.count hages hcount₁⟩

theorem Serves.lives {events : List Event} : ∀ {b : Broker} {w : World} {st : Store},
    Serves r B b w st → sends (events.map Event.request) < 2 ^ 63 →
    (∀ key e, st key = some e →
      e.log.length + sends (events.map Event.request) < 2 ^ 63) →
    Runs.Always Server.live (fun srv event => event.request.Servable srv.broker ∧
      event.Clean srv.broker) ⟨b, w⟩ events →
    ∃ st', Serves r B (Runs.final Server.live ⟨b, w⟩ events).broker
        (Runs.final Server.live ⟨b, w⟩ events).world st' ∧
      ∀ key e, st' key = some e → e.log.length < 2 ^ 63 := by
  induction events with
  | nil =>
      intro b w st h _ hcount _
      exact ⟨st, h, fun key e he => by simpa [sends] using hcount key e he⟩
  | cons event events ih =>
      intro b w st h htotal hcount hok
      have hsends := sends_cons event.request (events.map Event.request)
      rw [List.map_cons] at htotal hcount
      obtain ⟨st₁, h₁, hcount₁⟩ := h.live hok.1.1 hok.1.2 hsends.ge htotal hcount
      exact ih h₁ (by omega) hcount₁ hok.2

/-- From an empty base directory: after any requests and kills, each of which is clean, the commit
offset of every partition is its last offset. -/
theorem commits_match {order : KeyOrder} {events : List Event} (h : Bare w r B)
    (hcount : sends (events.map Event.request) < 2 ^ 63)
    (hok : Runs.Always Server.live (fun srv event => event.request.Servable srv.broker ∧
      event.Clean srv.broker) (Server.boot r order w) events) :
    (Runs.final Server.live (Server.boot r order w) events).CommitsMatch := by
  obtain ⟨st, hserves, hshort⟩ := (h.boot order).lives hcount (fun key e he => by cases he) hok
  exact hserves.commitsMatch hshort

theorem unwritten_of_all (h : (b.topics.lookup key).all (fun p => decide (p.newestOffset = 0)) = true) :
    b.Unwritten key := by
  intro p hp
  rw [hp] at h
  exact of_decide_eq_true h

theorem commits_match_resumed :
    let key : TopicPartition := ⟨"logs".toList, 2⟩
    let creation : TopicPartitionRequest := ⟨"logs".toList, 2, 100, 0, 0⟩
    let events : List Event := [.kill (.createPartition creation) 1,
      .serve (.createPartition creation), .kill (.deletePartition key) 1,
      .kill (.sendMessage key [1]) 2, .serve (.sendMessage key [2, 3])]
    let srv := Runs.final Server.live
      (Server.boot ⟨[], []⟩ ⟨id, fun _ => .refl _⟩ (World.blank 0)) events
    srv.CommitsMatch ∧ (srv.broker.getOffsets key).commitOffset = 1 := by
  intro key creation events srv
  refine ⟨commits_match (Bare.blank 0) (by decide) ?_, by decide +kernel⟩
  refine ⟨⟨Or.inr ⟨⟨by decide, by decide⟩, by decide⟩, trivial⟩,
    ⟨Or.inr ⟨⟨by decide, by decide⟩, by decide⟩, trivial⟩, ⟨trivial, fun _ => ?_⟩,
    ⟨⟨?_, ?_⟩, fun h => by omega⟩, ⟨⟨?_, ?_⟩, trivial⟩, trivial⟩
  · exact unwritten_of_all (by decide +kernel)
  · exact Nat.lt_of_sub_pos (by decide)
  · exact ready_of_all (by decide +kernel)
  · exact Nat.lt_of_sub_pos (by decide)
  · exact ready_of_all (by decide +kernel)

/-- A message that was written and not committed is not fetched. -/
theorem uncommitted_message :
    let key : TopicPartition := ⟨"logs".toList, 2⟩
    let events : List Event := [.serve (.createPartition ⟨"logs".toList, 2, 100, 0, 0⟩),
      .kill (.sendMessage key [1]) 1]
    let srv := Runs.final Server.live
      (Server.boot ⟨[], []⟩ ⟨id, fun _ => .refl _⟩ (World.blank 0)) events
    (srv.broker.getOffsets key).lastOffset = 0 ∧ (srv.broker.getOffsets key).commitOffset = -1 ∧
      ¬ srv.CommitsMatch := by
  intro key events srv
  have hlast : (srv.broker.getOffsets key).lastOffset = 0 := by decide +kernel
  have hcommit : (srv.broker.getOffsets key).commitOffset = -1 := by decide +kernel
  refine ⟨hlast, hcommit, fun hmatch => ?_⟩
  obtain ⟨p, hp⟩ : ∃ p, srv.broker.topics.lookup key = some p :=
    Option.isSome_iff_exists.mp (by decide +kernel)
  obtain ⟨info, hinfo, heq⟩ := (hmatch key p hp).commit
  simp only [Broker.getOffsets, hp, hinfo] at hlast hcommit
  omega

end MyKafka
