import MyKafka.BrokerLoad
import MyKafka.PartitionRefinement

/-!
# A broker refines a map of logs

Every run of a broker whose messages are acknowledged is a trace of a map from keys to logs:
creating and deleting put and drop a log, a message is appended to the log of its key and answered
with its index, reads look messages up, and time and restarts may shed prefixes.
-/

namespace MyKafka

open Posix MyKafka.Partition

/-- The answer to a read of offset `o`. -/
structure Reads (e : Entry) (o : Int64) (response : GetMessageResponse) : Prop where
  noMessage : (∃ msg, response.error = Utils.err .noMessage msg) ↔ e.log.length ≤ o.toInt
  ok : response.error = .ok () ↔ e.oldest ≤ o.toInt ∧ o.toInt < e.log.length
  payload : response.error = .ok () → e.log[o.toInt.toNat]? = some response.payload

def MessageOf (v : Option Entry) (o : Int64) (response : GetMessageResponse) : Prop :=
  match v with
  | none => ∃ msg, response = ⟨Utils.err .notFound msg, []⟩
  | some e => Reads e o response

def OffsetsOf (v : Option Entry) (response : GetOffsetsResponse) : Prop :=
  match v with
  | none => ∃ msg, response = ⟨Utils.err .topicError msg, 0, 0, 0⟩
  | some e => response = ⟨.ok (), e.oldest, e.log.length - 1, e.log.length - 1⟩

def TopicPartitionRequest.key (request : TopicPartitionRequest) : TopicPartition :=
  ⟨request.topic, request.partition⟩

/-- The steps of a map from keys to logs. -/
inductive StoreNext : Store → Request → Response → Store → Prop
  | tick (st : Store) (seconds : ℕ) : StoreNext st (.tick seconds) .ticked st
  | create {st : Store} {request : TopicPartitionRequest} (h : st request.key = none) :
      StoreNext st (.createPartition request) (.created (.ok ()))
        (Function.update st request.key (some (.fresh request.maxSegmentSize
          request.maxPartitionSize request.segmentTtl)))
  | createAgain {st : Store} {request : TopicPartitionRequest} {err : Error}
      (h : st request.key ≠ none) :
      StoreNext st (.createPartition request) (.created (.error err)) st
  | delete {st : Store} {key : TopicPartition} (h : st key ≠ none) :
      StoreNext st (.deletePartition key) (.deleted (.ok ())) (Function.update st key none)
  | deleteUnknown {st : Store} {key : TopicPartition} {msg : String} (h : st key = none) :
      StoreNext st (.deletePartition key) (.deleted (Utils.err .topicError msg)) st
  | deleteTopic (st : Store) (topic : Str) :
      StoreNext st (.deleteTopic topic) (.deleted (.ok ())) (st.without topic)
  | send {st : Store} {key : TopicPartition} {e : Entry} {m : Payload} {n : ℕ}
      (h : st key = some e) (hle : e.oldest ≤ n) (hn : n ≤ e.log.length) :
      StoreNext st (.sendMessage key m) (.sent ⟨.ok (), e.log.length⟩)
        (Function.update st key (some (e.push m n)))
  | sendUnknown {st : Store} {key : TopicPartition} {m : Payload} {msg : String}
      (h : st key = none) :
      StoreNext st (.sendMessage key m) (.sent ⟨Utils.err .topicError msg, 0⟩) st
  | getMessage {st : Store} {key : TopicPartition} {o : Int64} {response : GetMessageResponse}
      (h : MessageOf (st key) o response) :
      StoreNext st (.getMessage key o) (.message response) st
  | getOffsets {st : Store} {key : TopicPartition} {response : GetOffsetsResponse}
      (h : OffsetsOf (st key) response) :
      StoreNext st (.getOffsets key) (.offsets response) st
  | restart {st st' : Store} {closing : Bool} (h : ∀ key, Ages (st key) (st' key)) :
      StoreNext st (.restart closing) (.loaded (.ok ())) st'

variable {r : RawPath} {B : Path} {w w' : World} {key : TopicPartition} {e : Entry}
  {st : Store} {b : Broker}

/-! ## Reading -/

theorem toInt_commit (h : e.log.length < 2 ^ 63) :
    e.info.commitOffset.toInt = (e.log.length : ℤ) - 1 :=
  Int64.toInt_ofInt_of_le (by omega) (by omega)

theorem Serves.getMessage (h : Serves r B b w st)
    (hlen : ∀ e, st key = some e → e.log.length < 2 ^ 63) (o : Int64) :
    (b.getMessage key o w).2 = w ∧ MessageOf (st key) o (b.getMessage key o w).1 := by
  have hm := h.mirrors
  unfold Broker.getMessage ConfigManager.get
  cases he : st key with
  | none =>
      rw [(hm.absent key he).2]
      exact ⟨rfl, _, rfl⟩
  | some e =>
      obtain ⟨p, cfg, hp, hlog, hcfg, hinfo⟩ := hm.present key e he
      obtain ⟨cs, hrep, -, haddr, hold⟩ := hlog.chunks
      have hcommit := toInt_commit (hlen e he)
      have holdest := hrep.oldest
      have hle := hrep.firstBase_le
      rw [hcfg]
      dsimp only
      rw [hinfo.info]
      split_ifs with hlt
      · rw [Int64.lt_iff_toInt_lt, hcommit] at hlt
        refine ⟨rfl, ⟨?_, ?_, ?_⟩⟩
        · exact iff_of_true ⟨_, rfl⟩ (by omega)
        · refine iff_of_false (by simp [Utils.err]) (by omega)
        · intro hok
          cases hok
      · rw [Int64.lt_iff_toInt_lt, hcommit] at hlt
        rw [hp]
        dsimp only
        by_cases hin : (e.oldest : ℤ) ≤ o.toInt
        · obtain ⟨k, hk⟩ : ∃ k : ℕ, o.toInt = k := ⟨_, (Int.toNat_of_nonneg (by omega)).symm⟩
          obtain ⟨m, hget⟩ : ∃ m, e.log[k]? = some m := ⟨_, List.getElem?_eq_getElem (by omega)⟩
          have hread := readAt_ok hm.calm hrep haddr hget (by omega)
          rw [hk, hread]
          refine ⟨rfl, ⟨?_, ?_, ?_⟩⟩
          · refine iff_of_false ?_ (by omega)
            rintro ⟨msg, hmsg⟩
            cases hmsg
          · exact iff_of_true rfl (by omega)
          · intro _
            rw [hk, Int.toNat_natCast, hget]
        · obtain ⟨msg, hread⟩ := readAt_dropped (w := w) hrep (o := o.toInt) (by omega)
          rw [hread]
          refine ⟨rfl, ⟨?_, ?_, ?_⟩⟩
          · refine iff_of_false ?_ (by omega)
            rintro ⟨msg', hmsg⟩
            cases hmsg
          · refine iff_of_false (by simp [Utils.err]) (by omega)
          · intro hok
            cases hok

theorem Serves.getOffsets (h : Serves r B b w st)
    (hlen : ∀ e, st key = some e → e.log.length < 2 ^ 63) :
    OffsetsOf (st key) (b.getOffsets key) := by
  have hm := h.mirrors
  unfold Broker.getOffsets ConfigManager.get
  cases he : st key with
  | none =>
      rw [(hm.absent key he).1]
      exact ⟨_, rfl⟩
  | some e =>
      obtain ⟨p, cfg, hp, hlog, hcfg, hinfo⟩ := hm.present key e he
      obtain ⟨cs, hrep, -, -, hold⟩ := hlog.chunks
      rw [hp, hcfg]
      dsimp only
      rw [hinfo.info, toInt_commit (hlen e he), hrep.oldest, newestOffset_eq hrep, ← hold]
      rfl

theorem Serves.tick (h : Serves r B b w st) (seconds : ℕ) :
    Serves r B b { w with now := w.now + seconds } st := by
  have hm := h.mirrors
  have hagree : ∀ dir, Agree dir w { w with now := w.now + seconds } := fun dir =>
    ⟨fun _ _ => rfl, fun _ _ => rfl, fun _ _ _ _ => rfl, by simp⟩
  refine ⟨h.basePath, h.confPath, hm.calm, hm.atBase, hm.atConf, hm.decodable, ?_, hm.absent, ?_⟩
  · intro key e he
    obtain ⟨p, cfg, hp, hlog, hcfg, hinfo⟩ := hm.present key e he
    exact ⟨p, cfg, hp, hlog.agree (hagree _), hcfg, hinfo.of_fs rfl⟩
  · exact hm.only.agree rfl hagree

/-! ## Runs -/

/-- The number of messages in a run. -/
def sends : List Request → ℕ
  | [] => 0
  | .sendMessage _ _ :: requests => sends requests + 1
  | .tick _ :: requests | .createPartition _ :: requests | .deletePartition _ :: requests
  | .deleteTopic _ :: requests | .getMessage _ _ :: requests | .getOffsets _ :: requests
  | .restart _ :: requests => sends requests

/-- The keys that are created have names, and segment sizes at which records can be addressed; every
payload has a length the interface can express. -/
def Request.Proper : Request → Prop
  | .createPartition request => request.key.Decodable ∧ 0 ≤ request.maxSegmentSize.toInt ∧
      request.maxSegmentSize.toInt < 2 ^ 31
  | .sendMessage _ m => m.length < 2 ^ 31
  | _ => True

/-- What clients know of a run: the messages sent to each key since it was created. -/
abbrev History := TopicPartition → Option (List Payload)

def History.next (h : History) : Request × Response → History
  | (.createPartition request, .created (.ok _)) => Function.update h request.key (some [])
  | (.deletePartition key, .deleted (.ok _)) => Function.update h key none
  | (.deleteTopic topic, .deleted (.ok _)) =>
    fun key => if key.topic = topic then none else h key
  | (.sendMessage key m, .sent ⟨.ok _, _⟩) =>
    Function.update h key ((h key).map (fun msgs => msgs ++ [m]))
  | _ => h

/-- Every message to a key that exists was acknowledged. -/
def Acks (h : History) : List (Request × Response) → Prop
  | [] => True
  | (request, response) :: es =>
    (∀ key m res, request = .sendMessage key m → response = .sent res → h key ≠ none →
      res.error = .ok ()) ∧ Acks (h.next (request, response)) es

def Store.logs (st : Store) : History := fun key => (st key).map (fun e => e.log)

theorem Store.logs_some (he : st key = some e) : st.logs key = some e.log := by
  rw [Store.logs, he]
  rfl

theorem Store.logs_update (st : Store) (key : TopicPartition) (v : Option Entry) :
    Store.logs (Function.update st key v) =
      Function.update st.logs key (v.map (fun e => e.log)) := by
  funext k
  by_cases hk : k = key
  · subst hk
    simp [Store.logs]
  · simp [Store.logs, hk]

theorem StoreNext.logs {st' : Store} {request : Request} {response : Response}
    (h : StoreNext st request response st') : st'.logs = st.logs.next (request, response) := by
  cases h with
  | tick => rfl
  | create => exact Store.logs_update _ _ _
  | createAgain => rfl
  | delete => exact Store.logs_update _ _ _
  | deleteUnknown => rfl
  | deleteTopic =>
      funext key
      simp only [Store.logs, Store.without, History.next]
      split_ifs <;> rfl
  | send he =>
      rw [Store.logs_update, History.next]
      congr 1
      rw [Store.logs, he]
      rfl
  | sendUnknown => rfl
  | getMessage => rfl
  | getOffsets => rfl
  | restart hages =>
      funext key
      show (st' key).map _ = (st key).map _
      have ha := hages key
      generalize st key = v at ha ⊢
      generalize st' key = v' at ha ⊢
      cases ha <;> rfl

/-- The steps to come are of a run that the map accounts for. -/
structure Accountable (st : Store) (es : List (Request × Response)) : Prop where
  proper : ∀ request ∈ es.map Prod.fst, request.Proper
  acknowledged : Acks st.logs es
  count : ∀ key e, st key = some e → e.log.length + sends (es.map Prod.fst) < 2 ^ 63
  total : sends (es.map Prod.fst) < 2 ^ 63

/-- The broker serves the logs of the map, at segment sizes whose records can be addressed. -/
structure Follows (r : RawPath) (B : Path) (srv : Server) (st : Store) : Prop where
  serves : Serves r B srv.broker srv.world st
  sizes : ∀ key e, st key = some e → 0 ≤ e.maxSegmentSize.toInt ∧ e.maxSegmentSize.toInt < 2 ^ 31

theorem sends_cons (request : Request) (requests : List Request) :
    sends (request :: requests) = sends [request] + sends requests := by
  cases request <;> simp [sends, Nat.add_comm]

theorem sends_singleton_le (request : Request) : sends [request] ≤ 1 := by
  cases request <;> simp [sends]

namespace Accountable

variable {request : Request} {response : Response} {es : List (Request × Response)} {st' : Store}

theorem short (h : Accountable st es) {key : TopicPartition} (he : st key = some e) :
    e.log.length < 2 ^ 63 := by
  have := h.count key e he
  omega

theorem room (h : Accountable st ((request, response) :: es)) {key : TopicPartition}
    (he : st key = some e) : e.log.length + sends [request] < 2 ^ 63 := by
  have := h.count key e he
  rw [List.map_cons, sends_cons] at this
  dsimp only at this
  omega

theorem tail (h : Accountable st ((request, response) :: es))
    (hn : StoreNext st request response st')
    (hcount : ∀ key e, st' key = some e → e.log.length + sends (es.map Prod.fst) < 2 ^ 63) :
    Accountable st' es where
  proper x hx := h.proper x (List.mem_cons_of_mem _ hx)
  acknowledged := by
    rw [hn.logs]
    exact h.acknowledged.2
  count := hcount
  total := by
    have := h.total
    rw [List.map_cons, sends_cons] at this
    omega

end Accountable

/-- A message that is acknowledged finds its partition ready. -/
theorem Serves.ready_of_ok (h : Serves r B b w st) (he : st key = some e)
    (h0 : 0 ≤ e.maxSegmentSize.toInt) (h1 : e.maxSegmentSize.toInt < 2 ^ 31) {m : Payload}
    (hm : m.length < 2 ^ 31) (hok : (b.sendMessage key m w).1.error = .ok ()) {p : Partition}
    (hp : b.topics.lookup key = some p) : p.Ready := by
  obtain ⟨p', cfg, hp', hlog, -⟩ := h.mirrors.present key e he
  obtain rfl := Option.some.inj (hp.symm.trans hp')
  obtain ⟨cs, hrep, -⟩ := hlog.chunks
  have hsize : p.maxSegmentSize = e.maxSegmentSize.toInt :=
    congrArg (fun x => x.2.1) hlog.settings
  cases hwrite : p.write m w with
  | mk res rest =>
      obtain ⟨p₁, w₁⟩ := rest
      cases res with
      | ok n =>
          exact MyKafka.ready_of_ok h.mirrors.calm hrep (hsize ▸ h0) (hsize ▸ h1) hm hwrite
      | error err =>
          unfold Broker.sendMessage at hok
          rw [hp] at hok
          dsimp only at hok
          rw [hwrite] at hok
          cases hok

theorem Store.of_update {v : Option Entry} {key' : TopicPartition}
    (h : Function.update st key v key' = some e) : v = some e ∨ st key' = some e := by
  by_cases hk : key' = key
  · subst hk
    rw [Function.update_self] at h
    exact Or.inl h
  · rw [Function.update_of_ne hk] at h
    exact Or.inr h

/-- What a request needs in order to be served: a key that is there or whose name can be read back,
and a partition with room. -/
def Request.Servable (b : Broker) : Request → Prop
  | .createPartition request => request.key ∈ b.topics ∨ request.key.Decodable
  | .sendMessage key m => m.length < 2 ^ 31 ∧ ∀ p, b.topics.lookup key = some p → p.Ready
  | _ => True

theorem Serves.step (h : Serves r B b w st) {request : Request} (hreq : request.Servable b)
    (hroom : ∀ key e, st key = some e → e.log.length + sends [request] < 2 ^ 63) :
    ∃ st', StoreNext st request (Server.step ⟨b, w⟩ request).1 st' ∧
      Serves r B (Server.step ⟨b, w⟩ request).2.broker (Server.step ⟨b, w⟩ request).2.world st' := by
  have hshort : ∀ key e, st key = some e → e.log.length < 2 ^ 63 :=
    fun key e he => (Nat.le_add_right _ _).trans_lt (hroom key e he)
  cases request with
  | tick seconds => exact ⟨st, .tick st seconds, h.tick seconds⟩
  | createPartition request =>
      by_cases hkey : st request.key = none
      · have hdec := hreq.resolve_left (h.topics_none hkey)
        obtain ⟨b', w', hcreate, -, h'⟩ := h.create request rfl hdec hkey
        simp only [Server.step, hcreate]
        exact ⟨_, .create hkey, h'⟩
      · obtain ⟨err, hcreate⟩ := h.createPartition_again request hkey
        simp only [Server.step, hcreate]
        exact ⟨st, .createAgain hkey, h⟩
  | deletePartition key =>
      cases hkey : st key with
      | none =>
          simp only [Server.step, h.deletePartition_unknown hkey]
          exact ⟨st, .deleteUnknown hkey, h⟩
      | some e =>
          obtain ⟨b', w', hdelete, -, h'⟩ := h.deletePartition hkey
          simp only [Server.step, hdelete]
          exact ⟨_, .delete (by simp [hkey]), h'⟩
  | deleteTopic topic =>
      obtain ⟨b', w', hdelete, -, h'⟩ := h.deleteTopic topic
      simp only [Server.step, hdelete]
      exact ⟨_, .deleteTopic st topic, h'⟩
  | sendMessage key m =>
      cases hkey : st key with
      | none =>
          simp only [Server.step, h.sendMessage_unknown hkey m]
          exact ⟨st, .sendUnknown hkey, h⟩
      | some e =>
          obtain ⟨n, b', w', hsend, hle, hn, -, h'⟩ := h.sendMessage hkey hreq.2 hreq.1
            (hroom key e hkey)
          simp only [Server.step, hsend]
          exact ⟨_, .send hkey hle hn, h'⟩
  | getMessage key o =>
      obtain ⟨hsame, hmsg⟩ := h.getMessage (fun e he => hshort key e he) o
      simp only [Server.step, hsame]
      exact ⟨st, .getMessage hmsg, h⟩
  | getOffsets key =>
      exact ⟨st, .getOffsets (h.getOffsets (fun e he => hshort key e he)), h⟩
  | restart closing =>
      obtain ⟨b', w', st', hrestart, hages, h', -⟩ := h.restart hshort closing
      simp only [Server.step, hrestart]
      exact ⟨st', .restart hages, h'⟩

namespace StoreNext

variable {st' : Store} {request : Request} {response : Response}

theorem origin (h : StoreNext st request response st') {key : TopicPartition} {e' : Entry}
    (he' : st' key = some e') :
    (∃ creation, request = .createPartition creation ∧ e' = .fresh creation.maxSegmentSize
      creation.maxPartitionSize creation.segmentTtl) ∨
    ∃ e, st key = some e ∧ e'.maxSegmentSize = e.maxSegmentSize ∧
      (e'.log = e.log ∨ ∃ m, request = .sendMessage key m ∧ e'.log = e.log ++ [m]) := by
  cases h with
  | tick | createAgain | deleteUnknown | sendUnknown | getMessage | getOffsets =>
      exact Or.inr ⟨e', he', rfl, Or.inl rfl⟩
  | create hnone =>
      rcases Store.of_update he' with he' | he'
      · exact Or.inl ⟨_, rfl, (Option.some.inj he').symm⟩
      · exact Or.inr ⟨e', he', rfl, Or.inl rfl⟩
  | delete =>
      exact Or.inr ⟨e', (Store.of_update he').resolve_left (by simp), rfl, Or.inl rfl⟩
  | deleteTopic =>
      rw [Store.without] at he'
      split_ifs at he'
      exact Or.inr ⟨e', he', rfl, Or.inl rfl⟩
  | @send key₁ e m n he =>
      by_cases hk : key = key₁
      · subst hk
        rw [Function.update_self] at he'
        obtain rfl := Option.some.inj he'
        exact Or.inr ⟨e, he, rfl, Or.inr ⟨m, rfl, rfl⟩⟩
      · rw [Function.update_of_ne hk] at he'
        exact Or.inr ⟨e', he', rfl, Or.inl rfl⟩
  | restart hages =>
      have ha := hages key
      rw [he'] at ha
      generalize hv : st key = v at ha
      cases ha with
      | present => exact Or.inr ⟨_, rfl, rfl, Or.inl rfl⟩

/-- The logs grow with the messages that are sent only. -/
theorem count {n m : ℕ} (h : StoreNext st request response st') (hle : sends [request] + n ≤ m)
    (hm : m < 2 ^ 63) (hcount : ∀ key e, st key = some e → e.log.length + m < 2 ^ 63) :
    ∀ key e, st' key = some e → e.log.length + n < 2 ^ 63 := by
  intro key e' he'
  rcases h.origin he' with ⟨creation, -, rfl⟩ | ⟨e, he, -, hlog | ⟨m, rfl, hlog⟩⟩
  · simp only [Entry.fresh, List.length_nil]
    omega
  · have := hcount key e he
    rw [hlog]
    omega
  · have := hcount key e he
    simp only [sends] at hle
    rw [hlog, List.length_append, List.length_singleton]
    omega

end StoreNext

theorem Follows.simulates (r : RawPath) (B : Path) :
    Runs.Simulates Server.step StoreNext Accountable (Follows r B) := by
  rintro ⟨b, w⟩ st request es ⟨hserves, hsizes⟩ hacc
  have hproper := hacc.proper request (by simp)
  have hreq : request.Servable b := by
    cases request with
    | createPartition request => exact Or.inr hproper.1
    | sendMessage key m =>
        refine ⟨hproper, fun p hp => ?_⟩
        have hne : st key ≠ none := by
          intro hnone
          rw [(hserves.mirrors.absent key hnone).1] at hp
          cases hp
        obtain ⟨e, he⟩ := Option.ne_none_iff_exists'.mp hne
        obtain ⟨h0, h1⟩ := hsizes key e he
        exact hserves.ready_of_ok he h0 h1 hproper
          (hacc.acknowledged.1 key m _ rfl rfl (by simp [Store.logs, he])) hp
    | _ => trivial
  obtain ⟨st', hn, hserves'⟩ := hserves.step hreq (fun key e he => hacc.room he)
  refine ⟨st', hn, ⟨hserves', ?_⟩, hacc.tail hn (hn.count (sends_cons request _).ge hacc.total hacc.count)⟩
  intro key e' he'
  rcases hn.origin he' with ⟨creation, rfl, rfl⟩ | ⟨e, he, hsize, -⟩
  · exact hproper.2
  · rw [hsize]
    exact hsizes key e he

/-- A base directory with nothing in it, and calls that are served. -/
structure Bare (w : World) (r : RawPath) (B : Path) : Prop where
  calm : w.Calm
  atBase : FileSystem.At w.fs r B
  empty : ∀ q, Under B q → q ≠ B → w.fs.node? q = none

theorem Bare.blank (now : ℤ) : Bare (World.blank now) ⟨[], []⟩ [] where
  calm := rfl
  atBase := ⟨by simp, rfl, rfl, rfl⟩
  empty q _ hq := by
    rw [FileSystem.node?, if_neg hq]
    rfl

theorem plain_configName : PlainName Broker.configName := by
  refine ⟨?_, ?_, ?_⟩ <;> decide

namespace Bare

/-- The first start makes the directory of the config files. -/
theorem boot_eq (h : Bare w r B) (order : KeyOrder) :
    Server.boot r order w = ⟨⟨r, ∅, ⟨r.child Broker.configName, ∅, order⟩, order⟩,
      { w with fs := w.fs.mkdir (confDir B) }⟩ := by
  have hfree : w.fs.node? (B ++ [Broker.configName]) = none :=
    h.empty _ (List.prefix_append _ _) (by simp)
  rw [Server.boot, Broker.new, ConfigManager.new,
    World.createDirectories_child h.calm h.atBase plain_configName hfree]
  rfl

theorem node_boot (h : Bare w r B) (order : KeyOrder) {q : Path} (hq : q ≠ confDir B) :
    (Server.boot r order w).world.fs.node? q = w.fs.node? q := by
  rw [h.boot_eq]
  exact (FileSystem.node?_mkdir _ (by simp [confDir]) q).trans (if_neg hq)

theorem at_boot (h : Bare w r B) (order : KeyOrder) :
    FileSystem.At (Server.boot r order w).world.fs r B ∧
      FileSystem.At (Server.boot r order w).world.fs (r.child Broker.configName) (confDir B) := by
  have hat : FileSystem.At (Server.boot r order w).world.fs r B := by
    refine h.atBase.frame (fun q hq => h.node_boot order ?_)
    rintro rfl
    have := hq.length_le
    simp [confDir] at this
  refine ⟨hat, hat.below plain_configName ?_⟩
  rw [h.boot_eq]
  exact (FileSystem.node?_mkdir _ (by simp [confDir]) _).trans (if_pos rfl)

theorem vacant (h : Bare w r B) (order : KeyOrder) {q : Path} (hq : Under B q) (hB : q ≠ B)
    (hconf : q ≠ confDir B) : (Server.boot r order w).world.fs.node? q = none :=
  (h.node_boot order hconf).trans (h.empty q hq hB)

theorem boot (h : Bare w r B) (order : KeyOrder) :
    Serves r B (Server.boot r order w).broker (Server.boot r order w).world (fun _ => none) := by
  have hat := h.at_boot order
  have hvacant : ∀ {q}, Under B q → q ≠ B → q ≠ confDir B → _ := h.vacant order
  rw [h.boot_eq] at hat hvacant ⊢
  refine ⟨rfl, rfl, h.calm, hat.1, hat.2, ?_, ?_, ?_, ?_⟩
  · intro key e he
    cases he
  · intro key e he
    cases he
  · exact fun key _ => ⟨AList.lookup_empty key, AList.lookup_empty key⟩
  · intro q hq hB hconf hq'
    exact absurd (hvacant hq hB hconf) hq'

end Bare

/-- Along a trace the map holds the messages its clients know of. -/
theorem Store.logs_trace {st' : Store} {es : List (Request × Response)}
    (h : Runs.Trace StoreNext st es st') : st'.logs = es.foldl History.next st.logs := by
  induction h with
  | nil => rfl
  | cons hn _ ih => rw [ih, hn.logs, List.foldl_cons]

/-- From an empty base directory a broker refines the map of logs over every run whose messages are
acknowledged, and shows its clients what those logs hold. -/
theorem runs_refine_map {order : KeyOrder} {requests : List Request} (h : Bare w r B)
    (hproper : ∀ request ∈ requests, request.Proper) (hcount : sends requests < 2 ^ 63)
    (hack : Acks (fun _ => none) (Runs.trace Server.step (Server.boot r order w) requests)) :
    let es := Runs.trace Server.step (Server.boot r order w) requests
    let srv := Runs.final Server.step (Server.boot r order w) requests
    ∃ st, Runs.Trace StoreNext (fun _ => none) es st ∧
      st.logs = es.foldl History.next (fun _ => none) ∧
      ∀ key, (∀ o, MessageOf (st key) o (srv.broker.getMessage key o srv.world).1) ∧
        OffsetsOf (st key) (srv.broker.getOffsets key) := by
  intro es srv
  have hfst : es.map Prod.fst = requests := Runs.map_fst_trace _ _
  have hfollows : Follows r B (Server.boot r order w) (fun _ => none) :=
    ⟨h.boot order, fun _ _ he => (by cases he)⟩
  have hacc : Accountable (fun _ => none) es :=
    ⟨by rwa [hfst], hack, fun _ _ he => (by cases he), by rwa [hfst]⟩
  obtain ⟨st, htrace, hfinal, hend⟩ := (Follows.simulates r B).trace hfollows hacc
  refine ⟨st, htrace, Store.logs_trace htrace, fun key => ⟨fun o => ?_, ?_⟩⟩
  · exact (hfinal.serves.getMessage (fun e he => hend.short he) o).2
  · exact hfinal.serves.getOffsets (fun e he => hend.short he)

theorem runs_refine_map_restart :
    let requests : List Request := [.createPartition ⟨"logs".toList, 2, 100, 0, 0⟩,
      .sendMessage ⟨"logs".toList, 2⟩ [1, 2], .restart true, .sendMessage ⟨"logs".toList, 2⟩ [3]]
    ∃ st, Runs.Trace StoreNext (fun _ => none) (Runs.trace Server.step
        (Server.boot ⟨[], []⟩ ⟨id, fun _ => .refl _⟩ (World.blank 0)) requests) st ∧
      st.logs ⟨"logs".toList, 2⟩ = some [[1, 2], [3]] := by
  intro requests
  have hproper : ∀ request ∈ requests, request.Proper := by
    simp only [requests, List.forall_mem_cons]
    refine ⟨⟨⟨⟨by decide, by decide⟩, by decide⟩, by decide, by decide⟩, ?_, trivial, ?_, by simp⟩
    · exact Nat.lt_of_sub_pos (by decide)
    · exact Nat.lt_of_sub_pos (by decide)
  have hack : Acks (fun _ => none) (Runs.trace Server.step
      (Server.boot ⟨[], []⟩ ⟨id, fun _ => .refl _⟩ (World.blank 0)) requests) := by
    refine ⟨?_, ?_, ?_, ?_, trivial⟩
    · rintro _ _ _ ⟨⟩
    · rintro _ _ _ ⟨⟩ ⟨⟩ -
      exact eq_ok_of_isOk (by decide +kernel)
    · rintro _ _ _ ⟨⟩
    · rintro _ _ _ ⟨⟩ ⟨⟩ -
      exact eq_ok_of_isOk (by decide +kernel)
  obtain ⟨st, htrace, hlogs, -⟩ := runs_refine_map (Bare.blank 0) hproper (by decide) hack
  refine ⟨st, htrace, ?_⟩
  rw [hlogs]
  decide +kernel

end MyKafka
