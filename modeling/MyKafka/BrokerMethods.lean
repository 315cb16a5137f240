import MyKafka.BrokerInfo
import MyKafka.BrokerRun
import MyKafka.ConfigFrame
import MyKafka.Monitor
import MyKafka.OffsetsSnapshot
import MyKafka.RpcServer

/-!
# The methods of the broker, call by call

The methods take the mutex of the broker, `getOffsets` and `getTopicInfo` as readers, and call
partitions and the config store one after the other. `getOffsets` asks the config store after it has
released the mutex. A method that runs alone is the function of `Broker`.
-/

namespace MyKafka

open Posix Monitor

/-- The `request_` of a service object. -/
inductive ServiceRequest where
  | sendMessage (key : TopicPartition) (payload : Payload)
  | getMessage (key : TopicPartition) (offset : Int64)
  | getOffsets (key : TopicPartition)
  | brokerInfo
  | createPartition (request : TopicPartitionRequest)
  | deletePartition (key : TopicPartition)
  | deleteTopic (topic : Str)
  deriving DecidableEq

inductive ServiceResponse where
  | sent (response : SendMessageResponse)
  | message (response : GetMessageResponse)
  | offsets (response : GetOffsetsResponse)
  | info (response : BrokerInfoResponse)
  | created (res : Result Unit)
  | deleted (res : Result Unit)

def ServiceRequest.kind : ServiceRequest → ServiceKind
  | .sendMessage _ _ => .sendMessage
  | .getMessage _ _ => .getMessage
  | .getOffsets _ => .getOffsets
  | .brokerInfo => .brokerInfo
  | .createPartition _ => .createPartition
  | .deletePartition _ => .deletePartition
  | .deleteTopic _ => .deleteTopic

/-- What enters the broker: a request, or some seconds of the clock. -/
inductive BrokerCall where
  | request (request : ServiceRequest)
  | tick (seconds : ℕ)

/-- What a method has when it releases the mutex. -/
inductive CallResult where
  | response (response : ServiceResponse)
  | range (key : TopicPartition) (range : Result (ℤ × ℤ))
  | ticked

namespace BrokerMethod

/-- The return with a response. -/
def respond (response : ServiceResponse) : Body Server CallResult := .ret (.response response)

def sendMessage (key : TopicPartition) (payload : Payload) : Body Server CallResult :=
  .sub fun srv =>
    match srv.broker.topics.lookup key with
    | none => (respond (.sent ⟨Broker.unknownTopic key, 0⟩), srv)
    | some partition =>
      match partition.write payload srv.world with
      | (.error e, p, w) =>
        (respond (.sent ⟨.error e, 0⟩),
          ⟨{ srv.broker with topics := srv.broker.topics.replace key p }, w⟩)
      | (.ok offset, p, w) =>
        (.sub fun srv =>
            match srv.broker.configManager.updateCommitOffset key (.ofInt offset) srv.world with
            | (res, c, w) =>
              (respond (.sent ⟨res, offset⟩), ⟨{ srv.broker with configManager := c }, w⟩),
          ⟨{ srv.broker with topics := srv.broker.topics.replace key p }, w⟩)

def getMessage (key : TopicPartition) (offset : Int64) : Body Server CallResult :=
  .sub fun srv =>
    match srv.broker.configManager.get key with
    | .error e => (respond (.message ⟨.error e, []⟩), srv)
    | .ok info =>
      if info.commitOffset < offset then
        (respond (.message ⟨Utils.err .noMessage "No more messages available!", []⟩), srv)
      else
        (.sub fun srv =>
            match srv.broker.topics.lookup key with
            | none => (respond (.message ⟨Broker.unknownTopic key, []⟩), srv)
            | some partition =>
              match partition.readAt offset.toInt srv.world with
              | (res, payload, w) => (respond (.message ⟨res, payload⟩), { srv with world := w }),
          srv)

def getOffsets (key : TopicPartition) : Body Server CallResult :=
  .sub fun srv => (.ret (.range key (srv.broker.offsetRange key)), srv)

def getTopicInfo : Body Server CallResult :=
  .sub fun srv =>
    let topics := srv.broker.dumpTopics ++ Broker.configTitle
    (.sub fun srv => (respond (.info ⟨.ok (), topics ++ srv.broker.configManager.dump⟩), srv), srv)

def createPartition (request : TopicPartitionRequest) : Body Server CallResult :=
  let key : TopicPartition := ⟨request.topic, request.partition⟩
  .sub fun srv =>
    if key ∈ srv.broker.topics then
      (respond (.created (Utils.err .topicError
        ("The topic/partition " ++ Broker.keyText key ++ " already exists!"))), srv)
    else
      match srv.broker.createAndAddNewPartition key request.maxSegmentSize request.maxPartitionSize
          request.segmentTtl srv.world with
      | (.error e, b, w) => (respond (.created (.error e)), ⟨b, w⟩)
      | (.ok _, b, w) =>
        (.sub fun srv =>
            match srv.broker.configManager.create key request.maxSegmentSize
                request.maxPartitionSize request.segmentTtl srv.world with
            | (res, c, w) =>
              (respond (.created res), ⟨{ srv.broker with configManager := c }, w⟩),
          ⟨b, w⟩)

/-- `ConfigManager::remove`, which holds the mutex of the store only while it closes the file; then
`next` is done. -/
def remove (key : TopicPartition) (next : Body Server CallResult) : Body Server CallResult :=
  .sub fun srv =>
    match srv.broker.configManager.closeKey key srv.world with
    | (.error e, c, w) =>
      (respond (.deleted (.error e)), ⟨{ srv.broker with configManager := c }, w⟩)
    | (.ok _, c, w) =>
      (.sub fun srv =>
          (next, { srv with world := srv.world.remove (srv.broker.configManager.path key) }),
        ⟨{ srv.broker with configManager := c }, w⟩)

def deletePartition (key : TopicPartition) : Body Server CallResult :=
  .sub fun srv =>
    match srv.broker.topics.lookup key with
    | none => (respond (.deleted (Broker.unknownTopic key)), srv)
    | some partition =>
      match partition.deletePartition srv.world with
      | (.error e, p, w) =>
        (respond (.deleted (.error e)),
          ⟨{ srv.broker with topics := srv.broker.topics.replace key p }, w⟩)
      | (.ok _, _, w) =>
        (remove key (respond (.deleted (.ok ()))),
          ⟨{ srv.broker with topics := srv.broker.topics.erase key }, w⟩)

/-- The loop of `deleteTopic`, and then `next`. -/
def deleteEntries (next : Body Server CallResult) : List TopicPartition → Body Server CallResult
  | [] => next
  | key :: keys =>
    .sub fun srv =>
      match srv.broker.topics.lookup key with
      | none => (deleteEntries next keys, srv)
      | some partition =>
        match partition.deletePartition srv.world with
        | (.error e, p, w) =>
          (respond (.deleted (.error e)),
            ⟨{ srv.broker with topics := srv.broker.topics.replace key p }, w⟩)
        | (.ok _, p, w) =>
          (remove key (deleteEntries next keys),
            ⟨{ srv.broker with topics := srv.broker.topics.replace key p }, w⟩)

def deleteTopic (topic : Str) : Body Server CallResult :=
  .sub fun srv =>
    let deleteList := srv.broker.keys.filter (fun key => key.topic = topic)
    (deleteEntries (.sub fun srv => (respond (.deleted (.ok ())),
        { srv with broker := Broker.eraseTopics deleteList srv.broker })) deleteList, srv)

def tick (seconds : ℕ) : Body Server CallResult :=
  .sub fun srv => (.ret .ticked, { srv with world := { srv.world with now := srv.world.now + seconds } })

/-- The part of a method after the mutex. -/
def reply : CallResult → Server → CallResult
  | .range key range, srv => .response (.offsets (srv.broker.commitOffset key range))
  | res, _ => res

end BrokerMethod

def ServiceRequest.body : ServiceRequest → Body Server CallResult
  | .sendMessage key payload => BrokerMethod.sendMessage key payload
  | .getMessage key offset => BrokerMethod.getMessage key offset
  | .getOffsets key => BrokerMethod.getOffsets key
  | .brokerInfo => BrokerMethod.getTopicInfo
  | .createPartition request => BrokerMethod.createPartition request
  | .deletePartition key => BrokerMethod.deletePartition key
  | .deleteTopic topic => BrokerMethod.deleteTopic topic

/-- Whether the method takes a `shared_lock` only. -/
def ServiceRequest.shared : ServiceRequest → Bool
  | .getOffsets _ | .brokerInfo => true
  | _ => false

def brokerMethod : BrokerCall → Method Server CallResult CallResult
  | .request request => ⟨!request.shared, request.body, BrokerMethod.reply⟩
  | .tick seconds => ⟨true, BrokerMethod.tick seconds, BrokerMethod.reply⟩

/-! ## A method on its own -/

/-- The request of the sequential server, which has none for `BrokerInfo`. -/
def BrokerCall.request? : BrokerCall → Option Request
  | .request (.sendMessage key payload) => some (.sendMessage key payload)
  | .request (.getMessage key offset) => some (.getMessage key offset)
  | .request (.getOffsets key) => some (.getOffsets key)
  | .request .brokerInfo => none
  | .request (.createPartition creation) => some (.createPartition creation)
  | .request (.deletePartition key) => some (.deletePartition key)
  | .request (.deleteTopic topic) => some (.deleteTopic topic)
  | .tick seconds => some (.tick seconds)

/-- The response of a server to a request; `later` is the server in the second half of
`getOffsets`. -/
def Server.respond (srv later : Server) : ServiceRequest → ServiceResponse
  | .sendMessage key payload => .sent (srv.broker.sendMessage key payload srv.world).1
  | .getMessage key offset => .message (srv.broker.getMessage key offset srv.world).1
  | .getOffsets key => .offsets (later.broker.commitOffset key (srv.broker.offsetRange key))
  | .brokerInfo => .info srv.broker.getTopicInfo
  | .createPartition request => .created (srv.broker.createPartition request srv.world).1
  | .deletePartition key => .deleted (srv.broker.deletePartition key srv.world).1
  | .deleteTopic topic => .deleted (srv.broker.deleteTopic topic srv.world).1

/-- The server after a call. -/
def Server.serve (srv : Server) (x : BrokerCall) : Server :=
  match x.request? with
  | none => srv
  | some request => (srv.step request).2

namespace BrokerMethod

variable {key : TopicPartition} {srv : Server} {next : Body Server CallResult}

theorem run_sendMessage (key : TopicPartition) (payload : Payload) (srv : Server) :
    (sendMessage key payload).run srv =
      (.response (srv.respond srv (.sendMessage key payload)),
        (srv.step (.sendMessage key payload)).2) := by
  simp only [sendMessage, Body.run_sub, Server.respond, Server.step, Broker.sendMessage]
  cases srv.broker.topics.lookup key with
  | none => rfl
  | some partition =>
      dsimp only
      rcases partition.write payload srv.world with ⟨e | offset, p, w⟩ <;> rfl

theorem run_getMessage (key : TopicPartition) (offset : Int64) (srv : Server) :
    (getMessage key offset).run srv =
      (.response (srv.respond srv (.getMessage key offset)),
        (srv.step (.getMessage key offset)).2) := by
  simp only [getMessage, Body.run_sub, Server.respond, Server.step, Broker.getMessage]
  cases srv.broker.configManager.get key with
  | error e => rfl
  | ok info =>
      dsimp only
      split_ifs
      · rfl
      · rw [Body.run_sub]
        cases srv.broker.topics.lookup key <;> rfl

theorem run_createPartition (request : TopicPartitionRequest) (srv : Server) :
    (createPartition request).run srv =
      (.response (srv.respond srv (.createPartition request)),
        (srv.step (.createPartition request)).2) := by
  simp only [createPartition, Body.run_sub, Server.respond, Server.step, Broker.createPartition]
  split_ifs
  · rfl
  · rcases srv.broker.createAndAddNewPartition ⟨request.topic, request.partition⟩
        request.maxSegmentSize request.maxPartitionSize request.segmentTtl srv.world with
      ⟨e | _, b, w⟩ <;> rfl

/-- What follows a deletion: the answer to an error, or the rest of the method. -/
def andThen (next : Body Server CallResult) : Result Unit → Server → CallResult × Server
  | .error e, srv => (.response (.deleted (.error e)), srv)
  | .ok _, srv => next.run srv

theorem run_remove (key : TopicPartition) (next : Body Server CallResult) (b : Broker)
    {w w' : World} {res : Result Unit} {c : ConfigManager}
    (hres : b.configManager.remove key w = (res, c, w')) :
    (remove key next).run ⟨b, w⟩ = andThen next res ⟨{ b with configManager := c }, w'⟩ := by
  simp only [ConfigManager.remove] at hres
  simp only [remove, Body.run_sub]
  rcases hclose : b.configManager.closeKey key w with ⟨e | _, c₁, w₁⟩
  · rw [hclose] at hres
    cases hres
    rfl
  · rw [hclose] at hres
    cases hres
    rfl

theorem run_deletePartition (key : TopicPartition) (srv : Server) :
    (deletePartition key).run srv =
      (.response (srv.respond srv (.deletePartition key)),
        (srv.step (.deletePartition key)).2) := by
  simp only [deletePartition, Body.run_sub, Server.respond, Server.step, Broker.deletePartition]
  cases srv.broker.topics.lookup key with
  | none => rfl
  | some partition =>
      dsimp only
      rcases partition.deletePartition srv.world with ⟨e | _, p, w⟩
      · rfl
      · dsimp only
        rcases hres : srv.broker.configManager.remove key w with ⟨res, c, w'⟩
        rw [run_remove key _ { srv.broker with topics := srv.broker.topics.erase key } hres]
        cases res <;> rfl

theorem run_deleteEntries (next : Body Server CallResult) (keys : List TopicPartition)
    (srv : Server) {res : Result Unit} {b : Broker} {w : World}
    (hres : Broker.deleteEntries keys srv.broker srv.world = (res, b, w)) :
    (deleteEntries next keys).run srv = andThen next res ⟨b, w⟩ := by
  induction keys generalizing srv with
  | nil =>
      cases hres
      rfl
  | cons key keys ih =>
      simp only [Broker.deleteEntries] at hres
      simp only [deleteEntries, Body.run_sub]
      cases hp : srv.broker.topics.lookup key with
      | none =>
          rw [hp] at hres
          exact ih srv hres
      | some partition =>
          rw [hp] at hres
          dsimp only at hres ⊢
          rcases hdel : partition.deletePartition srv.world with ⟨e | _, p, w₁⟩
          · rw [hdel] at hres
            cases hres
            rfl
          · rw [hdel] at hres
            dsimp only at hres ⊢
            rcases hrem : srv.broker.configManager.remove key w₁ with ⟨e | _, c, w₂⟩
            · rw [hrem] at hres
              cases hres
              exact run_remove key _ { srv.broker with topics := srv.broker.topics.replace key p } hrem
            · rw [hrem] at hres
              rw [run_remove key _ { srv.broker with topics := srv.broker.topics.replace key p } hrem]
              exact ih _ hres

theorem run_deleteTopic (topic : Str) (srv : Server) :
    (deleteTopic topic).run srv =
      (.response (srv.respond srv (.deleteTopic topic)), (srv.step (.deleteTopic topic)).2) := by
  simp only [deleteTopic, Body.run_sub, Server.respond, Server.step, Broker.deleteTopic]
  rcases hres : Broker.deleteEntries (srv.broker.keys.filter fun key => key.topic = topic)
    srv.broker srv.world with ⟨res, b, w⟩
  rw [run_deleteEntries _ _ _ hres]
  cases res <;> rfl

end BrokerMethod

open BrokerMethod

theorem atomic_request (srv : Server) (request : ServiceRequest) :
    (atomic brokerMethod srv (.request request)).2 = srv.serve (.request request) ∧
      ∀ later, reply (atomic brokerMethod srv (.request request)).1 later =
        .response (srv.respond later request) := by
  cases request with
  | sendMessage key payload =>
      have hrun := run_sendMessage key payload srv
      exact ⟨congrArg Prod.snd hrun, fun later => congrArg (fun z => reply z.1 later) hrun⟩
  | getMessage key offset =>
      have hrun := run_getMessage key offset srv
      exact ⟨congrArg Prod.snd hrun, fun later => congrArg (fun z => reply z.1 later) hrun⟩
  | getOffsets key => exact ⟨rfl, fun later => rfl⟩
  | brokerInfo => exact ⟨rfl, fun later => rfl⟩
  | createPartition request =>
      have hrun := run_createPartition request srv
      exact ⟨congrArg Prod.snd hrun, fun later => congrArg (fun z => reply z.1 later) hrun⟩
  | deletePartition key =>
      have hrun := run_deletePartition key srv
      exact ⟨congrArg Prod.snd hrun, fun later => congrArg (fun z => reply z.1 later) hrun⟩
  | deleteTopic topic =>
      have hrun := run_deleteTopic topic srv
      exact ⟨congrArg Prod.snd hrun, fun later => congrArg (fun z => reply z.1 later) hrun⟩

theorem atomic_serve (srv : Server) (x : BrokerCall) : (atomic brokerMethod srv x).2 = srv.serve x := by
  cases x with
  | request request => exact (atomic_request srv request).1
  | tick seconds => rfl

/-! ## What is seen of a method at work -/

namespace BrokerMethod

/-- What the second half of `getOffsets` sees in the states of a method: what was there before it, or
what it leaves. -/
def Settles (key : TopicPartition) (body : Body Server CallResult) (srv : Server) : Prop :=
  ∀ t ∈ body.states srv,
    t.broker.configManager.get key = srv.broker.configManager.get key ∨
      t.broker.configManager.get key = (body.run srv).2.broker.configManager.get key

/-- Nothing happens to the config of the key. -/
def Stays (key : TopicPartition) (body : Body Server CallResult) (srv : Server) : Prop :=
  ∀ t ∈ body.states srv, t.broker.configManager.get key = srv.broker.configManager.get key

variable {key key' : TopicPartition} {srv : Server} {body : Body Server CallResult}
  {f : Server → Body Server CallResult × Server}

theorem run_mem_states (body : Body Server CallResult) (srv : Server) :
    (body.run srv).2 ∈ body.states srv := by
  induction body generalizing srv with
  | ret a => exact List.mem_singleton_self _
  | call act rest ih => exact List.mem_cons_of_mem _ (ih srv (act srv))

theorem Settles.ret (key : TopicPartition) (a : CallResult) (srv : Server) :
    Settles key (.ret a) srv := by
  intro t ht
  exact Or.inl (by rw [List.mem_singleton.mp ht])

theorem Stays.ret (key : TopicPartition) (a : CallResult) (srv : Server) :
    Stays key (.ret a) srv := by
  intro t ht
  rw [List.mem_singleton.mp ht]

theorem Settles.sub (hsame : (f srv).2.broker.configManager.get key = srv.broker.configManager.get key)
    (h : Settles key (f srv).1 (f srv).2) : Settles key (.sub f) srv := by
  intro t ht
  rcases List.mem_cons.mp ht with rfl | ht
  · exact Or.inl rfl
  · rcases h t ht with heq | heq
    · exact Or.inl (heq.trans hsame)
    · exact Or.inr heq

theorem Settles.change (h : Stays key (f srv).1 (f srv).2) : Settles key (.sub f) srv := by
  intro t ht
  rcases List.mem_cons.mp ht with rfl | ht
  · exact Or.inl rfl
  · exact Or.inr ((h t ht).trans (h _ (run_mem_states _ _)).symm)

theorem Stays.sub (hsame : (f srv).2.broker.configManager.get key = srv.broker.configManager.get key)
    (h : Stays key (f srv).1 (f srv).2) : Stays key (.sub f) srv := by
  intro t ht
  rcases List.mem_cons.mp ht with rfl | ht
  · rfl
  · exact (h t ht).trans hsame

theorem Stays.settles (h : Stays key body srv) : Settles key body srv := fun t ht => Or.inl (h t ht)

theorem get_congr {c c' : ConfigManager} (h : c'.configs.lookup key = c.configs.lookup key) :
    c'.get key = c.get key := by
  unfold ConfigManager.get
  rw [h]

/-- Closing a file says nothing new of another key, and forgets its own key only when it succeeds. -/
theorem get_closeKey (key key' : TopicPartition) (c : ConfigManager) (w : World) :
    (key ≠ key' → (c.closeKey key' w).2.1.get key = c.get key) ∧
      (∀ e, (c.closeKey key w).1 = .error e → (c.closeKey key w).2.1.get key = c.get key) ∧
      ((c.closeKey key w).1 = .ok () → (c.closeKey key w).2.1.configs.lookup key = none) := by
  refine ⟨fun hne => ?_, fun e he => ?_, fun hok => ?_⟩
  · apply get_congr
    unfold ConfigManager.closeKey
    cases c.configs.lookup key' with
    | none => rfl
    | some found =>
        dsimp only
        rcases c.closeInfo key' found w with ⟨e | _, info, w⟩
        · exact lookup_replace_ne hne _
        · exact AList.lookup_erase_ne hne
  · unfold ConfigManager.closeKey at he ⊢
    cases hfound : c.configs.lookup key with
    | none => rfl
    | some found =>
        rw [hfound] at he
        dsimp only at he ⊢
        have hinfo : (c.closeInfo key found w).2.1.info = found.info := by
          unfold ConfigManager.closeInfo
          rcases w.munmap found.addr with ⟨_ | _, w⟩
          · rfl
          · dsimp only
            rcases w.close found.fd with ⟨_ | _, w⟩ <;> rfl
        rcases hclose : c.closeInfo key found w with ⟨e' | _, info, w'⟩
        · rw [hclose] at hinfo
          simp only [ConfigManager.get, lookup_replace_same (mem_of_lookup hfound), hfound]
          exact congrArg Except.ok hinfo
        · rw [hclose] at he
          cases he
  · unfold ConfigManager.closeKey at hok ⊢
    cases hfound : c.configs.lookup key with
    | none =>
        rw [hfound] at hok
        cases hok
    | some found =>
        rw [hfound] at hok
        dsimp only at hok ⊢
        rcases hclose : c.closeInfo key found w with ⟨e' | _, info, w'⟩
        · rw [hclose] at hok
          cases hok
        · rw [AList.lookup_erase]

theorem lookup_closeKey_none (key' : TopicPartition) (c : ConfigManager) (w : World)
    (h : c.configs.lookup key = none) :
    (c.closeKey key' w).2.1.configs.lookup key = none := by
  unfold ConfigManager.closeKey
  cases hfound : c.configs.lookup key' with
  | none => exact h
  | some found =>
      have hne : key ≠ key' := by
        rintro rfl
        rw [h] at hfound
        cases hfound
      dsimp only
      rcases c.closeInfo key' found w with ⟨e | _, info, w⟩
      · exact (lookup_replace_ne hne _).trans h
      · exact (AList.lookup_erase_ne hne).trans h

theorem get_of_none {c c' : ConfigManager} (h : c.configs.lookup key = none)
    (h' : c'.configs.lookup key = none) : c'.get key = c.get key :=
  get_congr (h'.trans h.symm)

/-- Once the file of the key is closed, deletions of other keys do not bring it back. -/
theorem Stays.remove {next : Body Server CallResult} (hnone : srv.broker.configManager.configs.lookup key = none)
    (hnext : ∀ srv : Server, srv.broker.configManager.configs.lookup key = none → Stays key next srv) :
    Stays key (remove key' next) srv := by
  have hgone := lookup_closeKey_none key' srv.broker.configManager srv.world hnone
  rcases hclose : srv.broker.configManager.closeKey key' srv.world with ⟨e | _, c, w⟩
  · rw [hclose] at hgone
    apply Stays.sub
    · simp only [hclose]
      exact get_of_none hnone hgone
    · simp only [hclose]
      exact Stays.ret _ _ _
  · rw [hclose] at hgone
    apply Stays.sub
    · simp only [hclose]
      exact get_of_none hnone hgone
    · simp only [hclose]
      exact .sub rfl (hnext _ hgone)

theorem Stays.deleteEntries {next : Body Server CallResult}
    (hnext : ∀ srv : Server, srv.broker.configManager.configs.lookup key = none → Stays key next srv)
    (keys : List TopicPartition) (srv : Server)
    (hnone : srv.broker.configManager.configs.lookup key = none) :
    Stays key (deleteEntries next keys) srv := by
  induction keys generalizing srv with
  | nil => exact hnext srv hnone
  | cons key' keys ih =>
      cases hp : srv.broker.topics.lookup key' with
      | none =>
          apply Stays.sub
          · simp only [hp]
          · simp only [hp]
            exact ih srv hnone
      | some partition =>
          rcases hdel : partition.deletePartition srv.world with ⟨e | _, p, w⟩
          · apply Stays.sub
            · simp only [hp, hdel]
            · simp only [hp, hdel]
              exact Stays.ret _ _ _
          · apply Stays.sub
            · simp only [hp, hdel]
            · simp only [hp, hdel]
              exact .remove hnone ih

theorem Settles.remove {next : Body Server CallResult}
    (hnext : ∀ srv : Server, Settles key next srv)
    (hgone : ∀ srv : Server, srv.broker.configManager.configs.lookup key = none → Stays key next srv)
    (srv : Server) : Settles key (remove key' next) srv := by
  obtain ⟨hne, herr, hok⟩ := get_closeKey key key' srv.broker.configManager srv.world
  by_cases hk : key = key'
  · subst hk
    rcases hclose : srv.broker.configManager.closeKey key srv.world with ⟨e | _, c, w⟩
    · rw [hclose] at herr
      apply Settles.sub
      · simp only [hclose]
        exact herr e rfl
      · simp only [hclose]
        exact Settles.ret _ _ _
    · rw [hclose] at hok
      apply Settles.change
      simp only [hclose]
      exact .sub rfl (hgone _ (hok rfl))
  · have hsame := hne hk
    rcases hclose : srv.broker.configManager.closeKey key' srv.world with ⟨e | _, c, w⟩
    · rw [hclose] at hsame
      apply Settles.sub
      · simp only [hclose]
        exact hsame
      · simp only [hclose]
        exact Settles.ret _ _ _
    · rw [hclose] at hsame
      apply Settles.sub
      · simp only [hclose]
        exact hsame
      · simp only [hclose]
        exact .sub rfl (hnext _)

theorem Settles.deleteEntries {next : Body Server CallResult}
    (hnext : ∀ srv : Server, Settles key next srv)
    (hgone : ∀ srv : Server, srv.broker.configManager.configs.lookup key = none → Stays key next srv)
    (keys : List TopicPartition) (srv : Server) : Settles key (deleteEntries next keys) srv := by
  induction keys generalizing srv with
  | nil => exact hnext srv
  | cons key' keys ih =>
      cases hp : srv.broker.topics.lookup key' with
      | none =>
          apply Settles.sub
          · simp only [hp]
          · simp only [hp]
            exact ih srv
      | some partition =>
          rcases hdel : partition.deletePartition srv.world with ⟨e | _, p, w⟩
          · apply Settles.sub
            · simp only [hp, hdel]
            · simp only [hp, hdel]
              exact Settles.ret _ _ _
          · apply Settles.sub
            · simp only [hp, hdel]
            · simp only [hp, hdel]
              exact .remove ih (Stays.deleteEntries hgone keys) _

theorem configManager_createAndAddNewPartition (b : Broker) (key : TopicPartition)
    (segSize partSize ttl : Int64) (w : World) :
    (b.createAndAddNewPartition key segSize partSize ttl w).2.1.configManager = b.configManager := by
  unfold Broker.createAndAddNewPartition
  rcases (Partition.new (b.partitionPath key) segSize.toInt partSize.toInt ttl.toInt).open w with
    ⟨e | _, p, w⟩ <;> rfl

theorem settles_sendMessage (payload : Payload) (srv : Server) :
    Settles key (sendMessage key' payload) srv := by
  cases hp : srv.broker.topics.lookup key' with
  | none =>
      apply Settles.sub
      · simp only [hp]
      · simp only [hp]
        exact Settles.ret _ _ _
  | some partition =>
      rcases hwrite : partition.write payload srv.world with ⟨e | offset, p, w⟩
      · apply Settles.sub
        · simp only [hp, hwrite]
        · simp only [hp, hwrite]
          exact Settles.ret _ _ _
      · apply Settles.sub
        · simp only [hp, hwrite]
        · simp only [hp, hwrite]
          apply Settles.change
          exact Stays.ret _ _ _

theorem settles_createPartition (request : TopicPartitionRequest) (srv : Server) :
    Settles key (createPartition request) srv := by
  by_cases hmem : (⟨request.topic, request.partition⟩ : TopicPartition) ∈ srv.broker.topics
  · apply Settles.sub
    · simp only [hmem, if_true]
    · simp only [hmem, if_true]
      exact Settles.ret _ _ _
  · have hconfig := configManager_createAndAddNewPartition srv.broker
      ⟨request.topic, request.partition⟩ request.maxSegmentSize request.maxPartitionSize
      request.segmentTtl srv.world
    rcases hadd : srv.broker.createAndAddNewPartition ⟨request.topic, request.partition⟩
        request.maxSegmentSize request.maxPartitionSize request.segmentTtl srv.world with
      ⟨e | _, b, w⟩
    · rw [hadd] at hconfig
      apply Settles.sub
      · simp only [hmem, if_false, hadd]
        rw [hconfig]
      · simp only [hmem, if_false, hadd]
        exact Settles.ret _ _ _
    · rw [hadd] at hconfig
      apply Settles.sub
      · simp only [hmem, if_false, hadd]
        rw [hconfig]
      · simp only [hmem, if_false, hadd]
        apply Settles.change
        exact Stays.ret _ _ _

theorem settles_deletePartition (srv : Server) : Settles key (deletePartition key') srv := by
  cases hp : srv.broker.topics.lookup key' with
  | none =>
      apply Settles.sub
      · simp only [hp]
      · simp only [hp]
        exact Settles.ret _ _ _
  | some partition =>
      rcases hdel : partition.deletePartition srv.world with ⟨e | _, p, w⟩
      · apply Settles.sub
        · simp only [hp, hdel]
        · simp only [hp, hdel]
          exact Settles.ret _ _ _
      · apply Settles.sub
        · simp only [hp, hdel]
        · simp only [hp, hdel]
          exact .remove (fun srv => Settles.ret _ _ srv) (fun srv _ => Stays.ret _ _ srv) _

theorem settles_deleteTopic (topic : Str) (srv : Server) :
    Settles key (deleteTopic topic) srv := by
  have heraseTopics : ∀ (keys : List TopicPartition) (b : Broker),
      (Broker.eraseTopics keys b).configManager = b.configManager := by
    intro keys
    induction keys with
    | nil => exact fun b => rfl
    | cons k keys ih => exact fun b => ih _
  have hlast : ∀ (keys : List TopicPartition) (srv : Server),
      Stays key (.sub fun srv => (respond (.deleted (.ok ())),
        { srv with broker := Broker.eraseTopics keys srv.broker })) srv := by
    intro keys srv
    apply Stays.sub
    · dsimp only
      rw [heraseTopics]
    · exact Stays.ret _ _ _
  apply Settles.sub rfl
  exact .deleteEntries (fun srv => (hlast _ srv).settles) (fun srv _ => hlast _ srv) _ srv

theorem settles_body (x : BrokerCall) (h : (brokerMethod x).exclusive = true) (srv : Server) :
    Settles key (brokerMethod x).body srv := by
  cases x with
  | tick seconds =>
      apply Settles.sub rfl
      exact Settles.ret _ _ _
  | request request =>
      cases request with
      | sendMessage key' payload => exact settles_sendMessage payload srv
      | getMessage key' offset =>
          cases hget : srv.broker.configManager.get key' with
          | error e =>
              apply Settles.sub
              · simp only [hget]
              · simp only [hget]
                exact Settles.ret _ _ _
          | ok info =>
              by_cases hlt : info.commitOffset < offset
              · apply Settles.sub
                · simp only [hget, hlt, if_true]
                · simp only [hget, hlt, if_true]
                  exact Settles.ret _ _ _
              · apply Settles.sub
                · simp only [hget, hlt, if_false]
                · simp only [hget, hlt, if_false]
                  apply Settles.change
                  cases srv.broker.topics.lookup key' with
                  | none => exact Stays.ret _ _ _
                  | some partition => exact Stays.ret _ _ _
      | getOffsets key' => cases h
      | brokerInfo => cases h
      | createPartition request => exact settles_createPartition request srv
      | deletePartition key' => exact settles_deletePartition srv
      | deleteTopic topic => exact settles_deleteTopic topic srv

theorem commitOffset_congr {b b' : Broker} (h : b'.configManager.get key = b.configManager.get key)
    (range : Result (ℤ × ℤ)) : b'.commitOffset key range = b.commitOffset key range := by
  unfold Broker.commitOffset
  rw [h]

end BrokerMethod

/-- The two readers only read, and between the steps of another method the second half of
`getOffsets` finds what was there before it, or what it leaves. -/
theorem brokerMethod_lawful : Lawful brokerMethod where
  reads x hx := by
    cases x with
    | tick seconds => cases hx
    | request request =>
        cases request with
        | getOffsets key => exact fun srv => ⟨rfl, trivial⟩
        | brokerInfo => exact fun srv => ⟨rfl, fun srv => ⟨rfl, trivial⟩⟩
        | sendMessage | getMessage | createPartition | deletePartition | deleteTopic => cases hx
  settled x y a srv hx t ht := by
    have hreply : ∀ z, (brokerMethod z).reply = BrokerMethod.reply := by
      intro z
      cases z <;> rfl
    rw [hreply]
    cases a with
    | response response => exact Or.inl rfl
    | ticked => exact Or.inl rfl
    | range key range =>
        rcases BrokerMethod.settles_body x hx srv t ht with heq | heq
        · exact Or.inl (congrArg (fun response => CallResult.response (.offsets response))
            (BrokerMethod.commitOffset_congr heq range))
        · exact Or.inr (congrArg (fun response => CallResult.response (.offsets response))
            (BrokerMethod.commitOffset_congr heq range))

end MyKafka
