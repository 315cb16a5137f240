import MyKafka.ClientRun
import MyKafka.Network

/-!
# One event of a network

An event is of another client, or of one producer or consumer, whose call it belongs to: the network
after it is the one before with this client changed, and with the server after the request, if one
is executed.
-/

namespace MyKafka

open Posix MyKafka.Partition

variable {srv : Server} {key : TopicPartition} {request : Request} {response : Response}
  {ι κ : Type}

variable {inputs : ι → List Payload} {input : List Payload} {keys : ι → TopicPartition}
  {opts : κ → ConsumerOptions} {n : Network ι κ} {e : NetworkEvent ι κ} {event : NetEvent}

/-- A late request arrives. -/
def NetworkEvent.late : NetworkEvent ι κ → Bool
  | .arrive _ _ => true
  | _ => false

/-- The event answers a call of the producer. -/
def NetworkEvent.answers [DecidableEq ι] (i : ι) : NetworkEvent ι κ → Bool
  | .produce j .answered => j = i
  | _ => false

theorem NetworkEvent.eq_of_answers [DecidableEq ι] {i : ι} (h : e.answers i = true) :
    e = .produce i .answered := by
  rcases e with request' | ⟨j, delivery⟩ | ⟨j, delivery⟩ | ⟨j | j, k⟩
  · cases h
  · cases delivery with
    | answered =>
        obtain rfl : j = i := of_decide_eq_true h
        rfl
    | lost | late | unanswered => cases h
  · cases h
  · cases h
  · cases h

/-- The event is an attempt of the producer, or one that was late. -/
def NetworkEvent.From (i : ι) : NetworkEvent ι κ → Prop
  | .produce j _ => j = i
  | .arrive (.inl j) _ => j = i
  | .other _ | .consume _ _ | .arrive (.inr _) _ => False

/-- Others do not delete the key. -/
def NetworkEvent.Keeps (key : TopicPartition) : NetworkEvent ι κ → Prop
  | .other request => ¬ request.Deletes key
  | .produce _ _ | .consume _ _ | .arrive _ _ => True

/-- The lines that are not sent are those behind the answered ones. -/
def Producer.Reads (input : List Payload) (s : Producer) : Prop :=
  s.lines = input.drop s.responses.length

/-- So they are, and were in the attempts that are late. -/
structure Client.Reads (input : List Payload) (c : Client Producer) : Prop where
  state : c.state.Reads input
  late : ∀ s ∈ c.late, s.Reads input ∧ s.responses.length ≤ c.state.responses.length

theorem Producer.Reads.of_request {s : Producer} (h : s.Reads input)
    (hreq : (producer key).request s = some request) :
    ∃ m, request = .sendMessage key m ∧ input[s.responses.length]? = some m := by
  simp only [producer, Option.map_eq_some_iff] at hreq
  obtain ⟨m, hhead, rfl⟩ := hreq
  rw [show s.lines = input.drop s.responses.length from h, List.head?_drop] at hhead
  exact ⟨m, rfl, hhead⟩

theorem Producer.Reads.resume (key : TopicPartition) {s : Producer} (h : s.Reads input)
    (response : Response) :
    ((producer key).resume s response).Reads input ∧
      s.responses.length ≤ ((producer key).resume s response).responses.length := by
  cases response with
  | sent answer =>
      refine ⟨?_, by simp [producer]⟩
      show s.lines.tail = input.drop (s.responses ++ [answer]).length
      rw [show s.lines = input.drop s.responses.length from h, List.tail_drop,
        List.length_append, List.length_singleton]
  | _ => exact ⟨h, le_rfl⟩

theorem Client.Reads.idle {c : Client Producer} (h : c.Reads input) :
    ((producer key).idle c event).Reads input := by
  unfold ClientProgram.idle
  split
  · split
    · exact h
    · refine ⟨h.state, fun s hs => ?_⟩
      rcases List.mem_append.mp hs with hs | hs
      · exact h.late s hs
      · rw [List.mem_singleton.mp hs]
        exact ⟨h.state, le_rfl⟩
  · exact h

theorem Client.Reads.after {c : Client Producer} (h : c.Reads input) :
    ((producer key).after c response event).Reads input := by
  unfold ClientProgram.after
  split
  · obtain ⟨hstate, hle⟩ := Producer.Reads.resume key h.state response
    exact ⟨hstate, fun s hs => ⟨(h.late s hs).1, (h.late s hs).2.trans hle⟩⟩
  · exact ⟨h.state, fun s hs => h.late s (List.mem_of_mem_eraseIdx hs)⟩
  · exact h

/-- A consumer only reads. -/
theorem request_consumerMain {opts : ConsumerOptions} {c : ConsumerMain}
    (h : (consumerMain opts).request c = some request) :
    (∃ o, request = .getMessage opts.key o) ∨ request = .getOffsets opts.key := by
  cases c with
  | asking => exact Or.inr (Option.some.inj h).symm
  | reading offsets c => exact Or.inl ⟨c.offset, (request_consumer h).1⟩
  | failed e => cases h

theorem ClientProgram.request_of_attempt {σ : Type} {prog : ClientProgram σ} {c : Client σ}
    {delivery : Delivery} (h : prog.executes c (.attempt delivery) = some request) :
    prog.request c.state = some request := by
  cases delivery with
  | lost | late => cases h
  | unanswered | answered => exact h

namespace Network

/-- What is executed is a request of another client, an attempt of a producer's call, or a consumer
reads. -/
theorem executes_cases (hreads : ∀ i, (n.producers i).Reads (inputs i))
    (h : n.executes keys opts e = some request) :
    (e = .other request ∧ n.caller e = none) ∨
    (∃ i k m, n.caller e = some (i, k) ∧ e.From i ∧ request = .sendMessage (keys i) m ∧
      (inputs i)[k]? = some m ∧ k ≤ (n.producers i).state.responses.length ∧
      (e.late = false → k = (n.producers i).state.responses.length)) ∨
    (∃ j, n.caller e = none ∧
      ((∃ o, request = .getMessage (opts j).key o) ∨ request = .getOffsets (opts j).key)) := by
  rcases e with request' | ⟨i, delivery⟩ | ⟨j, delivery⟩ | ⟨i | j, k⟩
  · obtain rfl := Option.some.inj h
    exact Or.inl ⟨rfl, rfl⟩
  · obtain ⟨m, hm, hline⟩ := (hreads i).state.of_request (ClientProgram.request_of_attempt h)
    exact Or.inr (Or.inl ⟨i, _, m, rfl, rfl, hm, hline, le_rfl, fun _ => rfl⟩)
  · exact Or.inr (Or.inr ⟨j, rfl, request_consumerMain (ClientProgram.request_of_attempt h)⟩)
  · obtain ⟨s, hs, hreq⟩ := Option.bind_eq_some_iff.mp h
    obtain ⟨hs', hle⟩ := (hreads i).late s (List.mem_of_getElem? hs)
    obtain ⟨m, hm, hline⟩ := hs'.of_request hreq
    refine Or.inr (Or.inl ⟨i, s.responses.length, m, ?_, rfl, hm, hline, hle, fun h => by cases h⟩)
    rw [caller, hs]
    rfl
  · obtain ⟨s, -, hreq⟩ := Option.bind_eq_some_iff.mp h
    exact Or.inr (Or.inr ⟨j, rfl, request_consumerMain hreq⟩)

def setConsumer [DecidableEq κ] (n : Network ι κ) (j : κ) (c : Client ConsumerMain)
    (srv : Server) : Network ι κ :=
  { n with consumers := Function.update n.consumers j c, server := srv }

theorem turnConsumer_none [DecidableEq κ] (event : NetEvent) {j : κ}
    (h : (consumerMain (opts j)).executes (n.consumers j) event = none) :
    n.turnConsumer opts j event =
      (none, n.setConsumer j ((consumerMain (opts j)).idle (n.consumers j) event) n.server) := by
  rw [turnConsumer, ClientProgram.step_none (s := (n.consumers j, n.server)) h]
  rfl

theorem turnConsumer_some [DecidableEq κ] (event : NetEvent) {j : κ}
    (h : (consumerMain (opts j)).executes (n.consumers j) event = some request) :
    n.turnConsumer opts j event = (some (request, (n.server.step request).1), n.setConsumer j
      ((consumerMain (opts j)).after (n.consumers j) (n.server.step request).1 event)
      (n.server.step request).2) := by
  rw [turnConsumer, ClientProgram.step_some (s := (n.consumers j, n.server)) h]
  rfl

variable [DecidableEq ι]

def setProducer (n : Network ι κ) (i : ι) (c : Client Producer) (srv : Server) : Network ι κ :=
  { n with producers := Function.update n.producers i c, server := srv }

theorem turnProducer_none (event : NetEvent) {i : ι}
    (h : (producer (keys i)).executes (n.producers i) event = none) :
    n.turnProducer keys i event =
      (none, n.setProducer i ((producer (keys i)).idle (n.producers i) event) n.server) := by
  rw [turnProducer, ClientProgram.step_none (s := (n.producers i, n.server)) h]
  rfl

theorem turnProducer_some (event : NetEvent) {i : ι}
    (h : (producer (keys i)).executes (n.producers i) event = some request) :
    n.turnProducer keys i event = (some (request, (n.server.step request).1), n.setProducer i
      ((producer (keys i)).after (n.producers i) (n.server.step request).1 event)
      (n.server.step request).2) := by
  rw [turnProducer, ClientProgram.step_some (s := (n.producers i, n.server)) h]
  rfl

/-- An answer is that of the call its producer is in. -/
theorem caller_of_answers {i : ι} (h : e.answers i = true) :
    n.caller e = some (i, (n.producers i).state.responses.length) := by
  rw [NetworkEvent.eq_of_answers h]
  rfl

variable [DecidableEq κ]

/-- The network after an event in which nothing is executed. -/
def idle (keys : ι → TopicPartition) (opts : κ → ConsumerOptions) (n : Network ι κ) :
    NetworkEvent ι κ → Network ι κ
  | .other _ => n
  | .produce i delivery =>
    n.setProducer i ((producer (keys i)).idle (n.producers i) (.attempt delivery)) n.server
  | .consume j delivery =>
    n.setConsumer j ((consumerMain (opts j)).idle (n.consumers j) (.attempt delivery)) n.server
  | .arrive (.inl i) k =>
    n.setProducer i ((producer (keys i)).idle (n.producers i) (.arrive k)) n.server
  | .arrive (.inr j) k =>
    n.setConsumer j ((consumerMain (opts j)).idle (n.consumers j) (.arrive k)) n.server

/-- The network after an event in which the broker gave this response. -/
def after (keys : ι → TopicPartition) (opts : κ → ConsumerOptions) (n : Network ι κ)
    (response : Response) (srv : Server) : NetworkEvent ι κ → Network ι κ
  | .other _ => { n with server := srv }
  | .produce i delivery =>
    n.setProducer i ((producer (keys i)).after (n.producers i) response (.attempt delivery)) srv
  | .consume j delivery =>
    n.setConsumer j ((consumerMain (opts j)).after (n.consumers j) response (.attempt delivery)) srv
  | .arrive (.inl i) k =>
    n.setProducer i ((producer (keys i)).after (n.producers i) response (.arrive k)) srv
  | .arrive (.inr j) k =>
    n.setConsumer j ((consumerMain (opts j)).after (n.consumers j) response (.arrive k)) srv

theorem step_none (h : n.executes keys opts e = none) :
    n.step keys opts e = ((n.caller e, none), n.idle keys opts e) := by
  have hturn : n.turn keys opts e = (none, n.idle keys opts e) := by
    rcases e with request' | ⟨i, delivery⟩ | ⟨j, delivery⟩ | ⟨i | j, k⟩
    · cases h
    · exact turnProducer_none (.attempt delivery) h
    · exact turnConsumer_none (.attempt delivery) h
    · exact turnProducer_none (.arrive k) h
    · exact turnConsumer_none (.arrive k) h
  rw [step, hturn]

theorem step_some (h : n.executes keys opts e = some request) :
    n.step keys opts e = ((n.caller e, some (request, (n.server.step request).1)),
      n.after keys opts (n.server.step request).1 (n.server.step request).2 e) := by
  have hturn : n.turn keys opts e = (some (request, (n.server.step request).1),
      n.after keys opts (n.server.step request).1 (n.server.step request).2 e) := by
    rcases e with request' | ⟨i, delivery⟩ | ⟨j, delivery⟩ | ⟨i | j, k⟩
    · obtain rfl := Option.some.inj h
      rfl
    · exact turnProducer_some (.attempt delivery) h
    · exact turnConsumer_some (.attempt delivery) h
    · exact turnProducer_some (.arrive k) h
    · exact turnConsumer_some (.arrive k) h
  rw [step, hturn]

@[simp] theorem server_idle : (n.idle keys opts e).server = n.server := by
  unfold idle
  split <;> rfl

@[simp] theorem server_after : (n.after keys opts response srv e).server = srv := by
  unfold after
  split <;> rfl

theorem reads_idle (h : ∀ i, (n.producers i).Reads (inputs i)) (i : ι) :
    ((n.idle keys opts e).producers i).Reads (inputs i) := by
  have hupdate : ∀ i' c, c.Reads (inputs i') →
      (Function.update n.producers i' c i).Reads (inputs i) := fun i' c hc =>
    (Function.forall_update_iff _ fun i (c : Client Producer) => c.Reads (inputs i)).mpr
      ⟨hc, fun i _ => h i⟩ i
  unfold idle
  split
  · exact h i
  · exact hupdate _ _ (h _).idle
  · exact h i
  · exact hupdate _ _ (h _).idle
  · exact h i

theorem reads_after (h : ∀ i, (n.producers i).Reads (inputs i)) (i : ι) :
    ((n.after keys opts response srv e).producers i).Reads (inputs i) := by
  have hupdate : ∀ i' c, c.Reads (inputs i') →
      (Function.update n.producers i' c i).Reads (inputs i) := fun i' c hc =>
    (Function.forall_update_iff _ fun i (c : Client Producer) => c.Reads (inputs i)).mpr
      ⟨hc, fun i _ => h i⟩ i
  unfold after
  split
  · exact h i
  · exact hupdate _ _ (h _).after
  · exact h i
  · exact hupdate _ _ (h _).after
  · exact h i

theorem producer_idle (i : ι) :
    ((n.idle keys opts e).producers i).state = (n.producers i).state := by
  have hupdate : ∀ i' event, (Function.update n.producers i'
      ((producer (keys i')).idle (n.producers i') event) i).state = (n.producers i).state :=
    fun i' event => (Function.forall_update_iff _ fun i (c : Client Producer) =>
      c.state = (n.producers i).state).mpr ⟨ClientProgram.state_idle, fun _ _ => rfl⟩ i
  unfold idle
  split
  · rfl
  · exact hupdate ..
  · rfl
  · exact hupdate ..
  · rfl

theorem consumer_idle (j : κ) :
    ((n.idle keys opts e).consumers j).state = (n.consumers j).state := by
  have hupdate : ∀ j' event, (Function.update n.consumers j'
      ((consumerMain (opts j')).idle (n.consumers j') event) j).state = (n.consumers j).state :=
    fun j' event => (Function.forall_update_iff _ fun j (c : Client ConsumerMain) =>
      c.state = (n.consumers j).state).mpr ⟨ClientProgram.state_idle, fun _ _ => rfl⟩ j
  unfold idle
  split
  · rfl
  · rfl
  · exact hupdate ..
  · rfl
  · exact hupdate ..

/-- Only the producer whose call is answered goes on. -/
theorem responses_after {answer : SendMessageResponse} {i : ι}
    (h : e.answers i = true → response = .sent answer) :
    ((n.after keys opts response srv e).producers i).state.responses =
      (n.producers i).state.responses ++ if e.answers i then [answer] else [] := by
  rcases e with request' | ⟨j, delivery⟩ | ⟨j, delivery⟩ | ⟨j | j, k⟩
  · exact (List.append_nil _).symm
  · by_cases hij : i = j
    · subst hij
      dsimp only [after, setProducer]
      rw [Function.update_self]
      cases delivery with
      | answered =>
          rw [h (decide_eq_true rfl), if_pos (show NetworkEvent.answers i (.produce i .answered) = true
            from decide_eq_true rfl)]
          rfl
      | lost | late | unanswered => exact (List.append_nil _).symm
    · have hno : NetworkEvent.answers (κ := κ) i (.produce j delivery) = false := by
        cases delivery with
        | answered => exact decide_eq_false fun h => hij h.symm
        | lost | late | unanswered => rfl
      dsimp only [after, setProducer]
      rw [Function.update_of_ne hij, hno]
      exact (List.append_nil _).symm
  · exact (List.append_nil _).symm
  · have hstate : ((producer (keys j)).after (n.producers j) response (.arrive k)).state =
        (n.producers j).state := rfl
    have harrive := (Function.forall_update_iff n.producers fun i (c : Client Producer) =>
      c.state.responses = (n.producers i).state.responses).mpr
      ⟨congrArg Producer.responses hstate, fun _ _ => rfl⟩ i
    exact harrive.trans (List.append_nil _).symm
  · exact (List.append_nil _).symm

end Network

end MyKafka
