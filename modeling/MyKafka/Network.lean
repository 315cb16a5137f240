import MyKafka.Client

/-!
# Producers and consumers of one broker

Any number of producers and consumers call the same broker, and their attempts come in any order,
with those of others in between; so do their late requests. A consumer that starts at a negative
offset asks for the first one.
-/

namespace MyKafka

/-- Where the `main` of the consumer is. -/
inductive ConsumerMain where
  /-- In `getOffsets`, for a negative offset. -/
  | asking
  /-- In the loop; the offsets are those it was told before, and printed. -/
  | reading (offsets : Option GetOffsetsResponse) (c : Consumer)
  /-- `CHECK_ERROR` printed this error and returned. -/
  | failed (e : Error)

namespace ConsumerMain

def start (offset : Int64) : ConsumerMain :=
  if offset < 0 then .asking else .reading none (Consumer.start offset)

/-- The answer of `getOffsets`, up to the loop. -/
def told (response : GetOffsetsResponse) : ConsumerMain :=
  match response.error with
  | .ok _ => .reading (some response) (Consumer.start (.ofInt response.firstOffset))
  | .error e => .failed e

end ConsumerMain

def consumerMain (opts : ConsumerOptions) : ClientProgram ConsumerMain where
  request
    | .asking => some (.getOffsets opts.key)
    | .reading _ c => (consumer opts).request c
    | .failed _ => none
  resume
    | .asking, .offsets response => .told response
    | .reading offsets c, response => .reading offsets ((consumer opts).resume c response)
    | s, _ => s

/-- Producers `ι` and consumers `κ`. -/
structure Network (ι κ : Type) where
  producers : ι → Client Producer
  consumers : κ → Client ConsumerMain
  server : Server

/-- A late request that arrives is the `n`-th one of a producer or of a consumer. -/
inductive NetworkEvent (ι κ : Type) where
  | other (request : Request)
  | produce (i : ι) (delivery : Delivery)
  | consume (j : κ) (delivery : Delivery)
  | arrive (c : ι ⊕ κ) (n : ℕ)

/-- Whose call it is: that of a producer for the line of this number, or that of anyone else. -/
abbrev Stamp (ι : Type) := Option (ι × ℕ)

namespace Network

variable {ι κ : Type} [DecidableEq ι] [DecidableEq κ]

/-- The lines each producer is going to read, and the offset each consumer is started with. -/
def start (inputs : ι → List Payload) (offsets : κ → Int64) (srv : Server) : Network ι κ where
  producers i := ⟨⟨inputs i, []⟩, []⟩
  consumers j := ⟨.start (offsets j), []⟩
  server := srv

/-- The call that a request of the event is an attempt of. -/
def caller (n : Network ι κ) : NetworkEvent ι κ → Stamp ι
  | .produce i _ => some (i, (n.producers i).state.responses.length)
  | .arrive (.inl i) k => (n.producers i).late[k]?.map fun s => (i, s.responses.length)
  | .other _ | .consume _ _ | .arrive (.inr _) _ => none

/-- The request the broker executes in an event. -/
def executes (keys : ι → TopicPartition) (opts : κ → ConsumerOptions) (n : Network ι κ) :
    NetworkEvent ι κ → Option Request
  | .other request => some request
  | .produce i delivery => (producer (keys i)).executes (n.producers i) (.attempt delivery)
  | .consume j delivery => (consumerMain (opts j)).executes (n.consumers j) (.attempt delivery)
  | .arrive (.inl i) k => (producer (keys i)).executes (n.producers i) (.arrive k)
  | .arrive (.inr j) k => (consumerMain (opts j)).executes (n.consumers j) (.arrive k)

def turnProducer (keys : ι → TopicPartition) (n : Network ι κ) (i : ι) (event : NetEvent) :
    Option (Request × Response) × Network ι κ :=
  match (producer (keys i)).step (n.producers i, n.server) event with
  | (x, c, srv) => (x, { n with producers := Function.update n.producers i c, server := srv })

def turnConsumer (opts : κ → ConsumerOptions) (n : Network ι κ) (j : κ) (event : NetEvent) :
    Option (Request × Response) × Network ι κ :=
  match (consumerMain (opts j)).step (n.consumers j, n.server) event with
  | (x, c, srv) => (x, { n with consumers := Function.update n.consumers j c, server := srv })

def turn (keys : ι → TopicPartition) (opts : κ → ConsumerOptions) (n : Network ι κ) :
    NetworkEvent ι κ → Option (Request × Response) × Network ι κ
  | .other request =>
    match n.server.step request with
    | (response, srv) => (some (request, response), { n with server := srv })
  | .produce i delivery => n.turnProducer keys i (.attempt delivery)
  | .consume j delivery => n.turnConsumer opts j (.attempt delivery)
  | .arrive (.inl i) k => n.turnProducer keys i (.arrive k)
  | .arrive (.inr j) k => n.turnConsumer opts j (.arrive k)

/-- The answer of a step is what the broker executed, and whose call it was. -/
def step (keys : ι → TopicPartition) (opts : κ → ConsumerOptions) (n : Network ι κ)
    (event : NetworkEvent ι κ) : (Stamp ι × Option (Request × Response)) × Network ι κ :=
  match n.turn keys opts event with
  | (x, n') => ((n.caller event, x), n')

end Network

end MyKafka
