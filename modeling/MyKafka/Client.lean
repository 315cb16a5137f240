import MyKafka.BrokerRun

/-!
# Clients of a broker

A client calls the broker over a network that may lose or delay a request or its reply, and the
broker serves others in between. A call is tried again until it is answered; then the program around
it goes on. A request that is late may still arrive after its call has returned. The programs are the
loop of the producer, which sends the lines it reads, and that of the consumer, which fetches one
offset after the other.
-/

namespace MyKafka

/-- What becomes of one attempt of a call: the request is lost; it is late, and may arrive once the
client has given the attempt up; it is executed but the reply is lost or late; or it is answered. -/
inductive Delivery where
  | lost
  | late
  | unanswered
  | answered
  deriving DecidableEq

/-- A request of another client, an attempt, or the arrival of a late request. -/
inductive NetEvent where
  | other (request : Request)
  | attempt (delivery : Delivery)
  | arrive (n : ℕ)

/-- A program around calls with `try_reconnect`: the call it is in, and what it does with a response
that comes with an ok status. -/
structure ClientProgram (σ : Type) where
  request : σ → Option Request
  resume : σ → Response → σ

/-- Where a program is, and where it was in the attempts whose requests are late. -/
structure Client (σ : Type) where
  state : σ
  late : List σ

namespace ClientProgram

variable {σ : Type}

/-- The request the broker executes in an event. -/
def executes (prog : ClientProgram σ) (c : Client σ) : NetEvent → Option Request
  | .other request => some request
  | .attempt .lost | .attempt .late => none
  | .attempt .unanswered | .attempt .answered => prog.request c.state
  | .arrive n => c.late[n]?.bind prog.request

/-- The client after an event in which nothing is executed. -/
def idle (prog : ClientProgram σ) (c : Client σ) : NetEvent → Client σ
  | .attempt .late =>
    match prog.request c.state with
    | none => c
    | some _ => { c with late := c.late ++ [c.state] }
  | _ => c

/-- The client after an event in which the broker gave this response. -/
def after (prog : ClientProgram σ) (c : Client σ) (response : Response) : NetEvent → Client σ
  | .attempt .answered => { c with state := prog.resume c.state response }
  | .arrive n => { c with late := c.late.eraseIdx n }
  | _ => c

/-- The loop of `METHOD_IMPL`: after an attempt without an ok status the program is in the same call.
The answer of a step is what the broker executed. -/
def step (prog : ClientProgram σ) (s : Client σ × Server) (event : NetEvent) :
    Option (Request × Response) × (Client σ × Server) :=
  match prog.executes s.1 event with
  | none => (none, (prog.idle s.1 event, s.2))
  | some request =>
    match s.2.step request with
    | (response, srv) => (some (request, response), (prog.after s.1 response event, srv))

end ClientProgram

/-! ## The producer -/

/-- The lines that are not sent yet, and the responses so far. -/
structure Producer where
  lines : List Payload
  responses : List SendMessageResponse

def producer (key : TopicPartition) : ClientProgram Producer where
  request s := s.lines.head?.map (fun line => .sendMessage key line)
  resume s
    | .sent response => ⟨s.lines.tail, s.responses ++ [response]⟩
    | _ => s

/-! ## The consumer -/

structure ConsumerOptions where
  key : TopicPartition
  nbOffset : Int64
  stopNoMsg : Bool

/-- A line the consumer prints. -/
inductive Line where
  | payloadAt (offset : Int64) (payload : Payload)
  | waiting
  | error (e : Error)

/-- The lines `Payload at offset`. -/
def Line.payload? : Line → Option (ℤ × Payload)
  | .payloadAt offset payload => some (offset.toInt, payload)
  | _ => none

structure Consumer where
  offset : Int64
  stop : Bool
  output : List Line

namespace Consumer

def start (offset : Int64) : Consumer := ⟨offset, false, []⟩

def print (c : Consumer) (line : Line) : Consumer := { c with output := c.output ++ [line] }

/-- The `switch` on the error code. -/
def advance (opts : ConsumerOptions) (c : Consumer) : Result Unit → Consumer
  | .ok _ => { c with offset := c.offset + 1 }
  | .error e =>
    if e.code = .noMessage then
      if opts.stopNoMsg then { c with stop := true }
      else c.print .waiting
    else { c.print (.error e) with stop := true }

/-- One turn of the loop: the payload is printed whatever the error code is. -/
def turn (opts : ConsumerOptions) (c : Consumer) (response : GetMessageResponse) : Consumer :=
  let c := (c.print (.payloadAt c.offset response.payload)).advance opts response.error
  if 0 < opts.nbOffset ∧ opts.nbOffset ≤ c.offset then { c with stop := true } else c

def printed (c : Consumer) : List (ℤ × Payload) := c.output.filterMap Line.payload?

end Consumer

def consumer (opts : ConsumerOptions) : ClientProgram Consumer where
  request c := if c.stop then none else some (.getMessage opts.key c.offset)
  resume c
    | .message response => c.turn opts response
    | _ => c

end MyKafka
