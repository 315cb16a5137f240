import MyKafka.BrokerMethods

/-!
# The server and its broker

The threads of the server take requests from the queue, call the broker, whose methods interleave as
its mutexes admit, and answer. Between two requests the clock moves: the model lets it move only
while no method is at work.
-/

namespace MyKafka

open Posix Monitor

/-- Who calls the broker: a service object, or the clock. -/
inductive Caller where
  | service (x : RpcService)
  | clock (n : ℕ)
  deriving DecidableEq

structure BrokerServer where
  rpc : RpcServer
  /-- The `request_` of the objects. -/
  requests : RpcService → Option ServiceRequest
  broker : State Caller BrokerCall Server CallResult CallResult
  /-- What `Finish` was called with, last first. -/
  responses : List (RpcService × CallResult)

/-- A step of a thread that is in a method of the broker. -/
inductive MethodStep where
  | acquire
  | step
  | release
  | reply

def MethodStep.event (c : Caller) : MethodStep → Monitor.Event Caller BrokerCall
  | .acquire => .acquire c
  | .step => .step c
  | .release => .release c
  | .reply => .reply c

inductive ServerEvent where
  | advance (thread : ℕ)
  | request (thread : ℕ) (x : RpcService) (ok : Bool) (request : ServiceRequest)
  | finish (thread : ℕ) (x : RpcService) (ok : Bool)
  /-- The object calls its method of the broker. -/
  | enter (thread : ℕ) (x : RpcService) (request : ServiceRequest)
  | method (x : RpcService) (part : MethodStep)
  /-- The call of `Finish`. -/
  | respond (thread : ℕ) (x : RpcService)
  | tick (n seconds : ℕ)

/-- The passing of time as a call that nobody sees at work. -/
def clockEvents (n seconds : ℕ) : List (Monitor.Event Caller BrokerCall) :=
  [.call (.clock n) (.tick seconds), .acquire (.clock n), .step (.clock n), .release (.clock n),
    .reply (.clock n)]

namespace ServerEvent

/-- What the event is to the threads and the queue. -/
def rpc : ServerEvent → List RpcEvent
  | .advance t => [.advance t]
  | .request t x ok _ => [.request t x ok]
  | .finish t x ok => [.finish t x ok]
  | .respond t _ => [.advance t]
  | .enter _ _ _ | .method _ _ | .tick _ _ => []

/-- What it is to the broker. -/
def broker : ServerEvent → List (Monitor.Event Caller BrokerCall)
  | .enter _ x req => [.call (.service x) (.request req)]
  | .method x part => [part.event (.service x)]
  | .tick n seconds => clockEvents n seconds
  | .advance _ | .request _ _ _ _ | .finish _ _ _ | .respond _ _ => []

end ServerEvent

namespace BrokerServer

/-- `run` with this many threads, before a broker that was started. -/
def start (threadNumber : ℕ) (srv : Server) : BrokerServer where
  rpc := .start threadNumber
  requests _ := none
  broker := Monitor.start srv
  responses := []

/-- A thread that is in its call of the broker goes on when the call has returned; `Finish` is a
step of its own. -/
def mayAdvance (s : BrokerServer) (thread : ℕ) : Bool :=
  match s.rpc.threads[thread]? with
  | some (.processing x (.call _ :: _)) =>
    match s.broker.calls (.service x) with
    | some (.done _ _ _) => true
    | _ => false
  | some (.processing _ (.finish :: _)) => false
  | _ => true

/-- The threads go one step on. -/
def stepRpc (s : BrokerServer) (e : RpcEvent) : Option BrokerServer :=
  (s.rpc.step e).map fun rpc => { s with rpc := rpc }

def runBroker (s : BrokerServer) (es : List (Monitor.Event Caller BrokerCall)) :
    Option BrokerServer :=
  (Monitor.run brokerMethod s.broker es).map fun broker => { s with broker := broker }

def step (s : BrokerServer) : ServerEvent → Option BrokerServer
  | .advance t => if s.mayAdvance t then s.stepRpc (.advance t) else none
  | .request t x ok request =>
    if request.kind = x.kind then
      let requests := if ok then Function.update s.requests x (some request) else s.requests
      { s with requests := requests }.stepRpc (.request t x ok)
    else none
  | .finish t x ok => s.stepRpc (.finish t x ok)
  | .enter t x request =>
    match s.rpc.threads[t]? with
    | some (.processing y (.call _ :: _)) =>
      if y = x ∧ s.requests x = some request then
        s.runBroker [.call (.service x) (.request request)]
      else none
    | _ => none
  | .method x part => s.runBroker [part.event (.service x)]
  | .respond t x =>
    match s.rpc.threads[t]?, s.broker.calls (.service x) with
    | some (.processing y (.finish :: _)), some (.done _ _ response) =>
      if y = x then
        { s with responses := (x, response) :: s.responses }.stepRpc (.advance t)
      else none
    | _, _ => none
  | .tick n seconds => s.runBroker (clockEvents n seconds)

def run (s : BrokerServer) : List ServerEvent → Option BrokerServer
  | [] => some s
  | e :: es =>
    match s.step e with
    | none => none
    | some s => s.run es

end BrokerServer

end MyKafka
