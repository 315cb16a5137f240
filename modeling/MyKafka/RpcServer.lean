import Mathlib.Data.List.AList

/-!
# The asynchronous server

Worker threads take completion events from one queue. An event carries the address of a service
object, which is new (`process`) or has been answered (`finish`): a new one is served, after its
successor was created, and an answered one deletes itself. The queue hands back, in any order and
with either value of `ok`, the tags of registered requests and of calls of `Finish`, each once.
-/

namespace MyKafka

/-- The service classes, one for each method of the broker. -/
inductive ServiceKind where
  | sendMessage
  | getMessage
  | getOffsets
  | brokerInfo
  | createPartition
  | deletePartition
  | deleteTopic
  deriving DecidableEq

inductive CallStatus where
  | process
  | finish
  deriving DecidableEq

/-- A service object: its class, and a number no other object has. -/
structure RpcService where
  kind : ServiceKind
  num : ℕ
  deriving DecidableEq

/-- What a `process` method does with its object. -/
inductive ServiceAction where
  | create (kind : ServiceKind)
  | call (kind : ServiceKind)
  | finish
  deriving DecidableEq

/-- The common form of the `process` methods: a successor, the call of the broker, the answer. -/
def processAs (kind : ServiceKind) : List ServiceAction := [.create kind, .call kind, .finish]

def SendMessageService.process : List ServiceAction := processAs .sendMessage

def GetMessageService.process : List ServiceAction := processAs .getMessage

def GetOffsetsService.process : List ServiceAction := processAs .getOffsets

def BrokerInfoService.process : List ServiceAction := processAs .brokerInfo

def CreatePartitionService.process : List ServiceAction := processAs .createPartition

def DeletePartitionService.process : List ServiceAction := processAs .deletePartition

def DeleteTopicService.process : List ServiceAction := processAs .deleteTopic

namespace RpcService

/-- The virtual method. -/
def process (x : RpcService) : List ServiceAction :=
  match x.kind with
  | .sendMessage => SendMessageService.process
  | .getMessage => GetMessageService.process
  | .getOffsets => GetOffsetsService.process
  | .brokerInfo => BrokerInfoService.process
  | .createPartition => CreatePartitionService.process
  | .deletePartition => DeletePartitionService.process
  | .deleteTopic => DeleteTopicService.process

theorem process_eq (x : RpcService) : x.process = processAs x.kind := by
  unfold process
  cases x.kind <;> rfl

end RpcService

def BrokerServer.specificHandle : List ServiceKind :=
  [.sendMessage, .getMessage, .getOffsets, .brokerInfo, .createPartition, .deletePartition,
    .deleteTopic]

/-- Where a thread is in `handleRpcs`. -/
inductive Worker where
  /-- In `specificHandle`, with these services still to be created. -/
  | handling (todo : List ServiceKind)
  /-- Before `Next`, or waiting in it. -/
  | waiting
  /-- `Next` returned this tag, with `ok`. -/
  | proceeding (x : RpcService)
  /-- In the `process` method of the object, with these actions still to be done. -/
  | processing (x : RpcService) (todo : List ServiceAction)
  deriving DecidableEq

structure RpcServer where
  /-- The objects that exist, and their `status_`. -/
  objects : AList (fun _ : RpcService => CallStatus)
  /-- The number of objects ever created. -/
  count : ℕ
  /-- The tags of registered requests that were not handed back yet. -/
  requested : List RpcService
  /-- The tags of calls of `Finish` that were not handed back yet. -/
  finishing : List RpcService
  threads : List Worker
  /-- The objects `process` was called on. -/
  processed : List RpcService
  /-- The objects whose `Finish` event was taken. -/
  finished : List RpcService
  /-- The objects that were used after they were deleted. -/
  stray : List RpcService

namespace RpcServer

/-- `run` with this many threads. -/
def start (threadNumber : ℕ) : RpcServer where
  objects := ∅
  count := 0
  requested := []
  finishing := []
  threads := List.replicate threadNumber (.handling BrokerServer.specificHandle)
  processed := []
  finished := []
  stray := []

/-- The constructor of a service class, which registers the request it waits for. -/
def create (s : RpcServer) (kind : ServiceKind) : RpcServer :=
  { s with
    objects := s.objects.insert ⟨kind, s.count⟩ .process
    count := s.count + 1
    requested := ⟨kind, s.count⟩ :: s.requested }

/-- An access to the members of the object. -/
def touch (s : RpcServer) (x : RpcService) : RpcServer :=
  if x ∈ s.objects then s else { s with stray := x :: s.stray }

def perform (s : RpcServer) (x : RpcService) : ServiceAction → RpcServer
  | .create kind => (s.touch x).create kind
  | .call _ => s.touch x
  | .finish => { s.touch x with finishing := x :: (s.touch x).finishing }

def proceed (s : RpcServer) (x : RpcService) : RpcServer × Worker :=
  match s.objects.lookup x with
  | some .process =>
    ({ s with objects := s.objects.insert x .finish, processed := x :: s.processed },
      .processing x x.process)
  | some .finish => ({ s with objects := s.objects.erase x }, .waiting)
  | none => ({ s with stray := x :: s.stray }, .waiting)

/-- The next thing a thread does, unless it waits for an event. -/
def advance (s : RpcServer) : Worker → Option (RpcServer × Worker)
  | .handling [] => some (s, .waiting)
  | .handling (kind :: todo) => some (s.create kind, .handling todo)
  | .waiting => none
  | .proceeding x => some (s.proceed x)
  | .processing _ [] => some (s, .waiting)
  | .processing x (a :: todo) => some (s.perform x a, .processing x todo)

end RpcServer

/-- A step of one of the threads: on its own, or the return of `Next` with an event. -/
inductive RpcEvent where
  | advance (thread : ℕ)
  | request (thread : ℕ) (x : RpcService) (ok : Bool)
  | finish (thread : ℕ) (x : RpcService) (ok : Bool)
  deriving DecidableEq

/-- The value of `ok` that comes with the event. -/
def RpcEvent.ok : RpcEvent → Bool
  | .advance _ => true
  | .request _ _ ok => ok
  | .finish _ _ ok => ok

/-- The body of the loop: what `Next` returned is used only with `ok`. -/
def Worker.took (x : RpcService) (ok : Bool) : Worker := if ok then .proceeding x else .waiting

namespace RpcServer

/-- `none` where the thread is elsewhere, or the queue holds no such tag. -/
def step (s : RpcServer) : RpcEvent → Option RpcServer
  | .advance t =>
    match s.threads[t]? with
    | none => none
    | some th =>
      match s.advance th with
      | none => none
      | some (s, th) => some { s with threads := s.threads.set t th }
  | .request t x ok =>
    if s.threads[t]? = some .waiting ∧ x ∈ s.requested then
      some { s with
        requested := s.requested.erase x
        threads := s.threads.set t (Worker.took x ok) }
    else none
  | .finish t x ok =>
    if s.threads[t]? = some .waiting ∧ x ∈ s.finishing then
      some { s with
        finishing := s.finishing.erase x
        finished := x :: s.finished
        threads := s.threads.set t (Worker.took x ok) }
    else none

/-- Any order of the steps of the threads. -/
def run (s : RpcServer) : List RpcEvent → Option RpcServer
  | [] => some s
  | e :: es =>
    match s.step e with
    | none => none
    | some s => s.run es

end RpcServer

end MyKafka
