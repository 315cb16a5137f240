import MyKafka.Broker
import MyKafka.Runs

/-!
# Runs of a broker

A server is a broker and the world it lives in. Its steps are the requests, in the order in which
the mutex serialises them, the passing of time, and restarts on the same base path.
-/

namespace MyKafka

open Posix

inductive Request where
  | tick (seconds : ℕ)
  | createPartition (request : TopicPartitionRequest)
  | deletePartition (key : TopicPartition)
  | deleteTopic (topic : Str)
  | sendMessage (key : TopicPartition) (payload : Payload)
  | getMessage (key : TopicPartition) (offset : Int64)
  | getOffsets (key : TopicPartition)
  | restart (closing : Bool)

inductive Response where
  | ticked
  | created (res : Result Unit)
  | deleted (res : Result Unit)
  | sent (response : SendMessageResponse)
  | message (response : GetMessageResponse)
  | offsets (response : GetOffsetsResponse)
  | loaded (res : Result Unit)

structure Server where
  broker : Broker
  world : World

namespace Server

/-- A new broker on a base path. -/
def boot (basePath : RawPath) (order : KeyOrder) (w : World) : Server :=
  match Broker.new basePath order w with
  | (b, w) => ⟨b, w⟩

/-- What the old broker leaves: it is closed and destroyed, or it just disappears. -/
def leave (srv : Server) (closing : Bool) : World :=
  if closing then
    match srv.broker.close srv.world with
    | (_, b, w) => b.destroy w
  else srv.world

def restart (srv : Server) (closing : Bool) : Result Unit × Server :=
  match Broker.new srv.broker.basePath srv.broker.order (srv.leave closing) with
  | (b, w) =>
    match b.load w with
    | (res, b, w) => (res, ⟨b, w⟩)

def step (srv : Server) : Request → Response × Server
  | .tick seconds => (.ticked, { srv with world := { srv.world with now := srv.world.now + seconds } })
  | .createPartition request =>
    match srv.broker.createPartition request srv.world with
    | (res, b, w) => (.created res, ⟨b, w⟩)
  | .deletePartition key =>
    match srv.broker.deletePartition key srv.world with
    | (res, b, w) => (.deleted res, ⟨b, w⟩)
  | .deleteTopic topic =>
    match srv.broker.deleteTopic topic srv.world with
    | (res, b, w) => (.deleted res, ⟨b, w⟩)
  | .sendMessage key payload =>
    match srv.broker.sendMessage key payload srv.world with
    | (response, b, w) => (.sent response, ⟨b, w⟩)
  | .getMessage key offset =>
    match srv.broker.getMessage key offset srv.world with
    | (response, w) => (.message response, { srv with world := w })
  | .getOffsets key => (.offsets (srv.broker.getOffsets key), srv)
  | .restart closing =>
    match srv.restart closing with
    | (res, srv) => (.loaded res, srv)

/-- A step whose calls are answered by `outcomes`, and then normally. -/
def stepWith (srv : Server) (x : Request × List Outcome) : Response × Server :=
  match step { srv with world := { srv.world with outcomes := x.2 } } x.1 with
  | (r, srv) => (r, { srv with world := { srv.world with outcomes := [] } })

end Server

end MyKafka
