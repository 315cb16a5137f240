import MyKafka.ConfigManager
import MyKafka.Partition

/-!
# The broker

A broker holds the partitions of all topics, each in a directory of the base path named after its
key, and the config store in the directory `config` next to them. Its mutex serialises the requests,
so a run is a sequence of requests and restarts.
-/

namespace MyKafka

open Posix

structure TopicPartitionRequest where
  topic : Str
  partition : Int32
  maxSegmentSize : Int64
  maxPartitionSize : Int64
  segmentTtl : Int64
  deriving DecidableEq

structure GetOffsetsResponse where
  error : Result Unit
  firstOffset : ℤ
  lastOffset : ℤ
  commitOffset : ℤ

structure GetMessageResponse where
  error : Result Unit
  payload : Payload

structure SendMessageResponse where
  error : Result Unit
  offset : ℤ

structure Broker where
  basePath : RawPath
  topics : AList (fun _ : TopicPartition => Partition)
  configManager : ConfigManager
  order : KeyOrder

namespace Broker

def configName : Name := ['c', 'o', 'n', 'f', 'i', 'g']

def new (basePath : RawPath) (order : KeyOrder) (w : World) : Broker × World :=
  match ConfigManager.new (basePath.child configName) order w with
  | (c, w) => (⟨basePath, ∅, c, order⟩, w)

/-- `base_path_ + "/" + key`. -/
def partitionPath (b : Broker) (key : TopicPartition) : RawPath :=
  ⟨b.basePath.base, b.basePath.comps ++ components key.toString⟩

def keys (b : Broker) : List TopicPartition := b.order.order b.topics.keys

/-- A partition that fails to open is destroyed. -/
def createAndAddNewPartition (b : Broker) (key : TopicPartition)
    (maxSegmentSize maxPartitionSize segmentTtl : Int64) (w : World) :
    Result Unit × Broker × World :=
  match (Partition.new (b.partitionPath key) maxSegmentSize.toInt maxPartitionSize.toInt
      segmentTtl.toInt).open w with
  | (.error e, p, w) => (.error e, b, p.destroy w)
  | (.ok _, p, w) => (.ok (), { b with topics := b.topics.insert key p }, w)

/-- The loop of `load` over the config store. -/
def loadPartitions : List TopicPartition → Broker → World → Result Unit × Broker × World
  | [], b, w => (.ok (), b, w)
  | key :: keys, b, w =>
    match b.configManager.configs.lookup key with
    | none => loadPartitions keys b w
    | some cfg =>
      match b.createAndAddNewPartition key cfg.info.maxSegmentSize cfg.info.maxPartitionSize
          cfg.info.segmentTtl w with
      | (.error e, b, w) => (.error e, b, w)
      | (.ok _, b, w) => loadPartitions keys b w

def load (b : Broker) (w : World) : Result Unit × Broker × World :=
  match b.configManager.load w with
  | (c, w) => loadPartitions c.keys { b with configManager := c } w

def keyText (key : TopicPartition) : String := String.ofList key.toString

def unknownTopic {α : Type} (key : TopicPartition) : Result α :=
  Utils.err .topicError ("The topic " ++ keyText key ++ " don't exists!")

def createPartition (b : Broker) (request : TopicPartitionRequest) (w : World) :
    Result Unit × Broker × World :=
  let key : TopicPartition := ⟨request.topic, request.partition⟩
  if key ∈ b.topics then
    (Utils.err .topicError ("The topic/partition " ++ keyText key ++ " already exists!"), b, w)
  else
    match b.createAndAddNewPartition key request.maxSegmentSize request.maxPartitionSize
        request.segmentTtl w with
    | (.error e, b, w) => (.error e, b, w)
    | (.ok _, b, w) =>
      match b.configManager.create key request.maxSegmentSize request.maxPartitionSize
          request.segmentTtl w with
      | (res, c, w) => (res, { b with configManager := c }, w)

def deletePartition (b : Broker) (key : TopicPartition) (w : World) :
    Result Unit × Broker × World :=
  match b.topics.lookup key with
  | none => (unknownTopic key, b, w)
  | some partition =>
    match partition.deletePartition w with
    | (.error e, p, w) => (.error e, { b with topics := b.topics.replace key p }, w)
    | (.ok _, _, w) =>
      match b.configManager.remove key w with
      | (res, c, w) => (res, { b with topics := b.topics.erase key, configManager := c }, w)

/-- The loop of `deleteTopic` over the entries of the topic; entries leave `topics_` after it. -/
def deleteEntries : List TopicPartition → Broker → World → Result Unit × Broker × World
  | [], b, w => (.ok (), b, w)
  | key :: keys, b, w =>
    match b.topics.lookup key with
    | none => deleteEntries keys b w
    | some partition =>
      match partition.deletePartition w with
      | (.error e, p, w) => (.error e, { b with topics := b.topics.replace key p }, w)
      | (.ok _, p, w) =>
        match b.configManager.remove key w with
        | (.error e, c, w) =>
          (.error e, { b with topics := b.topics.replace key p, configManager := c }, w)
        | (.ok _, c, w) =>
          deleteEntries keys { b with topics := b.topics.replace key p, configManager := c } w

def eraseTopics : List TopicPartition → Broker → Broker
  | [], b => b
  | key :: keys, b => eraseTopics keys { b with topics := b.topics.erase key }

def deleteTopic (b : Broker) (topic : Str) (w : World) : Result Unit × Broker × World :=
  let deleteList := b.keys.filter (fun key => key.topic = topic)
  match deleteEntries deleteList b w with
  | (.error e, b, w) => (.error e, b, w)
  | (.ok _, b, w) => (.ok (), eraseTopics deleteList b, w)

def getOffsets (b : Broker) (key : TopicPartition) : GetOffsetsResponse :=
  match b.topics.lookup key with
  | none => ⟨unknownTopic key, 0, 0, 0⟩
  | some partition =>
    match b.configManager.get key with
    | .error e => ⟨.error e, partition.oldestOffset, partition.newestOffset - 1, 0⟩
    | .ok info =>
      ⟨.ok (), partition.oldestOffset, partition.newestOffset - 1, info.commitOffset.toInt⟩

def getMessage (b : Broker) (key : TopicPartition) (offset : Int64) (w : World) :
    GetMessageResponse × World :=
  match b.configManager.get key with
  | .error e => (⟨.error e, []⟩, w)
  | .ok info =>
    if info.commitOffset < offset then
      (⟨Utils.err .noMessage "No more messages available!", []⟩, w)
    else
      match b.topics.lookup key with
      | none => (⟨unknownTopic key, []⟩, w)
      | some partition =>
        match partition.readAt offset.toInt w with
        | (res, payload, w) => (⟨res, payload⟩, w)

def sendMessage (b : Broker) (key : TopicPartition) (payload : Payload) (w : World) :
    SendMessageResponse × Broker × World :=
  match b.topics.lookup key with
  | none => (⟨unknownTopic key, 0⟩, b, w)
  | some partition =>
    match partition.write payload w with
    | (.error e, p, w) => (⟨.error e, 0⟩, { b with topics := b.topics.replace key p }, w)
    | (.ok offset, p, w) =>
      match b.configManager.updateCommitOffset key (.ofInt offset) w with
      | (res, c, w) =>
        (⟨res, offset⟩, { b with topics := b.topics.replace key p, configManager := c }, w)

/-- The loop of `close` over the partitions. -/
def closePartitions : List TopicPartition → Broker → World → Result Unit × Broker × World
  | [], b, w => (.ok (), b, w)
  | key :: keys, b, w =>
    match b.topics.lookup key with
    | none => closePartitions keys b w
    | some partition =>
      match partition.close w with
      | (.error e, p, w) => (.error e, { b with topics := b.topics.replace key p }, w)
      | (.ok _, p, w) => closePartitions keys { b with topics := b.topics.replace key p } w

def close (b : Broker) (w : World) : Result Unit × Broker × World :=
  match closePartitions b.keys b w with
  | (.error e, b, w) => (.error e, b, w)
  | (.ok _, b, w) =>
    match b.configManager.close w with
    | (res, c, w) => (res, { b with configManager := c }, w)

/-- The destructors of the partitions that are left. -/
def destroyPartitions : List TopicPartition → Broker → World → World
  | [], _, w => w
  | key :: keys, b, w =>
    match b.topics.lookup key with
    | none => destroyPartitions keys b w
    | some partition => destroyPartitions keys b (partition.destroy w)

/-- The destructor, and then those of the config store and of the partitions. -/
def destroy (b : Broker) (w : World) : World :=
  match b.close w with
  | (_, b, w) =>
    match b.configManager.close w with
    | (_, c, w) => destroyPartitions b.keys { b with configManager := c } w

end Broker

end MyKafka
