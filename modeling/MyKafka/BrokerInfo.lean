import MyKafka.Broker

/-!
# What a broker tells of itself

The text of `BrokerInfo`: a line for each partition and a line for each config file. The leaders and
the replicas of a topic are never set.
-/

/-- The number in a descriptor field. -/
def Posix.Desc.number : Posix.Desc → ℤ
  | .closed => -1
  | .live num _ | .stale num => num

namespace MyKafka

open Posix Decimal

namespace Utils

/-- The loop of `vecToStr`. -/
def vecToStrLoop : Bool → List Str → Str
  | _, [] => []
  | first, elt :: vec => (if first then [] else [',']) ++ elt ++ vecToStrLoop false vec

def vecToStr (vec : List Str) : Str := '[' :: vecToStrLoop true vec ++ [']']

end Utils

namespace ConfigManager

/-- The line of one file. -/
def dumpLine (key : TopicPartition) (fd : ℤ) (info : RawInfo) : Str :=
  key.toString ++ ": fd: ".toList ++ decimalInt fd ++
    ", max_seg_size: ".toList ++ decimalInt info.maxSegmentSize.toInt ++
    ", max_part_size: ".toList ++ decimalInt info.maxPartitionSize.toInt ++
    ", segment_ttl: ".toList ++ decimalInt info.segmentTtl.toInt ++
    ", commit_offset: ".toList ++ decimalInt info.commitOffset.toInt ++ ['\n']

def dump (c : ConfigManager) : Str :=
  c.keys.flatMap fun key =>
    match c.configs.lookup key with
    | none => []
    | some cfg => dumpLine key cfg.fd.number cfg.info

end ConfigManager

structure BrokerInfoResponse where
  error : Result Unit
  dump : Str

namespace Broker

/-- The line of one partition. -/
def dumpLine (key : TopicPartition) (newest oldest size : ℤ) : Str :=
  key.toString ++ ": leader: ".toList ++ decimalInt 0 ++
    ", pref_leader:".toList ++ decimalInt 0 ++
    ", replicas: ".toList ++ Utils.vecToStr [] ++
    ", isr: ".toList ++ Utils.vecToStr [] ++
    ", newestOffset: ".toList ++ decimalInt newest ++
    ", oldestOffset: ".toList ++ decimalInt oldest ++
    ", size: ".toList ++ decimalInt size ++ ['\n']

def topicsTitle : Str := "== Topics/Partitions ==\n".toList

def configTitle : Str := "== Config ==\n".toList

/-- The first part of `dump`. -/
def dumpTopics (b : Broker) : Str :=
  topicsTitle ++ b.keys.flatMap fun key =>
    match b.topics.lookup key with
    | none => []
    | some partition =>
      dumpLine key partition.newestOffset partition.oldestOffset partition.physicalSize

def dump (b : Broker) : Str :=
  b.dumpTopics ++ configTitle ++ b.configManager.dump

def getTopicInfo (b : Broker) : BrokerInfoResponse := ⟨.ok (), b.dump⟩

end Broker

end MyKafka
