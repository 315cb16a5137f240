import Mathlib.Data.Int.Lemmas
import MyKafka.Decimal
import MyKafka.Error
import MyKafka.FileName

/-!
# The config store

One 32-byte file for each topic and partition holds the settings of the partition and the offset of
its last message. The files stay mapped while the store is open, and their names are the keys.
-/

namespace MyKafka

open Posix LittleEndian Decimal

structure TopicPartition where
  topic : Str
  partition : Int32
  deriving DecidableEq

namespace TopicPartition

def toString (key : TopicPartition) : Str := key.topic ++ '-' :: decimalInt key.partition.toInt

end TopicPartition

structure RawInfo where
  maxSegmentSize : Int64
  maxPartitionSize : Int64
  segmentTtl : Int64
  commitOffset : Int64
  deriving DecidableEq

namespace RawInfo

def width : ℕ := 32

def bytes (info : RawInfo) : List UInt8 :=
  toLE 8 info.maxSegmentSize.toInt ++ toLE 8 info.maxPartitionSize.toInt ++
    toLE 8 info.segmentTtl.toInt ++ toLE 8 info.commitOffset.toInt

/-- What a mapped file holds. An empty file has no page to load from and kills the process; it is
taken for one that holds zeros. -/
def load (w : World) (addr : Addr) : RawInfo where
  maxSegmentSize := .ofInt ((w.load addr 0 8).getD 0)
  maxPartitionSize := .ofInt ((w.load addr 8 8).getD 0)
  segmentTtl := .ofInt ((w.load addr 16 8).getD 0)
  commitOffset := .ofInt ((w.load addr 24 8).getD 0)

end RawInfo

structure CfgInfo where
  fd : Desc
  addr : Addr
  info : RawInfo

/-- The order in which an unordered map lists its keys. -/
abbrev KeyOrder := ListOrder TopicPartition

structure ConfigManager where
  basePath : RawPath
  configs : AList (fun _ : TopicPartition => CfgInfo)
  order : KeyOrder

def cfgExtension : List Char := ['.', 'c', 'f', 'g']

/-- `insert` of an unordered map leaves the value of a key that is present. -/
def insertNew {α β : Type} [DecidableEq α] (m : AList (fun _ : α => β)) (a : α) (b : β) :
    AList (fun _ : α => β) :=
  if a ∈ m then m else m.insert a b

namespace ConfigManager

/-- The constructor, which lets the exception of `create_directories` out. -/
def new (path : RawPath) (order : KeyOrder) (w : World) : ConfigManager × World :=
  (⟨path, ∅, order⟩, (w.createDirectories path).2)

def keys (c : ConfigManager) : List TopicPartition := c.order.order c.configs.keys

/-- `base_path_ + "/" + key.toString() + ".cfg"`. -/
def path (c : ConfigManager) (key : TopicPartition) : RawPath :=
  ⟨c.basePath.base, c.basePath.comps ++ components (key.toString ++ cfgExtension)⟩

def errorAt {α : Type} (c : ConfigManager) (key : TopicPartition) (code : ErrCode)
    (msg : String) : Result α :=
  Utils.err code (msg ++ pathText (c.path key) ++ " because: ")

/-- An error exit of `create` and `open`: the descriptor is closed and forgotten. -/
def abandon (c : ConfigManager) (key : TopicPartition) (fd : Desc) (msg closing : String)
    (w : World) : Result Unit × ConfigManager × World :=
  match w.close fd with
  | (false, w) => (c.errorAt key .fileError closing, c, w)
  | (true, w) => (c.errorAt key .fileError msg, c, w)

def create (c : ConfigManager) (key : TopicPartition) (segSize partSize ttl : Int64) (w : World) :
    Result Unit × ConfigManager × World :=
  if w.exists? (c.path key) then
    (Utils.err .fileError ("File already exists: " ++ pathText (c.path key)), c, w)
  else
    match w.openCreate (c.path key) with
    | (.closed, w) => (c.errorAt key .fileError "Can't open config file ", c, w)
    | (fd, w) =>
      match w.fstat fd with
      | (none, w) =>
        c.abandon key fd "Can't stat config file " "Can't close during failed stat config file " w
      | (some _, w) =>
        match w.ftruncate fd RawInfo.width with
        | (false, w) =>
          c.abandon key fd "Can't resize config file "
            "Can't close during failed resize config file " w
        | (true, w) =>
          match w.lseek fd (RawInfo.width - 1) with
          | (false, w) =>
            c.abandon key fd "Can't seek config file "
              "Can't close during failed seek config file " w
          | (true, w) =>
            match w.pwrite fd (RawInfo.width - 1) [0] with
            | (n, w) =>
              if n < 0 then
                c.abandon key fd "Can't write at config file end "
                  "Can't close during failed write 0 at the config file end " w
              else
                match w.mmap fd RawInfo.width with
                | (.failed, w) =>
                  c.abandon key fd "Error mapping the file " "Can't close during failed mmap " w
                | (addr, w) =>
                  let info : RawInfo := ⟨segSize, partSize, ttl, -1⟩
                  (.ok (), { c with configs := insertNew c.configs key ⟨fd, addr, info⟩ },
                    w.store addr 0 info.bytes)

def «open» (c : ConfigManager) (key : TopicPartition) (w : World) :
    Result Unit × ConfigManager × World :=
  if ¬ w.isRegular (c.path key) then
    (Utils.err .fileNotFound ("File not exists: " ++ pathText (c.path key)), c, w)
  else
    match w.openCreate (c.path key) with
    | (.closed, w) => (c.errorAt key .fileError "Can't open config file ", c, w)
    | (fd, w) =>
      match w.mmap fd RawInfo.width with
      | (.failed, w) =>
        c.abandon key fd "Error mapping the file " "Can't close during failed mmap " w
      | (addr, w) =>
        (.ok (), { c with configs := insertNew c.configs key ⟨fd, addr, RawInfo.load w addr⟩ }, w)

/-- The conversion of a `long` that `atoi` makes. -/
def atoi (s : Str) : Int32 := .ofInt (max (-2 ^ 63) (min (2 ^ 63 - 1) (leadingInt s)))

/-- The key a file name stands for; `none` where `load` skips the file. -/
def decodeName (name : Name) : Option TopicPartition :=
  if extension name ≠ cfgExtension then none
  else
    match splitLast '-' (stem name) with
    | none => none
    | some (topic, rawPartition) =>
      let partition := atoi rawPartition
      if partition = 0 ∧ rawPartition.any (fun c => c ≠ '0') then none
      else some ⟨topic, partition⟩

/-- The loop of `load`: what `open` answers is dropped. -/
def loadFiles : List TopicPartition → ConfigManager → World → ConfigManager × World
  | [], c, w => (c, w)
  | key :: keys, c, w =>
    match c.open key w with
    | (_, c, w) => loadFiles keys c w

def load (c : ConfigManager) (w : World) : ConfigManager × World :=
  let names := (w.listing c.basePath).filter (fun n => w.isRegular (c.basePath.child n))
  loadFiles (names.filterMap decodeName) c w

def notFound {α : Type} (key : TopicPartition) : Result α :=
  Utils.err .notFound ("Can't find info for key " ++ String.ofList key.toString ++ "!")

def get (c : ConfigManager) (key : TopicPartition) : Result RawInfo :=
  match c.configs.lookup key with
  | none => notFound key
  | some found => .ok found.info

def update (c : ConfigManager) (key : TopicPartition) (info : RawInfo) (w : World) :
    Result Unit × ConfigManager × World :=
  match c.configs.lookup key with
  | none => (notFound key, c, w)
  | some found =>
    (.ok (), { c with configs := c.configs.replace key { found with info := info } },
      w.store found.addr 0 info.bytes)

def updateCommitOffset (c : ConfigManager) (key : TopicPartition) (commitOffset : Int64)
    (w : World) : Result Unit × ConfigManager × World :=
  match c.configs.lookup key with
  | none => (notFound key, c, w)
  | some found =>
    (.ok (),
      { c with
        configs := c.configs.replace key
          { found with info := { found.info with commitOffset := commitOffset } } },
      w.store found.addr 24 (toLE 8 commitOffset.toInt))

/-- `close` of one file. The map still holds the same numbers afterwards, but the address is unmapped
and the descriptor closed. -/
def closeInfo (c : ConfigManager) (key : TopicPartition) (info : CfgInfo) (w : World) :
    Result Unit × CfgInfo × World :=
  match w.munmap info.addr with
  | (false, w) => (c.errorAt key .fileError "Can't unmap config ", info, w)
  | (true, w) =>
    match w.close info.fd with
    | (false, w) =>
      (c.errorAt key .fileError "Can't close ",
        { info with fd := info.fd.released, addr := info.addr.released }, w)
    | (true, w) => (.ok (), { info with fd := info.fd.released, addr := info.addr.released }, w)

/-- `close` of one key. -/
def closeKey (c : ConfigManager) (key : TopicPartition) (w : World) :
    Result Unit × ConfigManager × World :=
  match c.configs.lookup key with
  | none => (notFound key, c, w)
  | some found =>
    match c.closeInfo key found w with
    | (.error e, info, w) => (.error e, { c with configs := c.configs.replace key info }, w)
    | (.ok _, _, w) => (.ok (), { c with configs := c.configs.erase key }, w)

def remove (c : ConfigManager) (key : TopicPartition) (w : World) :
    Result Unit × ConfigManager × World :=
  match c.closeKey key w with
  | (.error e, c, w) => (.error e, c, w)
  | (.ok _, c, w) => (.ok (), c, w.remove (c.path key))

/-- The loop of `close`. -/
def closeFiles : List TopicPartition → ConfigManager → World → Result Unit × ConfigManager × World
  | [], c, w => (.ok (), c, w)
  | key :: keys, c, w =>
    match c.configs.lookup key with
    | none => closeFiles keys c w
    | some found =>
      match c.closeInfo key found w with
      | (.error e, info, w) => (.error e, { c with configs := c.configs.replace key info }, w)
      | (.ok _, info, w) => closeFiles keys { c with configs := c.configs.replace key info } w

def close (c : ConfigManager) (w : World) : Result Unit × ConfigManager × World :=
  match closeFiles c.keys c w with
  | (.error e, c, w) => (.error e, c, w)
  | (.ok _, c, w) => (.ok (), { c with configs := ∅ }, w)

end ConfigManager

end MyKafka
