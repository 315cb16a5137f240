import MyKafka.Decimal
import MyKafka.Index

/-!
# Segments

A segment is a log of records, each a 12-byte header and a payload, and the index of that log. The
log is appended to through one descriptor and read through another; the index is rebuilt from the
log whenever the segment is opened.
-/

namespace MyKafka

open Posix LittleEndian Decimal

/-- `%020` followed by the 64-bit format: a sign takes one of the twenty characters. -/
def padded20 (n : ℤ) : List Char :=
  if n < 0 then '-' :: padded 19 n.natAbs else padded 20 n.natAbs

def indexExtension : List Char := ['.', 'i', 'n', 'd', 'e', 'x']

def logExtension : List Char := ['.', 'l', 'o', 'g']

def getIndexFilename (path : RawPath) (baseOffset : ℤ) : RawPath :=
  path.child (padded20 baseOffset ++ indexExtension)

def getLogFilename (path : RawPath) (baseOffset : ℤ) : RawPath :=
  path.child (padded20 baseOffset ++ logExtension)

structure Segment where
  fd : Desc
  fdRead : Desc
  nextOffset : ℤ
  position : ℤ
  physicalSize : ℤ
  mtime : ℤ
  maxSize : ℤ
  filename : RawPath
  index : Index

/-- The value of a field of `width` bytes after the low bytes of it were overwritten. -/
def overlay (width : ℕ) (old : ℤ) (bytes : List UInt8) : ℤ :=
  fromLE (bytes ++ (toLE width old).drop bytes.length)

namespace Segment

def offsetSize : ℕ := 8
def sizeSize : ℕ := 4
def headerSize : ℕ := offsetSize + sizeSize

def new (path : RawPath) (baseOffset maxSize : ℤ) : Segment where
  fd := .closed
  fdRead := .closed
  nextOffset := baseOffset
  position := 0
  physicalSize := 0
  mtime := 0
  maxSize := maxSize
  filename := getLogFilename path baseOffset
  index := .new (getIndexFilename path baseOffset) baseOffset 0

def baseOffset (s : Segment) : ℤ := s.index.baseOffset

def size (s : Segment) : ℤ := s.physicalSize

def isFull (s : Segment) : Prop := s.maxSize < s.position

instance (s : Segment) : Decidable s.isFull := inferInstanceAs (Decidable (_ < _))

def logText (s : Segment) (before : String) : String := before ++ pathText s.filename

/-! ## Rebuilding the index -/

/-- The loop of `reconstructIndexAndGetLastOffset` from the file position `cursor`; `none` when
the fuel is spent before the loop leaves. -/
def reconstructLoop : ℕ → Segment → ℕ → World → Option (Result Unit × Segment × World)
  | 0, _, _, _ => none
  | fuel + 1, s, cursor, w =>
    match w.read s.fd cursor offsetSize with
    | (none, w) => some (Utils.err .logError (s.logText "Can't read offset from log "), s, w)
    | (some bytes, w) =>
      if bytes = [] then some (.ok (), s, w)
      else
        let s := { s with nextOffset := overlay offsetSize s.nextOffset bytes }
        let cursor := cursor + bytes.length
        match w.read s.fd cursor sizeSize with
        | (none, w) => some (Utils.err .logError (s.logText "Can't read size from log "), s, w)
        | (some bytes, w) =>
          if bytes = [] then
            some (Utils.err .logError (s.logText "Can't read size from log "), s, w)
          else
            let size := overlay sizeSize (-1) bytes
            let cursor := cursor + bytes.length
            match s.index.write s.nextOffset s.position w with
            | (.error e, index, w) => some (.error e, { s with index := index }, w)
            | (.ok _, index, w) =>
              let s := { s with
                index := index
                position := s.position + (size + headerSize)
                nextOffset := toInt64 (s.nextOffset + 1) }
              match w.lseek s.fd (cursor + size) with
              | (false, w) => some (.ok (), s, w)
              | (true, w) => reconstructLoop fuel s (cursor + size).toNat w

/-- The number of entries an index still takes. -/
def room (x : Index) : ℕ := ((x.size - x.position + (Index.entryWidth - 1)) / Index.entryWidth).toNat

def reconstructIndexAndGetLastOffset (s : Segment) (w : World) : Result Unit × Segment × World :=
  match w.lseek s.fd 0 with
  | (false, w) => (Utils.err .logError (s.logText "Can't seek at start of log "), s, w)
  | (true, w) => (reconstructLoop (room s.index + 1) s 0 w).getD (.ok (), s, w)

/-! ## Opening and closing -/

/-- The exit of `open` after a failed rebuild: both descriptors are closed, their numbers stay. -/
def abandon (s : Segment) (w : World) (e : Error) : Result Unit × Segment × World :=
  match w.close s.fd with
  | (false, w) =>
    (Utils.err .fileError
      (s.logText "Can't close file after a failed index reconstruct " ++ " because: "),
      { s with fd := s.fd.released }, w)
  | (true, w) =>
    match w.close s.fdRead with
    | (false, w) =>
      (Utils.err .fileError
        (s.logText "Can't close read-only file after a failed index reconstruct " ++ " because: "),
        { s with fd := s.fd.released, fdRead := s.fdRead.released }, w)
    | (true, w) => (.error e, { s with fd := s.fd.released, fdRead := s.fdRead.released }, w)

/-- The part of `open` after the index is open and emptied. -/
def openLog (s : Segment) (w : World) : Result Unit × Segment × World :=
  match w.openCreate s.filename with
  | (.closed, w) =>
    (Utils.err .fileError (s.logText "Can't open log " ++ " because: "), { s with fd := .closed }, w)
  | (fd, w) =>
    let s := { s with fd := fd }
    match w.fstat fd with
    | (none, w) => (Utils.err .fileError (s.logText "Can't stat log " ++ " because: "), s, w)
    | (some buf, w) =>
      let s := { s with physicalSize := buf.size, mtime := buf.mtime }
      match w.openRead s.filename with
      | (.closed, w) =>
        match closeOnError w s.fd .fileError (s.logText "Can't open read-only log " ++ " because: ")
            (s.logText "Can't close file after a failed read-only open log " ++ " because: ") with
        | (e, w) => (e, { s with fd := s.fd.released, fdRead := .closed }, w)
      | (fdRead, w) =>
        match { s with fdRead := fdRead }.reconstructIndexAndGetLastOffset w with
        | (.error e, s, w) => s.abandon w e
        | (.ok _, s, w) => (.ok (), s, w)

def «open» (s : Segment) (w : World) : Result Unit × Segment × World :=
  match s.index.open w with
  | (.error e, index, w) => (.error e, { s with index := index }, w)
  | (.ok _, index, w) =>
    match index.sanityCheck w with
    | .error e => (.error e, { s with index := index }, w)
    | .ok _ =>
      match index.truncateEntries 0 with
      | (.error e, index) => (.error e, { s with index := index }, w)
      | (.ok _, index) => { s with index := index }.openLog w

def close (s : Segment) (w : World) : Result Unit × Segment × World :=
  if s.fd = .closed then (.ok (), s, w)
  else
    match w.close s.fd with
    | (false, w) =>
      (Utils.err .fileError (s.logText "Can't close log file " ++ " because: "),
        { s with fd := s.fd.released }, w)
    | (true, w) =>
      match w.close s.fdRead with
      | (false, w) =>
        (Utils.err .fileError (s.logText "Can't close read-only log file " ++ " because: "),
          { s with fd := s.fd.released, fdRead := s.fdRead.released }, w)
      | (true, w) =>
        match s.index.close w with
        | (res, index, w) =>
          (res, { s with
            fd := .closed
            fdRead := .closed
            position := 0
            mtime := 0
            physicalSize := 0
            index := index }, w)

/-- The destructor, and then that of its index. -/
def destroy (s : Segment) (w : World) : World :=
  match s.close w with
  | (_, s, w) => (s.index.close w).2.2

/-- The error of the close, if any, is dropped. -/
def deleteSegment (s : Segment) (w : World) : Result Unit × Segment × World :=
  match s.close w with
  | (_, s, w) =>
    match w.unlink s.filename with
    | (false, w) =>
      (Utils.err .fileError (s.logText "Can't delete log file " ++ " because: "), s, w)
    | (true, w) =>
      match s.index.deleteIndex w with
      | (res, w) => (res, s, w)

/-! ## Writing -/

/-- The payload is written with the size it was given as an `int32_t`: a negative one makes the
call fail. -/
def appendPayload (w : World) (fd : Desc) (payload : Payload) (payloadSize : ℤ) : ℤ × World :=
  if payloadSize < 0 then (-1, w.served.2) else w.append fd (payload.take payloadSize.toNat)

/-- The overload that takes a buffer and its size; it gives the offset of the record. -/
def writeBuffer (s : Segment) (payload : Payload) (payloadSize : ℤ) (w : World) :
    Result ℤ × Segment × World :=
  match w.append s.fd (toLE offsetSize s.nextOffset ++ toLE sizeSize payloadSize) with
  | (n, w) =>
    if n ≠ headerSize then
      (Utils.err .logError
        (s.logText "Can't write payload offset/size to log " ++ " because: "), s, w)
    else
      match appendPayload w s.fd payload payloadSize with
      | (n, w) =>
        if n ≠ payloadSize then
          (Utils.err .logError (s.logText "Can't write payload to log " ++ " because: "), s, w)
        else
          match s.index.write s.nextOffset s.position w with
          | (.error e, index, w) => (.error e, { s with index := index }, w)
          | (.ok _, index, w) =>
            (.ok s.nextOffset, { s with
              index := index
              nextOffset := toInt64 (s.nextOffset + 1)
              position := s.position + (headerSize + payloadSize)
              physicalSize := s.physicalSize + (headerSize + payloadSize) }, w)

/-- The size of the payload is narrowed to an `int32_t`. -/
def write (s : Segment) (payload : Payload) (w : World) : Result ℤ × Segment × World :=
  s.writeBuffer payload (toInt32 payload.length) w

/-! ## Reading -/

/-- `(begin + end) / 2`. -/
def middle (first last : ℤ) : ℤ := Int.tdiv (toInt64 (first + last)) 2

/-- The loop of `findEntry`; `none` when the fuel is spent before the loop leaves. -/
def findEntryLoop (x : Index) (searchOffset : ℤ) (w : World) :
    ℕ → ℤ → ℤ → ℤ → ℤ → ℤ → Option (Result (ℤ × ℤ))
  | 0, _, _, _, _, _ => none
  | fuel + 1, first, last, pos, relOffset, relPosition =>
    if first ≤ last ∧ relOffset ≠ searchOffset then
      match x.read (toInt64 (pos * Index.entryWidth)) w with
      | .error e => some (.error e)
      | .ok (offset, relPosition) =>
        let relOffset := offset - x.baseOffset
        if searchOffset < relOffset then
          findEntryLoop x searchOffset w fuel first (pos - 1) (middle first (pos - 1)) relOffset
            relPosition
        else
          findEntryLoop x searchOffset w fuel (pos + 1) last (middle (pos + 1) last) relOffset
            relPosition
    else some (.ok (relOffset, relPosition))

/-- `relPosition` is the value its output variable holds at the call. -/
def findEntry (s : Segment) (relPosition searchOffset : ℤ) (w : World) : Result (ℤ × ℤ) :=
  let last := toInt64 (s.nextOffset - s.index.baseOffset - 1)
  match (findEntryLoop s.index searchOffset w (last.toNat + 2) 0 last (middle 0 last) (-1)
      relPosition).getD (.ok (-1, relPosition)) with
  | .error e => .error e
  | .ok (relOffset, relPosition) =>
    if relOffset ≠ searchOffset then .ok (-1, -1) else .ok (relOffset, relPosition)

/-- The vector is handed in empty; a failed read may leave it resized and partly filled. -/
def readAt (s : Segment) (relativeOffset : ℤ) (w : World) : Result Unit × Payload × World :=
  match s.findEntry (-1) relativeOffset w with
  | .error e => (.error e, [], w)
  | .ok (relOffset, relPosition) =>
    if relOffset = -1 ∨ relPosition = -1 then
      (Utils.err .logError ("Can't find offset " ++ toString relativeOffset ++
        s.logText " when reading log "), [], w)
    else
      match w.lseek s.fdRead relPosition with
      | (false, w) =>
        (Utils.err .logError ("Can't seek at " ++ toString relPosition ++
          s.logText " in payload when reading " ++ " because: "), [], w)
      | (true, w) =>
        match w.read s.fdRead relPosition.toNat headerSize with
        | (none, w) =>
          (Utils.err .logError (s.logText "Can't read offset/size from log " ++ " because: "),
            [], w)
        | (some bytes, w) =>
          let entry := bytes ++ (toLE offsetSize (-1) ++ toLE sizeSize (-1)).drop bytes.length
          let entryOffset := fromLE (entry.take offsetSize)
          let entrySize := fromLE (entry.drop offsetSize)
          if entryOffset < 0 ∨ entrySize < 0 then
            (Utils.err .logError (s.logText "Can't read offset/size from log " ++ " because: "),
              [], w)
          else
            match w.read s.fdRead (relPosition.toNat + bytes.length) entrySize.toNat with
            | (none, w) =>
              (Utils.err .logError (s.logText "Can't read payload from log " ++ "! (-1 != " ++
                toString entrySize ++ ") error is: "), List.replicate entrySize.toNat 0, w)
            | (some payload, w) =>
              if (payload.length : ℤ) ≠ entrySize then
                (Utils.err .logError (s.logText "Can't read payload from log " ++ "! (" ++
                  toString payload.length ++ " != " ++ toString entrySize ++ ") error is: "),
                  payload ++ List.replicate (entrySize.toNat - payload.length) 0, w)
              else (.ok (), payload, w)

end Segment

end MyKafka
