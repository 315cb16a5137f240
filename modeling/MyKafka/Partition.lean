import Mathlib.Data.List.Sort
import MyKafka.FileName
import MyKafka.Segment

/-!
# Partitions

A partition is a directory of segments in order of base offset; the last one is active. Retention
deletes segments that are not active, by age or while the partition is too large.
-/

namespace MyKafka

open Posix Decimal

/-- `strtoll` clamps to the range of `int64_t`; a zero must be written with zeros only. -/
def detectBaseOffset (s : Str) : ℤ :=
  let res := max (-2 ^ 63) (min (2 ^ 63 - 1) (leadingInt s))
  if res = 0 ∧ s.any (fun c => c ≠ '0') then -1 else res

def fillFilesList (w : World) (rawPath : RawPath) : List ℤ :=
  let logs := (w.listing rawPath).filter (fun n =>
    w.isRegular (rawPath.child n) && decide (extension n = logExtension))
  ((logs.map (fun n => detectBaseOffset (stem n))).filter (fun b => 0 ≤ b)).insertionSort (· ≤ ·)

/-- The segments are `older` and then the active one, once there is an active one. -/
structure Partition where
  cancel : Bool
  maxSegmentSize : ℤ
  maxPartitionSize : ℤ
  segmentTtl : ℤ
  physicalSize : ℤ
  path : RawPath
  older : List Segment
  activeSegment : Option Segment

namespace Partition

def new (path : RawPath) (maxSegmentSize maxPartitionSize segmentTtl : ℤ) : Partition where
  cancel := false
  maxSegmentSize := maxSegmentSize
  maxPartitionSize := maxPartitionSize
  segmentTtl := segmentTtl
  physicalSize := 0
  path := path
  older := []
  activeSegment := none

def segments (p : Partition) : List Segment := p.older ++ p.activeSegment.toList

/-- Whether `cleanOldSegments` selects a segment that is not active. -/
def outdated (p : Partition) (s : Segment) (now : ℤ) : Prop :=
  (p.segmentTtl ≠ 0 ∧ p.segmentTtl < now - s.mtime) ∨
    (p.maxPartitionSize ≠ 0 ∧ p.maxPartitionSize < p.physicalSize)

instance (p : Partition) (s : Segment) (now : ℤ) : Decidable (p.outdated s now) :=
  inferInstanceAs (Decidable (_ ∨ _))

/-- The pass of `cleanOldSegments` over the segments that are not active; the kept ones are given
back in `older`. A segment whose deletion fails is kept in the state that left it. -/
def cleanSegments : List Segment → Partition → World → Result Unit × Partition × World
  | [], p, w => (.ok (), p, w)
  | s :: ss, p, w =>
    if p.outdated s w.now then
      match s.deleteSegment w with
      | (.error e, s, w) =>
        match cleanSegments ss { p with older := p.older ++ [s] } w with
        | (.error e, p, w) => (.error e, p, w)
        | (.ok _, p, w) => (.error e, p, w)
      | (.ok _, t, w) =>
        cleanSegments ss { p with physicalSize := p.physicalSize - s.size } (t.destroy w)
    else cleanSegments ss { p with older := p.older ++ [s] } w

def cleanOldSegments (p : Partition) (w : World) : Result Unit × Partition × World :=
  cleanSegments p.older { p with older := [] } w

/-- The loop of `open` over the base offsets found in the directory. -/
def openSegments : List ℤ → Partition → World → Result Unit × Partition × World
  | [], p, w => (.ok (), p, w)
  | base :: bases, p, w =>
    match (Segment.new p.path base p.maxSegmentSize).open w with
    | (.error e, s, w) => (.error e, p, s.destroy w)
    | (.ok _, s, w) =>
      openSegments bases { p with
        physicalSize := p.physicalSize + s.size
        older := p.older ++ [s] } w

/-- `open` once the directory is there. -/
def openFiles (p : Partition) (w : World) : Result Unit × Partition × World :=
  match openSegments (fillFilesList w p.path) p w with
  | (.error e, p, w) => (.error e, p, w)
  | (.ok _, p, w) =>
    match p.older.getLast? with
    | some s =>
      match { p with older := p.older.dropLast, activeSegment := some s }.cleanOldSegments w with
      | (_, p, w) => (.ok (), p, w)
    | none =>
      match (Segment.new p.path 0 p.maxSegmentSize).open w with
      | (.error e, s, w) => (.error e, p, s.destroy w)
      | (.ok _, s, w) =>
        match { p with activeSegment := some s }.cleanOldSegments w with
        | (_, p, w) => (.ok (), p, w)

def «open» (p : Partition) (w : World) : Result Unit × Partition × World :=
  match w.createDirectories p.path with
  | (false, w) => (Utils.err .invalidFilename "", p, w)
  | (true, w) => p.openFiles w

def closedError {α : Type} : Result α := Utils.err .partitionError "Partition is closed"

/-- The part of `write` that rolls to a new segment when the active one is full. -/
def roll (p : Partition) (active : Segment) (w : World) : Result Unit × Partition × World :=
  if active.isFull then
    match (Segment.new p.path active.nextOffset p.maxSegmentSize).open w with
    | (.error e, s, w) => (.error e, p, s.destroy w)
    | (.ok _, s, w) =>
      let p := { p with older := p.older ++ [active], activeSegment := some s }
      if p.segmentTtl ≠ 0 ∨ p.maxPartitionSize ≠ 0 then
        match p.cleanOldSegments w with
        | (_, p, w) => (.ok (), p, w)
      else (.ok (), p, w)
  else (.ok (), p, w)

/-- The assertion that there is an active segment. -/
def assertFailure {α : Type} : Result α := Utils.err .partitionError "active_segment_"

/-- The offset given to the message. -/
def write (p : Partition) (payload : Payload) (w : World) : Result ℤ × Partition × World :=
  if p.cancel then (closedError, p, w)
  else
    match p.activeSegment with
    | none => (assertFailure, p, w)
    | some active =>
      match p.roll active w with
      | (.error e, p, w) => (.error e, p, w)
      | (.ok _, p, w) =>
        match p.activeSegment with
        | none => (assertFailure, p, w)
        | some active =>
          match active.write payload w with
          | (.error e, s, w) => (.error e, { p with activeSegment := some s }, w)
          | (.ok offset, s, w) =>
            (.ok offset, { p with
              activeSegment := some s
              physicalSize := p.physicalSize + (payload.length + Segment.headerSize) }, w)

/-! ## Reading -/

/-- The loop of `findSegment`; `none` when the fuel is spent before the loop leaves. -/
def findSegmentLoop (segments : List Segment) (searchOffset : ℤ) :
    ℕ → ℤ → ℤ → ℤ → ℤ → Option Segment → Option (Option Segment)
  | 0, _, _, _, _, _ => none
  | fuel + 1, first, last, pos, foundOffset, found =>
    if first ≤ last ∧ foundOffset ≠ searchOffset then
      match segments[pos.toNat]? with
      | none => some found
      | some s =>
        if searchOffset < s.baseOffset then
          findSegmentLoop segments searchOffset fuel first (pos - 1)
            (Int.tdiv (first + (pos - 1)) 2) s.baseOffset found
        else
          findSegmentLoop segments searchOffset fuel (pos + 1) last
            (Int.tdiv (pos + 1 + last) 2) s.baseOffset (some s)
    else some found

def findSegment (p : Partition) (searchOffset : ℤ) : Option Segment :=
  if p.segments = [] then none
  else
    let last : ℤ := p.segments.length - 1
    (findSegmentLoop p.segments searchOffset (p.segments.length + 1) 0 last
      (Int.tdiv (0 + last) 2) (-1) none).getD none

def readAt (p : Partition) (offset : ℤ) (w : World) : Result Unit × Payload × World :=
  if p.cancel then (closedError, [], w)
  else
    match p.findSegment offset with
    | none =>
      (Utils.err .partitionError ("Can't find segment for offset " ++ toString offset), [], w)
    | some s => s.readAt (offset - s.baseOffset) w

def newestOffset (p : Partition) : ℤ :=
  if p.cancel then -1
  else
    match p.activeSegment with
    | none => -1
    | some s => s.nextOffset

def oldestOffset (p : Partition) : ℤ :=
  if p.cancel then -1
  else
    match p.segments with
    | [] => -1
    | s :: _ => s.baseOffset

/-! ## Closing -/

/-- The loop of `close`: the first error leaves every segment in the list. -/
def closeSegments : List Segment → World → Result Unit × List Segment × World
  | [], w => (.ok (), [], w)
  | s :: ss, w =>
    match s.close w with
    | (.error e, s, w) => (.error e, s :: ss, w)
    | (.ok _, s, w) =>
      match closeSegments ss (s.destroy w) with
      | (res, ss, w) => (res, s :: ss, w)

/-- After an error the code keeps pointers to the segments it has freed, and a second call uses them;
the model keeps the values they had, of which a second call makes nothing. -/
def close (p : Partition) (w : World) : Result Unit × Partition × World :=
  match closeSegments p.segments w with
  | (.error e, ss, w) =>
    (.error e, { p with cancel := true, activeSegment := none, physicalSize := 0, older := ss }, w)
  | (.ok _, _, w) =>
    (.ok (), { p with cancel := true, activeSegment := none, physicalSize := 0, older := [] }, w)

/-- The destructor. -/
def destroy (p : Partition) (w : World) : World := (p.close w).2.2

def deletePartition (p : Partition) (w : World) : Result Unit × Partition × World :=
  match p.close w with
  | (.error e, p, w) => (.error e, p, w)
  | (.ok _, p, w) => (.ok (), p, w.removeAll p.path)

end Partition

end MyKafka
