import MyKafka.Error

/-!
# The index of a segment

`Index` keeps one 8-byte entry for each record of a log, a relative offset and a position, in a
file that is mapped at its full size while it is open and cut to its used length when it is closed.
-/

namespace MyKafka

open Posix LittleEndian

structure Index where
  size : ℤ
  baseOffset : ℤ
  position : ℤ
  fd : Desc
  addr : Addr
  filename : RawPath

namespace Index

def defaultSize : ℤ := 10 * 1024 * 1024
def offsetWidth : ℤ := 4
def positionWidth : ℤ := 4
def entryWidth : ℤ := offsetWidth + positionWidth

def new (filename : RawPath) (baseOffset size : ℤ) : Index where
  size := if size ≠ 0 then size else defaultSize
  baseOffset := baseOffset
  position := 0
  fd := .closed
  addr := .null
  filename := filename

/-- An error exit of `open`: the descriptor is closed but its number stays in `fd`. -/
def abandon (x : Index) (w : World) (msg closing : String) : Result Unit × Index × World :=
  match closeOnError w x.fd .fileError (msg ++ pathText x.filename ++ " because: ")
      (closing ++ pathText x.filename ++ " because: ") with
  | (e, w) => (e, { x with fd := x.fd.released }, w)

def «open» (x : Index) (w : World) : Result Unit × Index × World :=
  match w.openCreate x.filename with
  | (.closed, w) =>
    (Utils.err .fileError ("Can't open index " ++ pathText x.filename ++ " because: "),
      { x with fd := .closed }, w)
  | (fd, w) =>
    let x := { x with fd := fd }
    match w.fstat fd with
    | (none, w) => x.abandon w "Can't stat index " "Can't close during failed stat index "
    | (some buf, w) =>
      let x := { x with position := buf.size }
      let roundedSize := Utils.roundDownToMultiple x.size entryWidth
      match w.ftruncate fd roundedSize with
      | (false, w) => x.abandon w "Can't resize index " "Can't close during failed resize index "
      | (true, w) =>
        match w.lseek fd (roundedSize - 1) with
        | (false, w) => x.abandon w "Can't seek index " "Can't close during failed seek index "
        | (true, w) =>
          match w.pwrite fd (roundedSize - 1).toNat [0] with
          | (n, w) =>
            if n < 0 then
              x.abandon w "Can't write at index end "
                "Can't close during failed write 0 at the index end "
            else
              match w.mmap fd x.size with
              | (.failed, w) =>
                { x with addr := .failed }.abandon w "Error mapping the file "
                  "Can't close during failed mmap "
              | (addr, w) => (.ok (), { x with addr := addr }, w)

/-- Both fields are narrowed to 32 bits, and only then is the room checked. -/
def write (x : Index) (absoluteOffset position : ℤ) (w : World) : Result Unit × Index × World :=
  let relOffset := toInt32 (absoluteOffset - x.baseOffset)
  let relPosition := toInt32 position
  if x.size ≤ x.position then 
    (Utils.err .indexError
      ("Write overflow! (" ++ toString x.position ++ " >= " ++ toString x.size ++ ")"), x, w)
  else
    (.ok (), { x with position := x.position + offsetWidth + positionWidth },
      (w.store x.addr x.position.toNat (toLE 4 relOffset)).store x.addr
        (x.position + offsetWidth).toNat (toLE 4 relPosition))

/-- The absolute offset and the position of the entry stored at `relativeOffset`. -/
def read (x : Index) (relativeOffset : ℤ) (w : World) : Result (ℤ × ℤ) :=
  if x.size - entryWidth < relativeOffset then Utils.err .indexError "Read overflow!"
  else
    match w.load x.addr relativeOffset 4, w.load x.addr (relativeOffset + offsetWidth) 4 with
    | some relOffset, some relPosition => .ok (relOffset + x.baseOffset, relPosition)
    | _, _ => Utils.killed

def close (x : Index) (w : World) : Result Unit × Index × World :=
  if x.fd = .closed then (.ok (), x, w)
  else
    match w.munmap x.addr with
    | (false, w) =>
      (Utils.err .fileError ("Can't unmap index " ++ pathText x.filename ++ " because: "), x, w)
    | (true, w) =>
      -- the address is kept, but nothing is mapped there any more
      let x := { x with addr := x.addr.released }
      match w.ftruncate x.fd x.position with
      | (false, w) =>
        (Utils.err .fileError ("Can't resize index " ++ pathText x.filename ++ " because: "), x, w)
      | (true, w) =>
        match w.close x.fd with
        | (false, w) =>
          (Utils.err .fileError ("Can't close " ++ pathText x.filename ++ " because: "),
            { x with fd := x.fd.released }, w)
        | (true, w) => (.ok (), { x with fd := .closed }, w)

def sanityCheck (x : Index) (w : World) : Result Unit :=
  if x.position = 0 then .ok ()
  else if Int.tmod x.position entryWidth ≠ 0 then
    Utils.err .indexError "Index seems corrupted: position_ % ENTRY_WIDTH"
  else
    match x.read (x.position - entryWidth) w with
    | .error e => .error e
    | .ok (relOffset, _) =>
      if relOffset < x.baseOffset then
        Utils.err .indexError "Index seems corrupted: rel_offset < base_offset_"
      else .ok ()

def truncateEntries (x : Index) (nb : ℤ) : Result Unit × Index :=
  if x.position < nb * entryWidth then (Utils.err .indexError "Invalid truncate number!", x)
  else (.ok (), { x with position := nb * entryWidth })

def deleteIndex (x : Index) (w : World) : Result Unit × World :=
  match w.unlink x.filename with
  | (false, w) =>
    (Utils.err .fileError ("Can't delete index file " ++ pathText x.filename ++ " because: "), w)
  | (true, w) => (.ok (), w)

end Index

end MyKafka
