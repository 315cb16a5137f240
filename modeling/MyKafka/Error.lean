import MyKafka.World

/-!
# Errors and small helpers

The error codes and messages of `mykafka::Error`, and the helpers of `Utils`. A function that
returns an error code is given as an `Except`: `ok` is the code `OK`. The text `strerror` adds to a
message depends on a thread-wide variable and is left out.
-/

namespace MyKafka

open Posix

abbrev Str := List Char

abbrev Payload := List UInt8

inductive ErrCode where
  | ok
  | invalidFilename
  | fileNotFound
  | fileError
  | indexError
  | logError
  | partitionError
  | topicError
  | notFound
  | noMessage
  /-- No code of `mykafka::Error`: the process is killed by the access it makes. -/
  | fault
  deriving DecidableEq

structure Error where
  code : ErrCode
  msg : String
  deriving DecidableEq

abbrev Result (α : Type) := Except Error α

theorem eq_ok_of_isOk {res : Result Unit} (h : res.isOk = true) : res = .ok () := by
  cases res with
  | ok => rfl
  | error => cases h

namespace Utils

def err {α : Type} (code : ErrCode) (msg : String) : Result α := .error ⟨code, msg⟩

/-- What is left of a call that kills the process. -/
def killed {α : Type} : Result α := err .fault ""

/-- C++ remainder: the sign of `value`. -/
def roundDownToMultiple (value factor : ℤ) : ℤ := value - Int.tmod value factor

end Utils

/-- A conversion to `int32_t`. -/
def toInt32 (v : ℤ) : ℤ := Int.bmod v (2 ^ 32)

/-- Arithmetic on `int64_t`, which wraps around. -/
def toInt64 (v : ℤ) : ℤ := Int.bmod v (2 ^ 64)

theorem toInt64_of_range {v : ℤ} (h0 : -2 ^ 63 ≤ v) (h1 : v < 2 ^ 63) : toInt64 v = v :=
  Int.bmod_eq_of_le (by omega) (by omega)

/-- A path as it appears in a message. -/
def pathText (r : RawPath) : String :=
  String.ofList ((r.base ++ r.comps).flatMap (fun n => '/' :: n))

/-- `close` on an error exit: when it fails too, its own message is the one returned. -/
def closeOnError {α : Type} (w : World) (fd : Desc) (code : ErrCode) (msg closing : String) :
    Result α × World :=
  match w.close fd with
  | (true, w) => (Utils.err code msg, w)
  | (false, w) => (Utils.err code closing, w)

end MyKafka
