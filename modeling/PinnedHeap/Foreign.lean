import PinnedHeap.Host

/-!
# The foreign interface

Foreign code calls the host through functions on 64-bit words.  A reference is
passed as `Ref.bits` and a token as `Token.bits`.  The word `0` stands for no
token.  The host itself may be missing.

Without a host nothing can be held or collected, and both calls answer `0`.  A
release without a host, or of something that is not held, has no answer: the
program is aborted.
-/

namespace PinnedHeap.Foreign

variable {α σ : Type}

/-- Number of the interface.  It goes up with every change of a signature or of
the layout of a word. -/
def version : Nat := 1

/-- What the names of all functions of the interface begin with. -/
def name : String := "tscl"

/-- Why a call aborts the program. -/
inductive Abort where
  /-- A release without a host. -/
  | noHost (function : String)
  /-- A hold or a release that the registry refuses. -/
  | violation (cause : Registry.Violation Ref)
deriving DecidableEq

/-- The last words of an aborted program. -/
def Abort.message : Abort → String
  | .noHost function => function ++ ": release with a null runtime"
  | .violation cause => cause.message Ref.text

/-- Holds the object of a reference.  The answer is the token of the hold, or `0`
where there is no host or no live object. -/
def acquire (host : Option (Host α σ)) (handle : UInt64) :
    Except Abort (UInt64 × Option (Host α σ)) :=
  match host with
  | none => .ok (0, none)
  | some h =>
    match h.pin (Ref.ofBits handle) with
    | .ok (.ok token, h) => .ok (token.bits, some h)
    | .ok (.error _, h) => .ok (0, some h)
    | .error v => .error (.violation v)

/-- Releases one hold by its token. -/
def release (host : Option (Host α σ)) (token : UInt64) : Except Abort (Option (Host α σ)) :=
  match host with
  | none => .error (.noHost "tscl_ref_release")
  | some h => ((h.unpin (Token.ofBits token)).mapError Abort.violation).map some

/-- Releases one hold by the reference of its object. -/
def releaseHandle (host : Option (Host α σ)) (handle : UInt64) :
    Except Abort (Option (Host α σ)) :=
  match host with
  | none => .error (.noHost "tscl_ref_release_handle")
  | some h => ((h.unpinRef (Ref.ofBits handle)).mapError Abort.violation).map some

/-- Collects.  The answer is the number of objects reclaimed. -/
def collect [HeapObject α] (finalize : Finalizer α σ) (host : Option (Host α σ)) :
    UInt64 × Option (Host α σ) :=
  match host with
  | none => (0, none)
  | some h =>
    let (freed, h) := h.collect finalize
    (UInt64.ofNat freed, some h)

end PinnedHeap.Foreign
