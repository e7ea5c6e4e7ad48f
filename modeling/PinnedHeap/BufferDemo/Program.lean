import PinnedHeap.BufferDemo.Object
import PinnedHeap.Foreign
import PinnedHeap.Launch

/-!
# The demonstration program

The program fills its root object with buffers.  When it is run, the root drops
all of them while foreign code holds every other one.  A collection reclaims those
that are not held.  Then the holds are released and a second collection reclaims
the rest.  At the end a line tells how many objects were reclaimed, how many
buffers were finalized and how many handles are still held, and the program leaves
as it is told to.
-/

namespace PinnedHeap.BufferDemo

/-- A host of the demonstration. -/
abbrev BufferHost := Host Obj World

/-- How the demonstration ends. -/
inductive Ending where
  /-- It returns. -/
  | normal
  /-- It raises a signal. -/
  | raise (signo : Int)
  /-- It exits with a status, after a report. -/
  | fatalExit (status : Int)
  /-- It releases a hold without a host. -/
  | nullRelease
deriving DecidableEq

/-- Stores so many buffers, numbered from `number` on, and hands each to the root. -/
def fill (root : Ref) : Nat → (number : Nat) → BufferHost → Except Host.Error Unit × BufferHost
  | 0, _, h => (.ok (), h)
  | n + 1, number, h =>
    match h.alloc finalize (.buffer number) with
    | (.error e, h) => (.error e, h)
    | (.ok r, h) => fill root n (number + 1) { h with heap := h.heap.update root (Obj.push r) }

/-- Every other item of a list, from the first on. -/
def everyOther {β : Type} : List β → List β
  | [] => []
  | [x] => [x]
  | x :: _ :: rest => x :: everyOther rest

/-- Holds the objects of several references.  The answer is their tokens. -/
def holdAll : List Ref → Option BufferHost →
    Except Foreign.Abort (List UInt64 × Option BufferHost)
  | [], host => .ok ([], host)
  | r :: rs, host => do
    let (token, host) ← Foreign.acquire host r.bits
    let (tokens, host) ← holdAll rs host
    .ok (token :: tokens, host)

/-- Releases several tokens. -/
def releaseAll : List UInt64 → Option BufferHost → Except Foreign.Abort (Option BufferHost)
  | [], host => .ok host
  | token :: tokens, host => do releaseAll tokens (← Foreign.release host token)

/-- Drops, holds, collects, releases and collects.  The answer is the number of
objects reclaimed, or `0` where there is no host or no root. -/
def cycle (host : Option BufferHost) (root : UInt64) :
    Except Foreign.Abort (UInt64 × Option BufferHost) :=
  match host with
  | none => .ok (0, none)
  | some h =>
    match (h.heap.get? (Ref.ofBits root)).bind Obj.buffers? with
    | none => .ok (0, some h)
    | some buffers => do
      let dropped := { h with heap := h.heap.update (Ref.ofBits root) Obj.clear }
      let (tokens, held) ← holdAll (everyOther buffers.toList) (some dropped)
      let (first, collected) := Foreign.collect finalize held
      let released ← releaseAll tokens collected
      let (second, done) := Foreign.collect finalize released
      .ok (first + second, done)

/-- The line that the program prints. -/
def report (freed : UInt64) (h : BufferHost) : String :=
  "freed " ++ toString freed.toNat ++ " objects, finalized " ++ toString h.world.finalized ++
    " buffers, " ++ toString h.registry.size ++ " still pinned\n"

/-- How the program leaves at its end. -/
def leave : Ending → Launch.Leave
  | .normal => .returned
  | .raise signo => .raised signo
  | .fatalExit status => .exited status
  | .nullRelease =>
    match Foreign.release (none : Option BufferHost) 1 with
    | .ok _ => .returned
    | .error _ => .aborted

/-- The demonstration with so many buffers. -/
def program (buffers : Nat) (ending : Ending) : Program Obj World where
  finalize := finalize
  createRoot world := (.root #[], world)
  init root h := fill root buffers 0 h
  run root h :=
    match cycle (some h) root.bits with
    | .error _ => (.ok .aborted, h)
    | .ok (freed, host) =>
      let h := host.getD h
      let world := { h.world with printed := h.world.printed ++ report freed h }
      (.ok (leave ending), { h with world })

/-! ## Trials -/

/-- What the demonstration does step by step. -/
structure Trial where
  /-- The root object. -/
  root : Ref
  /-- Counters after the program was set up. -/
  before : Heap.Stats
  /-- Objects reclaimed by a run without a host. -/
  without : UInt64
  /-- Objects reclaimed by a run. -/
  freed : UInt64
  /-- Objects reclaimed by a second run. -/
  again : UInt64
  /-- The host at the end. -/
  host : BufferHost

/-- Runs a host through the demonstration twice, and once without the host.  The
root object need not be a global root. -/
def trial (buffers : Nat) (rooted : Bool) (h : BufferHost) :
    Except Host.Error (Except Foreign.Abort Trial) := do
  let (stored, h) := h.alloc finalize (.root #[])
  let root ← stored
  let (filled, ready) := fill root buffers 0 (if rooted then h.addRoot root else h)
  filled
  .ok (do
    let (without, _) ← cycle none root.bits
    let (freed, once) ← cycle (some ready) root.bits
    let (again, twice) ← cycle once root.bits
    .ok { root, before := ready.heap.stats, without, freed, again, host := twice.getD ready })

end PinnedHeap.BufferDemo
