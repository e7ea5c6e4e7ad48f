import PinnedHeap.Session.Parts

/-!
# Sessions on a host

A session of this kind works on one host.  Its steps are the operations of the
host, the steps on its heap, and the calls of the foreign interface, with the
host or without one.

A step may be marked as one that must succeed.  If an operation of the host
fails in such a step, the session ends there.  A violation changes nothing and
does not end the session.
-/

namespace PinnedHeap.Session

variable {ι : Type}

/-- A step on a host. -/
inductive HostStep (ι : Type) where
  /-- A step on the heap. -/
  | heap (step : HeapStep ι)
  /-- Store an object, after a collection if one is due. -/
  | alloc (name : Option String) (plan : Plan ι)
  /-- Store several objects of one plan. -/
  | allocMany (times : Nat) (plan : Plan ι)
  /-- Hold an object. -/
  | pin (name : Option String) (target : Arg Ref)
  /-- Release a hold by its token. -/
  | unpin (token : Arg Token)
  /-- Release a hold by its reference. -/
  | unpinRef (target : Arg Ref)
  /-- Collect and finalize. -/
  | collect
  /-- Add a global root. -/
  | addRoot (target : Arg Ref)
  /-- Remove a global root. -/
  | removeRoot (target : Arg Ref)
  /-- The text of the global roots. -/
  | rootsText
  /-- The arguments of the program. -/
  | args
  /-- Was the object finalized? -/
  | finalized (target : Arg Ref)
  /-- Number of holds of a reference. -/
  | holds (target : Arg Ref)
  /-- Is the reference held? -/
  | pinned (target : Arg Ref)
  /-- The references that are held, with their counts. -/
  | pins
  /-- Do links and index of the registry fit together? -/
  | verify
  /-- The text of the host. -/
  | text
  /-- The foreign call that holds an object. -/
  | foreignAcquire (hosted : Bool) (name : Option String) (target : Arg Ref)
  /-- The foreign call that releases a token. -/
  | foreignRelease (hosted : Bool) (token : Arg Token)
  /-- The foreign call that releases a reference. -/
  | foreignReleaseHandle (hosted : Bool) (target : Arg Ref)
  /-- The foreign call that collects. -/
  | foreignCollect (hosted : Bool)

namespace SessionHost

/-- Stores several objects of one plan.  The first failure ends it. -/
def allocMany (plan : Plan ι) : Nat → SessionHost ι → Except Host.Error (List Ref) × SessionHost ι
  | 0, h => (.ok [], h)
  | n + 1, h =>
    match h.alloc Obj.finalize (plan.make h.world.names) with
    | (.error e, h) => (.error e, h)
    | (.ok r, h) =>
      let (rest, h) := allocMany plan n h
      (rest.map (r :: ·), h)

/-- A host after its reference was named. -/
def give (h : SessionHost ι) (name : Option String) (r : Ref) : SessionHost ι :=
  { h with world := h.world.give name r }

/-- A host after its token was named. -/
def giveToken (h : SessionHost ι) (name : Option String) (t : Token) : SessionHost ι :=
  { h with world := h.world.giveToken name t }

/-- The host as a foreign call gets it. -/
def passed (h : SessionHost ι) (hosted : Bool) : Option (SessionHost ι) :=
  if hosted then some h else none

/-- The answer of a release, and the host after it. -/
def released (h : SessionHost ι)
    (result : Except (Registry.Violation Ref) (SessionHost ι)) : Reply × SessionHost ι :=
  match result with
  | .ok h => (.done, h)
  | .error v => (.violation v, h)

/-- The answer of a release by a foreign call, and the host after it. -/
def foreignReleased (h : SessionHost ι)
    (result : Except Foreign.Abort (Option (SessionHost ι))) : Reply × SessionHost ι :=
  match result with
  | .ok host => (.done, host.getD h)
  | .error a => (.abort a, h)

/-- Takes a step on a host. -/
def take (h : SessionHost ι) (step : HostStep ι) : Reply × SessionHost ι :=
  let resolve := h.world.resolve
  match step with
  | .heap step => h.heapStep step
  | .alloc name plan =>
    match h.alloc Obj.finalize (plan.make h.world.names) with
    | (.ok r, h) => (.ref r, SessionHost.give h name r)
    | (.error e, h) => (.hostError e, h)
  | .allocMany times plan =>
    match allocMany plan times h with
    | (.ok rs, h) => (.refs rs, h)
    | (.error e, h) => (.hostError e, h)
  | .pin name a =>
    match h.pin (resolve a) with
    | .ok (.ok token, h) => (.token token, SessionHost.giveToken h name token)
    | .ok (.error e, h) => (.hostError e, h)
    | .error v => (.violation v, h)
  | .unpin t => h.released (h.unpin (h.world.resolveToken t))
  | .unpinRef a => h.released (h.unpinRef (resolve a))
  | .collect =>
    let (freed, h) := h.collect Obj.finalize
    (.count freed, h)
  | .addRoot a =>
    let h := h.addRoot (resolve a)
    (.count h.roots.size, h)
  | .removeRoot a =>
    let (found, h) := h.removeRoot (resolve a)
    (.flag found, h)
  | .rootsText => (.text h.roots.text, h)
  | .args => (.texts h.args, h)
  | .finalized a => (.flag (h.dispatcher.hasFinalized (resolve a)), h)
  | .holds a => (.count (h.registry.count (resolve a)), h)
  | .pinned a => (.flag (h.registry.contains (resolve a)), h)
  | .pins => (.counts h.registry.counts, h)
  | .verify =>
    match h.registry.verify with
    | .ok () => (.done, h)
    | .error e => (.registryError e, h)
  | .text => (.text h.text, h)
  | .foreignAcquire hosted name a =>
    match Foreign.acquire (h.passed hosted) (resolve a).bits with
    | .ok (word, host) =>
      let token := Token.ofBits word
      (.token token, SessionHost.giveToken (host.getD h) name token)
    | .error a => (.abort a, h)
  | .foreignRelease hosted t =>
    h.foreignReleased (Foreign.release (h.passed hosted) (h.world.resolveToken t).bits)
  | .foreignReleaseHandle hosted a =>
    h.foreignReleased (Foreign.releaseHandle (h.passed hosted) (resolve a).bits)
  | .foreignCollect hosted =>
    let (freed, host) := Foreign.collect Obj.finalize (h.passed hosted)
    (.count freed.toNat, host.getD h)

/-- Takes a step and draws up its row. -/
def takeRow (h : SessionHost ι) (step : HostStep ι) : Row ι × SessionHost ι :=
  let (reply, h) := h.take step
  SessionHost.row h reply

end SessionHost

/-- The failure of a step that had to succeed. -/
def failure? (reply : Reply) (must : Bool) : Option Host.Error :=
  match reply, must with
  | .hostError e, true => some e
  | _, _ => none

/-- How a session on a host ended. -/
structure Ended (ι : Type) where
  /-- The rows of the steps taken. -/
  rows : List (Row ι)
  /-- The failure of a step that had to succeed. -/
  failure : Option Host.Error
  /-- The host. -/
  host : SessionHost ι

/-- Takes the steps of a session, each with a flag that says whether it must
succeed. -/
def SessionHost.run (h : SessionHost ι) : List (HostStep ι × Bool) → Ended ι
  | [] => ⟨[], none, h⟩
  | (step, must) :: rest =>
    let (row, h) := h.takeRow step
    match failure? row.reply must with
    | some e => ⟨[row], some e, h⟩
    | none =>
      let ended := SessionHost.run h rest
      { ended with rows := row :: ended.rows }

end PinnedHeap.Session
