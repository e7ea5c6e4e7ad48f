import PinnedHeap.Session.HeapStep

/-!
# Sessions on the parts of a host

A session of this kind has the parts of a host and uses each of them by itself.
Nothing is wired together: a collection has the roots it is told to have, and
what it hands out is kept until the session dispatches it.
-/

namespace PinnedHeap.Session

variable {ι : Type}

/-- A host in a session. -/
abbrev SessionHost (ι : Type) := Host (Obj ι) (Journal ι)

namespace SessionHost

/-- A host without objects. -/
def new (config : Heap.Config) (args : List String) : SessionHost ι := Host.new config args {}

/-- The row of a step that left the host as given, and the host with its journal
read. -/
def row (h : SessionHost ι) (reply : Reply) : Row ι × SessionHost ι :=
  let (events, world) := h.world.read
  ({ reply, stats := h.heap.stats, events, pinned := h.registry.size,
     globals := h.roots.size, finalized := h.dispatcher.count }, { h with world })

/-- Takes a step on the heap of a host. -/
def heapStep (h : SessionHost ι) (step : HeapStep ι) : Reply × SessionHost ι :=
  let (reply, heap, world) := step.take (h.heap, h.world)
  (reply, { h with heap, world })

end SessionHost

/-- What a collection takes its roots from. -/
inductive Provider where
  /-- The global roots. -/
  | roots
  /-- The handles held by foreign code. -/
  | registry
deriving DecidableEq

/-- A step on the parts of a host. -/
inductive PartStep (ι : Type) where
  /-- A step on the heap. -/
  | heap (step : HeapStep ι)
  /-- Add a global root. -/
  | addRoot (target : Arg Ref)
  /-- Remove a global root. -/
  | removeRoot (target : Arg Ref)
  /-- The text of the global roots. -/
  | rootsText
  /-- Hold a reference. -/
  | acquire (target : Arg Ref)
  /-- Release a hold of a reference. -/
  | releaseHandle (target : Arg Ref)
  /-- Collect, and keep what is handed out. -/
  | collect (providers : List Provider)
  /-- Dispatch what was kept. -/
  | dispatchAll
  /-- Dispatch an object that was never in the heap. -/
  | dispatch (target : Arg Ref) (plan : Plan ι)
  /-- Was the object finalized? -/
  | finalized (target : Arg Ref)
  /-- Number of objects finalized. -/
  | finalizedCount

/-- The parts of a host, and what the last collection handed out. -/
structure Parts (ι : Type) where
  /-- The parts. -/
  host : SessionHost ι
  /-- Objects that wait for their finalizers. -/
  kept : List (Heap.Pending (Obj ι)) := []

namespace Parts

/-- The references of a provider. -/
def rootsOf (p : Parts ι) : Provider → List Ref
  | .roots => p.host.roots.toList
  | .registry => p.host.registry.toList

/-- Dispatches what was kept. -/
def dispatchKept (p : Parts ι) : Reply × Parts ι :=
  let h := p.host
  let progress := h.dispatcher.dispatchAll Obj.finalize p.kept (h.heap, h.world)
  (.count progress.ran,
    { host := { h with
        heap := progress.state.1, world := progress.state.2, dispatcher := progress.dispatcher } })

/-- Dispatches one object. -/
def dispatchOne (p : Parts ι) (object : Heap.Pending (Obj ι)) : Reply × Parts ι :=
  let h := p.host
  match h.dispatcher.dispatch Obj.finalize object (h.heap, h.world) with
  | .ok (dispatcher, heap, world) => (.done, { p with host := { h with dispatcher, heap, world } })
  | .error e => (.dispatchError e, p)

/-- Takes a step on the parts of a host. -/
def take (p : Parts ι) (step : PartStep ι) : Reply × Parts ι :=
  let h := p.host
  let resolve := h.world.resolve
  match step with
  | .heap step =>
    let (reply, host) := h.heapStep step
    (reply, { p with host })
  | .addRoot a =>
    let host := h.addRoot (resolve a)
    (.count host.roots.size, { p with host })
  | .removeRoot a =>
    let (found, host) := h.removeRoot (resolve a)
    (.flag found, { p with host })
  | .rootsText => (.text h.roots.text, p)
  | .acquire a =>
    match Registry.demand (h.registry.acquire (resolve a)) with
    | .ok (token, registry) => (.token token, { p with host := { h with registry } })
    | .error v => (.violation v, p)
  | .releaseHandle a =>
    match h.registry.releaseHandle (resolve a) with
    | .ok registry => (.done, { p with host := { h with registry } })
    | .error e => (.registryError e, p)
  | .collect providers =>
    let (collection, heap) := h.heap.collect (providers.map p.rootsOf)
    (.collection collection.freed (collection.pending.map Heap.Pending.ref)
        (some collection.text),
      { host := { h with heap }, kept := collection.pending })
  | .dispatchAll => p.dispatchKept
  | .dispatch a plan => p.dispatchOne ⟨resolve a, plan.make h.world.names⟩
  | .finalized a => (.flag (h.dispatcher.hasFinalized (resolve a)), p)
  | .finalizedCount => (.count h.dispatcher.count, p)

/-- Takes a step and draws up its row. -/
def takeRow (p : Parts ι) (step : PartStep ι) : Row ι × Parts ι :=
  let (reply, p) := p.take step
  let (row, host) := p.host.row reply
  (row, { p with host })

/-- Takes the steps of a session. -/
def run (p : Parts ι) : List (PartStep ι) → List (Row ι) × Parts ι
  | [] => ([], p)
  | step :: rest =>
    let (row, p) := p.takeRow step
    let (rows, p) := p.run rest
    (row :: rows, p)

/-- A session with an empty heap. -/
def new (config : Heap.Config) : Parts ι := { host := SessionHost.new config [] }

end Parts

end PinnedHeap.Session
