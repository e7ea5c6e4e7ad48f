import PinnedHeap.Session.Journal
import PinnedHeap.Session.Object

/-!
# Steps on a heap

What the steps on a heap do, and what the finalizer of a watched object does: it
writes into the journal that it runs, for which reference, and which objects it
finds live, and then takes its steps and writes their replies.
-/

namespace PinnedHeap.Session

variable {ι : Type}

/-! ## Taking steps -/

/-- Stores an object and names it. -/
def storeObject (name : Option String) (plan : Plan ι)
    (state : Heap (Obj ι) × Journal ι) : Reply × Heap (Obj ι) × Journal ι :=
  let (heap, journal) := state
  match heap.alloc (plan.make journal.names) with
  | (.ok r, heap) => (.ref r, heap, journal.give name r)
  | (.error e, heap) => (.heapError e, heap, journal)

/-- Changes an object if that is possible, and says whether it was. -/
def changeObject (r : Ref) (change : Obj ι → Option (Obj ι))
    (state : Heap (Obj ι) × Journal ι) : Reply × Heap (Obj ι) × Journal ι :=
  match (state.1.get? r).bind change with
  | some y => (.flag true, state.1.update r (fun _ => y), state.2)
  | none => (.flag false, state)

/-- Takes a step on a heap. -/
def HeapStep.take (step : HeapStep ι) (state : Heap (Obj ι) × Journal ι) :
    Reply × Heap (Obj ι) × Journal ι :=
  let resolve := state.2.resolve
  match step with
  | .alloc name plan => storeObject name plan state
  | .isLive a => (.flag (state.1.isLive (resolve a)), state)
  | .header a => ((state.1.header? (resolve a)).elim .nothing .header, state)
  | .kind a => ((state.1.get? (resolve a)).elim .nothing fun x => .text x.kindName, state)
  | .isFinalizable a =>
    ((state.1.get? (resolve a)).elim .nothing fun x => .flag x.finalizable, state)
  | .getRefs a => (((state.1.get? (resolve a)).bind Obj.refs?).elim .nothing .refs, state)
  | .setRefs a refs =>
    let targets := state.2.resolveAll refs
    changeObject (resolve a) (Obj.mapRefs? fun _ => targets) state
  | .pushRefs a refs =>
    let targets := state.2.resolveAll refs
    changeObject (resolve a) (Obj.mapRefs? fun old => old ++ targets) state
  | .setFinalizable a value => changeObject (resolve a) (Obj.setFinalizable? value) state
  | .collectionDue => (.flag state.1.collectionDue, state)
  | .liveCount => (.count state.1.liveCount, state)
  | .collect roots =>
    let (collection, heap) := state.1.collect [state.2.resolveAll roots]
    (.collection collection.freed (collection.pending.map Heap.Pending.ref) none, heap, state.2)
  | .text => (.text state.1.text, state)
  | .unknown => (.unknown, state)

/-! ## The finalizer -/

/-- Takes a step and writes its reply into the journal. -/
def HeapStep.record (state : Heap (Obj ι) × Journal ι) (step : HeapStep ι) :
    Heap (Obj ι) × Journal ι :=
  let (reply, heap, journal) := step.take state
  (heap, journal.write (.replied reply))

/-- What an object does when it is finalized. -/
def Obj.finalize : Finalizer (Obj ι) (Journal ι)
  | .watched refs _ mark actions, r, (heap, journal) =>
    let event := Event.finalize mark r (heap.isLive r) (refs.map heap.isLive)
    actions.foldl HeapStep.record (heap, journal.write event)
  | _, _, state => state

end PinnedHeap.Session
