import PinnedHeap.Registry.Links
import PinnedHeap.Session.Name

/-!
# Sessions on a registry

A session of this kind works on one registry, over handles of any ordered type.
A release that the registry refuses is answered by the error, or, where the
caller claimed to have the hold, by the violation.  Neither changes anything.
-/

namespace PinnedHeap.Session

variable {H : Type} [Ord H]

/-- A step on a registry. -/
inductive HoldStep (H : Type) where
  /-- Hold a handle several times. -/
  | acquire (name : Option String) (times : Nat) (h : H)
  /-- Hold a handle and release it, several times. -/
  | churn (times : Nat) (h : H)
  /-- Release a token. -/
  | release (token : Arg Token)
  /-- Release a handle. -/
  | releaseHandle (h : H)
  /-- Release a token that is claimed to be held. -/
  | demandRelease (token : Arg Token)
  /-- Release a handle that is claimed to be held. -/
  | demandReleaseHandle (h : H)
  /-- Number of holds. -/
  | count (h : H)
  /-- Is the handle held? -/
  | contains (h : H)
  /-- Is nothing held? -/
  | isEmpty
  /-- The handles from head to tail. -/
  | toList
  /-- The handles from tail to head. -/
  | toListRev
  /-- Do links and index fit together? -/
  | verify
  /-- A step that does not exist. -/
  | unknown

/-- The answer of a step on a registry. -/
inductive HoldReply (H : Type) where
  /-- The step was taken. -/
  | done
  /-- A token. -/
  | token (t : Token)
  /-- A number. -/
  | count (n : Nat)
  /-- Yes or no. -/
  | flag (value : Bool)
  /-- Several handles. -/
  | handles (hs : List H)
  /-- The registry refused. -/
  | error (e : Registry.Error H)
  /-- The program would have ended. -/
  | violation (v : Registry.Violation H)
  /-- There is no such step. -/
  | unknown

/-- A registry with the names of its tokens. -/
structure Holds (H : Type) [Ord H] where
  /-- The registry. -/
  registry : Registry H := {}
  /-- Names of tokens. -/
  tokens : Names Token := []

/-- What a step answered, and the registry after it. -/
structure HoldRow (H : Type) [Ord H] where
  /-- The answer. -/
  reply : HoldReply H
  /-- The registry after the step. -/
  after : Registry H

namespace Holds

/-- Holds a handle several times.  The answer is the last token. -/
def acquireMany (h : H) : Nat → Token × Registry H → Except (Registry.Error H) (Token × Registry H)
  | 0, last => .ok last
  | n + 1, (_, r) => do acquireMany h n (← r.acquire h)

/-- Holds a handle and releases it, several times.  The answer is the last token. -/
def churnMany (h : H) : Nat → Token × Registry H → Except (Registry.Error H) (Token × Registry H)
  | 0, last => .ok last
  | n + 1, (_, r) => do
    let (t, held) ← r.acquire h
    let released ← held.release t
    churnMany h n (t, released)

/-- The session after several holds. -/
def held (s : Holds H) (name : Option String)
    (result : Except (Registry.Violation H) (Token × Registry H)) : HoldReply H × Holds H :=
  match result with
  | .ok (t, registry) => (.token t, { registry, tokens := s.tokens.give name t })
  | .error v => (.violation v, s)

/-- The session after a release that has to succeed. -/
def released (s : Holds H) (result : Except (Registry.Violation H) (Registry H)) :
    HoldReply H × Holds H :=
  match result with
  | .ok registry => (.done, { s with registry })
  | .error v => (.violation v, s)

/-- The session after a release that may be refused. -/
def tried (s : Holds H) (result : Except (Registry.Error H) (Registry H)) :
    HoldReply H × Holds H :=
  match result with
  | .ok registry => (.done, { s with registry })
  | .error e => (.error e, s)

/-- Takes a step on a registry. -/
def take (s : Holds H) (step : HoldStep H) : HoldReply H × Holds H :=
  match step with
  | .acquire name times h =>
    s.held name (Registry.demand (acquireMany h times (Token.null, s.registry)))
  | .churn times h =>
    s.held none (Registry.demand (churnMany h times (Token.null, s.registry)))
  | .release t => s.tried (s.registry.release (t.resolve s.tokens))
  | .releaseHandle h => s.tried (s.registry.releaseHandle h)
  | .demandRelease t =>
    s.released (Registry.demand (s.registry.release (t.resolve s.tokens)))
  | .demandReleaseHandle h => s.released (Registry.demand (s.registry.releaseHandle h))
  | .count h => (.count (s.registry.count h), s)
  | .contains h => (.flag (s.registry.contains h), s)
  | .isEmpty => (.flag s.registry.isEmpty, s)
  | .toList => (.handles s.registry.toList, s)
  | .toListRev => (.handles s.registry.toListRev, s)
  | .verify =>
    match s.registry.verify with
    | .ok () => (.done, s)
    | .error e => (.error e, s)
  | .unknown => (.unknown, s)

/-- Takes the steps of a session. -/
def run (s : Holds H) : List (HoldStep H) → List (HoldRow H) × Holds H
  | [] => ([], s)
  | step :: rest =>
    let (reply, s) := s.take step
    let (rows, last) := s.run rest
    ({ reply, after := s.registry } :: rows, last)

end Holds

end PinnedHeap.Session
