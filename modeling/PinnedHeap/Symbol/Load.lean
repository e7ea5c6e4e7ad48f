import PinnedHeap.Files
import PinnedHeap.Manifest.Reader
import PinnedHeap.Settings
import PinnedHeap.Symbol.BuiltIn

/-!
# Loading the symbol table

The table of a program is the built-in one, merged with the manifest that the
settings name, if they name one.  The members of a manifest are put into a map
first, where a key that is repeated has the value given last, and the table is made
of the pairs of the map.
-/

namespace PinnedHeap.Symbol

/-- Naming an error differently does not change what succeeds. -/
theorem mapError_eq_ok_iff {ε ε' β : Type} {f : ε → ε'} {x : Except ε β} {b : β} :
    x.mapError f = .ok b ↔ x = .ok b := by
  cases x with
  | error e => exact ⟨nofun, nofun⟩
  | ok c =>
    rw [Except.ok.injEq]
    exact ⟨Except.ok.inj, congrArg Except.ok⟩

/-- Why the table of a program cannot be loaded. -/
inductive LoadError where
  /-- The manifest cannot be read. -/
  | unreadable (path : String) (cause : ReadError)
  /-- The manifest is no object of texts. -/
  | manifest (fault : Manifest.Fault)
  /-- Two pairs disagree. -/
  | conflict (conflict : Conflict)
deriving DecidableEq

/-- The message of a table that cannot be loaded. -/
def LoadError.message : LoadError → String
  | .unreadable path cause => "cannot read symbol manifest " ++ path ++ ": " ++ cause.message
  | .manifest fault => fault.message
  | .conflict c => c.message

namespace Table

/-- The names of members, where the last one of each key counts. -/
def namesOf (members : List Manifest.Member) : Names :=
  members.foldl (fun names m => names.insert m.1 m.2) {}

/-- The table of a manifest. -/
def ofManifest (text : String) : Except LoadError Table := do
  let members ← (Manifest.members text).mapError LoadError.manifest
  (ofPairs (namesOf members).toList).mapError LoadError.conflict

theorem ofManifest_eq_ok_iff {text : String} {t : Table} :
    ofManifest text = .ok t ↔
      ∃ members, Manifest.members text = .ok members ∧ ofPairs (namesOf members).toList = .ok t := by
  rw [ofManifest]
  cases Manifest.members text with
  | error fault => exact ⟨nofun, nofun⟩
  | ok members =>
    change (ofPairs (namesOf members).toList).mapError LoadError.conflict = .ok t ↔ _
    rw [mapError_eq_ok_iff]
    constructor
    · exact fun h => ⟨members, rfl, h⟩
    · intro ⟨_, hmembers, h⟩
      rwa [Except.ok.inj hmembers]

/-- The built-in table with the members of a manifest. -/
def extend (text : String) : Except LoadError Table := do
  let extra ← ofManifest text
  (builtIn.merge extra).mapError LoadError.conflict

/-- The table of a program. -/
def load (files : FileTree) (settings : Settings) : Except LoadError Table :=
  match settings.symbolManifest with
  | none => .ok builtIn
  | some path => do
    let text ← (files.readText path).mapError (LoadError.unreadable path)
    extend text

end Table

end PinnedHeap.Symbol
