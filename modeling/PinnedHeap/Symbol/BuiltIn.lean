import PinnedHeap.Symbol.Table

/-!
# The built-in symbol table

The procedures of the foreign interface and of the demonstration program, with
their qualified names.
-/

namespace PinnedHeap.Symbol.Table

/-- The entries of the built-in table, in the order of their raw names. -/
def builtInPairs : List (String × String) :=
  [("tscl_demo_buffer_finalize", "demo::Buffer::finalize"),
    ("tscl_demo_sys_fault", "demo::Sys::fault"),
    ("tscl_demo_sys_init", "demo::Sys::init"),
    ("tscl_demo_sys_run", "demo::Sys::run"),
    ("tscl_fatal_exit", "runtime::stubs::fatal_exit"),
    ("tscl_gc_collect", "runtime::stubs::gc_collect"),
    ("tscl_ref_acquire", "runtime::stubs::ref_acquire"),
    ("tscl_ref_release", "runtime::stubs::ref_release"),
    ("tscl_ref_release_handle", "runtime::stubs::ref_release_handle")]

/-- The table that is there without a manifest. -/
def builtIn : Table := ⟨(builtInPairs.map fun p => ⟨p.1, p.2⟩).toArray⟩

/-- The built-in entries are in order, so building a table from them changes
nothing. -/
theorem ofPairs_builtInPairs : ofPairs builtInPairs = .ok builtIn := by rfl

end PinnedHeap.Symbol.Table
