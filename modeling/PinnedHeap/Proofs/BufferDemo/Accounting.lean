import PinnedHeap.CommandLine
import PinnedHeap.Proofs.BufferDemo.Cycle
import PinnedHeap.Proofs.BufferDemo.Fill

/-!
# The accounts of the demonstration

A demonstration with `n` buffers reclaims and finalizes all of them, or none if the heap is not
collected.  When collections happen is a matter of the threshold, but what they reclaim is not: the
buffers are reachable until the first run, and garbage from then on.

`Account` states this for a host that is new, step by step: set up, run without a host, run, and
run again.  `Accounted` states it for every way of setting a host up, and for what the command line
prints.
-/

namespace PinnedHeap

/-- A program whose root is stored and that can be set up is run. -/
theorem Launch.start_eq {α σ : Type} [HeapObject α] {program : Program α σ}
    {host stored ready : Host α σ} {x : α} {world : σ} {root : Ref}
    (hcreate : program.createRoot host.world = (x, world))
    (hstored : Host.alloc program.finalize { host with world } x = (.ok root, stored))
    (hinit : program.init root (stored.addRoot root) = (.ok (), ready)) :
    Launch.start program host = program.run root ready := by
  rw [Launch.start, hcreate]
  simp only [hstored, hinit]

namespace BufferDemo

open Registry (Represents)

/-- Number of buffers out of `n` that are reclaimed by a run. -/
def reclaimed (mode : Heap.Mode) (n : Nat) : Nat :=
  match mode with
  | .markSweep => n
  | .disabled => 0

/-- Number of objects that are live after a run with `n` buffers. -/
def lasting (mode : Heap.Mode) (n : Nat) : Nat :=
  match mode with
  | .markSweep => 1
  | .disabled => n + 1

/-- The line about so many buffers that were reclaimed. -/
def line (n : Nat) : String :=
  "freed " ++ toString n ++ " objects, finalized " ++ toString n ++ " buffers, 0 still pinned\n"

/-- What a demonstration with `n` buffers does to a new host.  The host is `ready` when it was set
up, and it was run `once` and then `twice`. -/
structure Account (n : Nat) (mode : Heap.Mode) (world : World) (root : Ref) (buffers : List Ref)
    (ready once twice : BufferHost) : Prop where
  /-- The root holds as many buffers as were asked for, all distinct and live. -/
  root_get : ready.heap.get? root = some (.root buffers.toArray)
  length_eq : buffers.length = n
  nodup : buffers.Nodup
  buffer_get : ∀ r ∈ buffers, ∃ number, ready.heap.get? r = some (.buffer number)
  /-- Until then nothing was reclaimed or finalized. -/
  ready_freed : ready.heap.stats.freedObjects = 0
  ready_live : ready.heap.liveCount = n + 1
  ready_world : ready.world = world
  /-- There is nothing to run without a host. -/
  without_eq : ∀ bits, cycle none bits = .ok (0, none)
  /-- The first run tells how many objects it reclaimed.  They are as many as were finalized. -/
  once_eq : cycle (some ready) root.bits = .ok (UInt64.ofNat (reclaimed mode n), some once)
  once_world : once.world = { world with finalized := world.finalized + reclaimed mode n }
  once_freed : once.heap.stats.freedObjects = reclaimed mode n
  once_live : once.heap.liveCount = lasting mode n
  once_unpinned : once.registry.size = 0
  /-- The second run reclaims and finalizes nothing. -/
  twice_eq : cycle (some once) root.bits = .ok (0, some twice)
  twice_world : twice.world = once.world
  twice_freed : twice.heap.stats.freedObjects = once.heap.stats.freedObjects
  twice_live : twice.heap.liveCount = once.heap.liveCount
  twice_unpinned : twice.registry.size = 0

section Account

variable {config : Heap.Config} {world : World} {root : Ref} {buffers : List Ref}
  {ready : BufferHost}

theorem Filled.staged (hf : Filled config world root buffers ready) :
    Staged root buffers.toArray buffers ready where
  stocked := hf.stocked
  roots_eq := hf.roots_eq
  unfinalized r _ := by
    rw [hf.dispatcher_eq, Dispatcher.hasFinalized]
    exact Std.TreeSet.contains_emptyc

/-- What remains after a cycle, and what does not. -/
theorem eq_reclaimed_of_add {mode : Heap.Mode} {n : Nat}
    (hn : n + (remaining mode buffers).length = buffers.length) :
    n = reclaimed mode buffers.length ∧
      (remaining mode buffers).length + 1 = lasting mode buffers.length := by
  cases mode with
  | markSweep => exact ⟨hn, rfl⟩
  | disabled =>
    rw [remaining] at hn
    exact ⟨by rw [reclaimed]; omega, rfl⟩

/-- A cycle leaves nothing for another one. -/
theorem remaining_remaining (mode : Heap.Mode) (buffers : List Ref) :
    remaining mode (remaining mode buffers) = remaining mode buffers := by
  cases mode <;> rfl

theorem Filled.exists_account (hf : Filled config world root buffers ready)
    (hroom : buffers.length < Registry.countLimit) :
    ∃ once twice, Account buffers.length config.mode world root buffers ready once twice := by
  have hpinned : Represents ready.registry [] := by
    rw [hf.registry_eq]
    exact Registry.represents_empty
  obtain ⟨n, once, honce, hn, hstaged, hreclaims, hunpinned⟩ :=
    hf.staged.cycle (by simpa using hf.stocked.nodup) (by simp) (by simpa using hroom) hpinned
  -- The root refers to nothing after the first run, whatever remains.
  obtain ⟨m, twice, htwice, hm, hstaged', hreclaims', hunpinned'⟩ :=
    hstaged.cycle List.nodup_nil (by simp) (by simp [Registry.countLimit]) hunpinned
  rw [hf.config_eq] at hn hstaged hm hstaged'
  have hmode : once.heap.config.mode = config.mode := by rw [hreclaims.config_eq, hf.config_eq]
  rw [hmode, remaining_remaining] at hm hstaged'
  obtain ⟨rfl, hlasting⟩ := eq_reclaimed_of_add hn
  obtain rfl : m = 0 := by omega
  refine ⟨once, twice, ?_⟩
  exact
    { root_get := hf.stocked.stores_root.get?
      length_eq := rfl
      nodup := hf.stocked.nodup
      buffer_get := fun r hr => by
        obtain ⟨number, hst⟩ := hf.stocked.stores_buffer r hr
        exact ⟨number, hst.get?⟩
      ready_freed := hf.freedObjects_eq
      ready_live := hf.stocked.liveObjects_eq
      ready_world := hf.world_eq
      without_eq := fun _ => rfl
      once_eq := honce
      once_world := by rw [hreclaims.world_eq, hf.world_eq]
      once_freed := by rw [hreclaims.freedObjects_eq, hf.freedObjects_eq, Nat.zero_add]
      once_live := hstaged.stocked.liveObjects_eq.trans hlasting
      once_unpinned := hunpinned.observed.size_eq
      twice_eq := htwice
      twice_world := hreclaims'.world_eq
      twice_freed := hreclaims'.freedObjects_eq
      twice_live := hstaged'.stocked.liveObjects_eq.trans hstaged.stocked.liveObjects_eq.symm
      twice_unpinned := hunpinned'.observed.size_eq }

end Account

/-- A new host can be set up and run, and the accounts are right. -/
theorem exists_account {n : Nat} (hn : n + 1 < 2 ^ 32) (config : Heap.Config) (args : List String)
    (world : World) :
    ∃ root buffers stored ready once twice,
      (Host.new config args world).alloc finalize (.root #[]) = (.ok root, stored) ∧
      fill root n 0 (stored.addRoot root) = (.ok (), ready) ∧
      Account n config.mode world root buffers ready once twice := by
  have hlimits : Heap.indexLimit = 2 ^ 32 ∧ Registry.countLimit = 2 ^ 32 := by decide
  obtain ⟨root, stored, hstored, hnew⟩ := filled_new config args world
  obtain ⟨buffers, ready, hfill, hlength, hfilled⟩ := hnew.fill n 0 (by simp; omega)
  rw [List.length_nil, Nat.zero_add] at hlength
  obtain ⟨once, twice, haccount⟩ := hfilled.exists_account (by omega)
  rw [hlength] at haccount
  exact ⟨root, buffers, stored, ready, once, twice, hstored, hfill, haccount⟩

/-! ## The line -/

theorem report_eq_line {n : Nat} (hn : n < 2 ^ 64) {h : BufferHost}
    (hworld : h.world.finalized = n) (hunpinned : h.registry.size = 0) :
    report (UInt64.ofNat n) h = line n := by
  have htail : " buffers, " ++ (toString 0 ++ " still pinned\n") =
      " buffers, 0 still pinned\n" := by decide
  rw [report, line, hworld, hunpinned, UInt64.toNat_ofNat_of_lt' hn]
  simp only [String.append_assoc, htail]

-- This is an equation of functions: at a given host, `rfl` would evaluate the cycle.
/-- A run makes a cycle, prints its line and leaves. -/
theorem run_program (n : Nat) (ending : Ending) :
    (program n ending).run = fun root h =>
      match cycle (some h) root.bits with
      | .error _ => (.ok .aborted, h)
      | .ok (freed, host) =>
        let h := host.getD h
        let world := { h.world with printed := h.world.printed ++ report freed h }
        (.ok (leave ending), { h with world }) := rfl

/-- The program prints its line before it leaves, whichever way it leaves. -/
theorem printed_start {n : Nat} (hn : n + 1 < 2 ^ 32) (ending : Ending) (config : Heap.Config)
    (args : List String) :
    ∃ h, Launch.start (program n ending) (Host.new config args {}) = (.ok (leave ending), h) ∧
      h.world.printed = line (reclaimed config.mode n) := by
  obtain ⟨root, buffers, stored, ready, once, twice, hstored, hfill, haccount⟩ :=
    exists_account hn config args {}
  have hword : reclaimed config.mode n < 2 ^ 64 := by
    cases config.mode <;> simp only [reclaimed] <;> omega
  have hreport : report (UInt64.ofNat (reclaimed config.mode n)) once =
      line (reclaimed config.mode n) := by
    refine report_eq_line hword ?_ haccount.once_unpinned
    rw [haccount.once_world]
    exact Nat.zero_add _
  have hprinted : once.world.printed = "" := by rw [haccount.once_world]
  have hrun : (program n ending).run root ready =
      (.ok (leave ending), { once with
        world := { once.world with printed := line (reclaimed config.mode n) } }) := by
    rw [run_program]
    simp only [haccount.once_eq, Option.getD_some, hreport, hprinted, String.empty_append]
  have hstart : Launch.start (program n ending) (Host.new config args {}) =
      (program n ending).run root ready := Launch.start_eq rfl hstored hfill
  exact ⟨_, hstart.trans hrun, rfl⟩

end BufferDemo

namespace CommandLine

/-- What was printed stands on the standard output, however the program ended. -/
theorem stdout_ending (frames : Crash.Source) (launched : Launch.Outcome BufferDemo.World) :
    (ending frames launched).stdout = launched.world.printed := by
  rw [ending]
  split <;> rfl

end CommandLine

namespace BufferDemo

/-- The accounts of a demonstration with `n` buffers. -/
structure Accounted (n : Nat) : Prop where
  /-- Whatever the threshold and the mode, the steps on a new host do what they should. -/
  exists_account : ∀ config args world, ∃ root buffers stored ready once twice,
    (Host.new config args world).alloc finalize (.root #[]) = (.ok root, stored) ∧
    fill root n 0 (stored.addRoot root) = (.ok (), ready) ∧
    Account n config.mode world root buffers ready once twice
  /-- The line that is printed depends on the number of buffers and on the mode only. -/
  stdout_eq : ∀ arguments lookup files frames options settings prepared,
    Options.ofArguments arguments = .ok options → options.buffers = n →
    Settings.ofVariables lookup = .ok settings → Launch.prepare files settings = .ok prepared →
    (CommandLine.run arguments lookup files frames).stdout =
      line (reclaimed settings.heap.mode n)

theorem accounted {n : Nat} (hn : n + 1 < 2 ^ 32) : Accounted n where
  exists_account := exists_account hn
  stdout_eq := by
    rintro arguments lookup files frames options settings ⟨table, handler⟩ hoptions rfl hsettings
      hprepare
    obtain ⟨h, hstart, hprinted⟩ := printed_start hn options.ending settings.heap arguments
    rw [CommandLine.run, hoptions]
    simp only [hsettings]
    rw [CommandLine.stdout_ending, Program.launch, hprepare]
    simp only [hstart]
    exact hprinted

theorem accounted_three : 3 + 1 < 2 ^ 32 ∧ Accounted 3 :=
  ⟨by decide, accounted (by decide)⟩

end BufferDemo

end PinnedHeap
