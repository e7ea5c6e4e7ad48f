import PinnedHeap.CommandLine

/-!
# The program

Reads the environment and the file that the settings name, runs the command line,
and writes what it wrote.  A program cannot know the frames of its own stack here,
so a report has none.  An end by a signal is shown as a status of 128 and the
number of the signal.
-/

namespace PinnedHeap.CommandLine

/-- The reason of the system for a number, which may be given as its negative. -/
def readErrorOfCode (code : UInt32) (reason : String) : ReadError :=
  .ofNumber (min code.toNat (-code).toNat) reason

/-- The reason why a file cannot be read. -/
def readErrorOf : IO.Error → ReadError
  | .noFileOrDirectory _ code reason | .inappropriateType _ code reason
  | .invalidArgument _ code reason | .permissionDenied _ code reason
  | .resourceExhausted _ code reason | .noSuchThing _ code reason
  | .otherError code reason | .hardwareFault code reason => readErrorOfCode code reason
  | e => readErrorOfCode 0 (toString e)

/-- Reads one file ahead, so that what comes after needs no input. -/
def readAhead (path : String) : IO FileTree := do
  let result ← try
      let content ← IO.FS.readBinFile path
      pure (Except.ok content.data.toList)
    catch e => pure (Except.error (readErrorOf e))
  pure fun other => if other = path then result else .error .notFound

end PinnedHeap.CommandLine

open PinnedHeap

/-- Runs the program. -/
def main (arguments : List String) : IO UInt32 := do
  let names := [Settings.noStackVariable, Settings.collectorVariable, Settings.thresholdVariable,
    Settings.manifestVariable]
  let values ← names.mapM fun name => do
    let value ← IO.getEnv name
    pure (name, value)
  let lookup := fun name => (values.lookup name).join
  let files ← CommandLine.readAhead ((lookup Settings.manifestVariable).getD "")
  let outcome := CommandLine.run (CommandLine.defaultName :: arguments) lookup files
    (.captured [])
  IO.print outcome.stdout
  let stderr ← IO.getStderr
  stderr.write ⟨outcome.stderr.toArray⟩
  match outcome.ended with
  | .status code => pure (UInt32.ofNat code)
  | .signal signo => pure (UInt32.ofNat (128 + signo.toNat))
