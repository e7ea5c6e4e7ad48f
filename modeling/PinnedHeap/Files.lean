import PinnedHeap.Text.Bytes

/-!
# Files

What reading a file gives: its bytes, or the reason why it cannot be read.  A
`FileTree` is any function from paths to such results, so that whoever reads a
file does not depend on where it is.
-/

namespace PinnedHeap

/-- Why a file cannot be read. -/
inductive ReadError where
  /-- There is nothing at the path. -/
  | notFound
  /-- A part of the path that has to be a directory is none. -/
  | notDirectory
  /-- There is a directory at the path. -/
  | isDirectory
  /-- The path, or a part of it, is too long. -/
  | nameTooLong
  /-- The file may not be read. -/
  | denied
  /-- The path leads over too many links. -/
  | tooManyLinks
  /-- The path contains a zero byte. -/
  | zeroByte
  /-- The content is not valid UTF-8. -/
  | invalidText
  /-- The system gives another reason, with its number. -/
  | other (reason : String) (number : Nat)
deriving DecidableEq

/-- The message of a file that cannot be read. -/
def ReadError.message : ReadError → String
  | .notFound => "No such file or directory (os error 2)"
  | .notDirectory => "Not a directory (os error 20)"
  | .isDirectory => "Is a directory (os error 21)"
  | .nameTooLong => "File name too long (os error 36)"
  | .denied => "Permission denied (os error 13)"
  | .tooManyLinks => "Too many levels of symbolic links (os error 40)"
  | .zeroByte => "file name contained an unexpected NUL byte"
  | .invalidText => "stream did not contain valid UTF-8"
  | .other reason number => reason ++ " (os error " ++ toString number ++ ")"

/-- The words of the system for some of its numbers. -/
def systemReasons : List (Nat × String) :=
  [(5, "Input/output error"), (6, "No such device or address"), (12, "Cannot allocate memory"),
    (22, "Invalid argument")]

/-- The reason for a number of the system, and what is said about it if its words are
not known. -/
def ReadError.ofNumber (number : Nat) (reason : String) : ReadError :=
  match number with
  | 2 => .notFound
  | 13 => .denied
  | 20 => .notDirectory
  | 21 => .isDirectory
  | 36 => .nameTooLong
  | 40 => .tooManyLinks
  | n => .other ((systemReasons.lookup n).getD reason) n

/-- The bytes of each file. -/
abbrev FileTree := String → Except ReadError (List UInt8)

namespace FileTree

/-- The text of a file. -/
def readText (files : FileTree) (path : String) : Except ReadError String :=
  match files path with
  | .error e => .error e
  | .ok bs =>
    match Text.ofBytes? bs with
    | some s => .ok s
    | none => .error .invalidText

end FileTree

end PinnedHeap
