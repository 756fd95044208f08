import Clausal.Command.Run

/-!
# The command line

Runs the program on real files.
-/

namespace Clausal

namespace Main

/-- A path as a string, which it is if its bytes are valid. -/
def pathOf? (path : Text) : Option String := String.fromUTF8? ⟨path.beforeNul.toArray⟩

/-- An action that tells whether it went through. -/
def succeeds (action : IO Unit) : IO Bool := do
  try
    action
    return true
  catch _ => return false

/-- What can be read from an open file, which is nothing for a directory. -/
def contentOf (file : IO.FS.Handle) : IO Text := do
  try
    return (← file.readBinToEnd).toList
  catch _ => return []

/-- The content of a file, if it can be opened. -/
def contentOf? (path : String) : IO (Option Text) := do
  try
    return some (← contentOf (← IO.FS.Handle.mk path .read))
  catch _ => return none

instance : Files IO where
  content? path :=
    match pathOf? path with
    | some path => contentOf? path
    | none => return none
  ensureDirectory path :=
    match pathOf? path with
    | some path => succeeds (IO.FS.createDirAll path)
    | none => return false
  store path content :=
    match pathOf? path with
    | some path => succeeds (IO.FS.writeBinFile path ⟨content.toArray⟩)
    | none => return false

end Main

end Clausal

open Clausal

/-- Runs the program and prints what it says. -/
def main (args : List String) : IO UInt32 := do
  let outcome ← runCommand (m := IO) "tlogic" (args.map Text.ofString)
  (← IO.getStderr).write ⟨outcome.errors.toArray⟩
  (← IO.getStdout).write ⟨outcome.output.toArray⟩
  return UInt32.ofNat outcome.status
