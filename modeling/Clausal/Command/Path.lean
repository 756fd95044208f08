import Clausal.Text

/-!
# Paths

A path is a list of components between separators. An output file is named after the theory, or
else after the input. Only the last component of either counts, so that the file lies directly in
the output directory.
-/

namespace Clausal

namespace Path

def separator : UInt8 := ascii '/'

/-- The largest number of bytes in a component. -/
def nameLimit : Nat := 255

/-- The largest number of bytes in a path. -/
def lengthLimit : Nat := 4095

/-- The largest number of directories that are made at once. -/
def depthLimit : Nat := 1000

/-- What follows the last separator. -/
def fileName (path : Text) : Text := (path.reverse.takeWhile (· != separator)).reverse

/-- Whether a component stands for a directory by its position only. -/
def isDots (name : Text) : Bool := name == Text.ofString "." || name == Text.ofString ".."

/-- What precedes the last dot. -/
def beforeLastDot (name : Text) : Text :=
  ((name.reverse.dropWhile (· != ascii '.')).drop 1).reverse

/-- The last component without its extension. A dot at its start does not begin an extension. -/
def fileStem (path : Text) : Text :=
  let name := fileName path
  let stem := beforeLastDot name
  if isDots name || stem.isEmpty then name else stem

/-- Whether a name can be that of a file. -/
def isUsable (name : Text) : Bool := !name.isEmpty && !isDots name

/-- The name of the output files without their suffix. -/
def outputStem (theory input : Text) : Text :=
  ([fileName theory, fileStem input].find? isUsable).getD "theory"

def within (directory name : Text) : Text :=
  if directory.getLast? = some separator then directory ++ name else directory ++ "/" ++ name

end Path

end Clausal
