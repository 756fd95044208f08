import Clausal.Text.Quoted

/-!
# Identifiers

The spellings of names that the target languages ask for: variables in upper camel case, and
atoms that are either a plain lower case identifier or quoted.
-/

namespace Clausal.Text

/-- Capitalizes the first byte after the start and after each run of underscores, and drops the
underscores. -/
def capitalizeSegments (atStart : Bool) : Text → Text
  | [] => []
  | b :: rest =>
    if b = ascii '_' then capitalizeSegments true rest
    else if atStart then Byte.toUpper b :: capitalizeSegments false rest
    else b :: capitalizeSegments false rest

/-- Upper camel case. A name without any letter left is `_`, and one that would not start with a
capital is marked by `V`. -/
def upperCamel (t : Text) : Text :=
  match capitalizeSegments true t with
  | [] => "_"
  | b :: rest => if Byte.isUpper b then b :: rest else ascii 'V' :: b :: rest

/-- A lower case letter, then letters, digits and underscores. -/
def isLowerIdentifier : Text → Bool
  | [] => false
  | b :: rest => Byte.isLower b && (b :: rest).all Byte.isWord

/-- A plain lower identifier as it is, any other text in single quotes. -/
def atom (t : Text) : Text := if isLowerIdentifier t then t else singleQuoted t

end Clausal.Text
