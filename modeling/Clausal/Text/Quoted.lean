import Clausal.Text

/-!
# Quoted text

A quoted text stands between two quotes. Inside, a backslash introduces an escape: the letters
`n r t f b` stand for control bytes, and any other byte after a backslash stands for itself.
-/

namespace Clausal.Text

/-- How one byte is written between two occurrences of `quote`. -/
def escapeByte (quote b : UInt8) : Text :=
  if b = ascii '\\' then "\\\\"
  else if b = 10 then "\\n"
  else if b = 13 then "\\r"
  else if b = 9 then "\\t"
  else if b = 12 then "\\f"
  else if b = 8 then "\\b"
  else if b = quote then [ascii '\\', b]
  else [b]

/-- Writes a text so that it can stand between two occurrences of `quote`. -/
def escape (quote : UInt8) (t : Text) : Text := t.flatMap (escapeByte quote)

/-- The byte that an escape with the letter `b` stands for. -/
def unescapeByte (b : UInt8) : UInt8 :=
  if b = ascii 'n' then 10
  else if b = ascii 'r' then 13
  else if b = ascii 't' then 9
  else if b = ascii 'f' then 12
  else if b = ascii 'b' then 8
  else b

/-- Reads escapes; a backslash at the very end stands for itself. -/
def unescape : Text → Text
  | [] => []
  | [b] => [b]
  | b :: c :: rest =>
    if b = ascii '\\' then unescapeByte c :: unescape rest else b :: unescape (c :: rest)

def quoted (quote : UInt8) (t : Text) : Text := quote :: escape quote t ++ [quote]

def doubleQuoted (t : Text) : Text := quoted (ascii '"') t

def singleQuoted (t : Text) : Text := quoted (ascii '\'') t

end Clausal.Text
