import Clausal.Sentence

/-!
# Printed sentences

The notation of messages, with the usual logical symbols.
-/

namespace Clausal

/-- Bound variables in brackets, each with its type if it has one. -/
def TypedName.binders (vars : List TypedName) : Text :=
  let one (v : TypedName) : Text := if v.type.isEmpty then v.name else v.name ++ ":" ++ v.type
  "[" ++ Text.join " " (vars.map one) ++ "]"

namespace Sentence

mutual

/-- The text of a sentence in messages. -/
def text : Sentence → Text
  | .term p [] => p
  | .term p (a :: as) => p ++ "(" ++ Text.join ", " (text a :: texts as) ++ ")"
  | .var n _ => n
  | .const v => v.text
  | .neg s => "¬" ++ text s
  | .conj [] => "⊤"
  | .conj (s :: ss) => "(" ++ Text.join " ∧ " (text s :: texts ss) ++ ")"
  | .disj [] => "⊥"
  | .disj (s :: ss) => "(" ++ Text.join " ∨ " (text s :: texts ss) ++ ")"
  | .implies a b => "(" ++ text a ++ " → " ++ text b ++ ")"
  | .iff a b => "(" ++ text a ++ " ↔ " ++ text b ++ ")"
  | .forAll vars s => "∀" ++ TypedName.binders vars ++ ". " ++ text s
  | .forSome vars s => "∃" ++ TypedName.binders vars ++ ". " ++ text s
  | .weighted w s => w.text ++ "::" ++ text s
  | .evidence holds s => "evidence(" ++ text s ++ ", " ++ Value.boolText holds ++ ")"
  | .missing => "<null>"

def texts : List Sentence → List Text
  | [] => []
  | s :: ss => text s :: texts ss

end

end Sentence

end Clausal
