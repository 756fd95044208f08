/-!
# Powers of two and ten

The factors that move the point of a binary or a decimal number.
-/

namespace Clausal

def pow2 (n : Nat) : Nat := Nat.pow 2 n

def pow10 (n : Nat) : Nat := Nat.pow 10 n

end Clausal
