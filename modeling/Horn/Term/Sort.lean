/-!
# Sorts

The sorts of first-order terms: Booleans, the two arithmetic sorts, bit vectors of a fixed
width, arrays from one sort to another, and sorts known by their name alone.

`TermSort.text` is the one-line form used in listings and in messages.
-/

namespace Horn

/-- A sort of first-order terms. -/
inductive TermSort where
  | bool
  | int
  | real
  /-- Bit vectors of `width` bits. -/
  | bitVec (width : Nat)
  /-- Total maps from `index` to `element`. -/
  | array (index element : TermSort)
  /-- A sort about which nothing but its name is known. -/
  | free (name : String)
  deriving DecidableEq, Inhabited

namespace TermSort

/-- The sorts on which addition and the order are defined. -/
def isArith : TermSort → Bool
  | .int | .real => true
  | _ => false

/-- The one-line form of a sort: `Int`, `BitVec(8)`, `Array(Int, Int)`. -/
def text : TermSort → String
  | .bool => "Bool"
  | .int => "Int"
  | .real => "Real"
  | .bitVec w => "BitVec(" ++ toString w ++ ")"
  | .array i e => "Array(" ++ i.text ++ ", " ++ e.text ++ ")"
  | .free name => name

end TermSort

end Horn
