import Horn.Term.Basic
import Horn.Decimal.Root

/-!
# The one-line form of a term

Terms are shown in a functional notation, `And(a, Not(b))`, with signs between the operands of
arithmetic and comparisons, `x + 1 <= 2*y`. `Term.text` writes it.

Which operators are written between their operands, and how strongly they bind, is one table
(`Op.sign?`). An operand that is itself written with a sign stands in parentheses unless its
sign binds strictly tighter; a sum inside a sum and a product inside a product are written
through, and a difference may stand inside a sum, or a sum at the front of a difference,
without parentheses.
-/

namespace Horn

/-- How a sign is written and read. A smaller `rank` binds tighter. -/
structure Sign where
  text : String
  rank : Nat
  /-- Blanks stand on both sides of the sign. -/
  spaced : Bool
  /-- An operand with the same sign is written through. -/
  associative : Bool
  /-- The first operand with the same sign is written through. -/
  leftAssociative : Bool

namespace Op

/-- The operators that are written between their operands. -/
def sign? : Op → Option Sign
  | .pow => some ⟨"**", 0, false, false, false⟩
  | .mul | .bvMul => some ⟨"*", 2, false, true, true⟩
  | .div | .divide => some ⟨"/", 2, false, false, false⟩
  | .mod => some ⟨"%", 2, false, false, false⟩
  | .add | .bvAdd => some ⟨"+", 3, true, true, true⟩
  | .sub | .bvSub => some ⟨"-", 3, true, false, true⟩
  | .le | .bvSle => some ⟨"<=", 8, true, false, false⟩
  | .lt | .bvSlt => some ⟨"<", 8, true, false, false⟩
  | .ge => some ⟨">=", 8, true, false, false⟩
  | .gt => some ⟨">", 8, true, false, false⟩
  | .eq => some ⟨"==", 8, true, false, false⟩
  | _ => none

/-- How strongly an application binds, when it is written with a sign at all; the sign of a
negated number stands in front. -/
def rank? : Op → Option Nat
  | .neg => some 1
  | f => f.sign?.map (·.rank)

/-- The name under which an operator is listed and written in front of its operands. -/
def name : Op → String
  | .and => "And"
  | .or => "Or"
  | .not => "Not"
  | .implies => "Implies"
  | .xor => "Xor"
  | .distinct => "Distinct"
  | .ite => "If"
  | .neg => "-"
  | .toReal => "ToReal"
  | .toInt => "ToInt"
  | .select => "Select"
  | .store => "Store"
  | .bvUlt => "ULT"
  | .bvUle => "ULE"
  | .bvUgt => "UGT"
  | .bvUge => "UGE"
  | .other name _ => name
  | f => (f.sign?.map (·.text)).getD ""

/-- Whether an operand headed by `g` may stand in `f` without parentheses. -/
def admits (f g : Op) (first : Bool) : Bool :=
  match f.sign?, g.rank? with
  | some s, some r =>
    decide (r < s.rank) || ((f == .add || f == .bvAdd) && (g == .sub || g == .bvSub))
      || ((f == .sub || f == .bvSub) && first && (g == .add || g == .bvAdd))
  | _, _ => true

/-- Whether an operand with the same operator is written through. -/
def absorbs (f g : Op) (first : Bool) : Bool :=
  f == g && ((f.sign?.map fun s => s.associative || (first && s.leftAssociative)).getD false)

end Op

/-- The one-line form of a literal. -/
def Literal.text : Literal → String
  | .bool true => "True"
  | .bool false => "False"
  | .int n => toString n
  | .real q => Decimal.ratText q
  | .bitVec _ v => toString v.toNat
  | .root negative q => Decimal.rootText negative q

namespace Term

/-- A name applied to operands. -/
def applied (name : String) (operands : List String) : String :=
  name ++ "(" ++ ", ".intercalate operands ++ ")"

/-- The name of the bound variable with the given index. -/
def boundName (scope : List String) (i : Nat) : String :=
  (scope[i]?).getD ("Var(" ++ toString i ++ ")")

/-- Puts parentheses around a form where they are needed. -/
def guarded (needed : Bool) (form : String) : String :=
  if needed then "(" ++ form ++ ")" else form

/-- Whether a term stands in parentheses behind a minus sign. -/
def guardedBySign : Term → Bool
  | .op .neg _ => false
  | .op f _ => (f.rank?.map fun r => decide (1 ≤ r)).getD false
  | .quant _ _ _ => true
  | _ => false

/-- The names that a quantifier binds: one name, or several in brackets. -/
def binderText : List Constant → String
  | [x] => x.name
  | xs => "[" ++ ", ".intercalate (xs.map (·.name)) ++ "]"

mutual

/-- The form of a term whose bound variables have the names in `scope`, innermost first. -/
def textIn (scope : List String) : Term → String
  | .lit a => a.text
  | .bound i _ => boundName scope i
  | .fn f as => if as.isEmpty then f.name else applied f.name (textsIn scope as)
  | .op .neg [a] => "-" ++ guarded a.guardedBySign (textIn scope a)
  | .op .select [a, i] => textIn scope a ++ "[" ++ textIn scope i ++ "]"
  | .op f as =>
    match f.sign? with
    | some s =>
      (if s.spaced then " " ++ s.text ++ " " else s.text).intercalate (partsIn scope f true as)
    | none =>
      if f == .distinct && as.length == 2 then " != ".intercalate (partsIn scope f true as)
      else applied f.name (textsIn scope as)
  | .quant q xs b =>
    applied (if q == .all then "ForAll" else "Exists")
      [binderText xs, textIn ((xs.map (·.name)).reverse ++ scope) b]

/-- The forms of a list of terms. -/
def textsIn (scope : List String) : List Term → List String
  | [] => []
  | a :: as => textIn scope a :: textsIn scope as

/-- The operands of a sign, in parentheses where the sign needs them. `first` says whether the
list starts with the first operand. -/
def partsIn (scope : List String) (f : Op) (first : Bool) : List Term → List String
  | [] => []
  | .op g as :: rest =>
    (if f.absorbs g first then partsIn scope f true as
     else [guarded (!f.admits g first) (textIn scope (.op g as))])
      ++ partsIn scope f false rest
  | .quant q xs b :: rest =>
    guarded true (textIn scope (.quant q xs b)) :: partsIn scope f false rest
  | a :: rest => textIn scope a :: partsIn scope f false rest

end

/-- The one-line form of a term. -/
def text (t : Term) : String := textIn [] t

end Term

end Horn
