import Horn.Act
import Horn.Term.Substitute
import Horn.Term.Typed

/-!
# Predicates

A predicate has a name and a signature. The signature may be a reduction of an earlier one: then
`positions[i]` is the original position of the current argument `i`. `Predicate.make` accepts
exactly the consistent descriptions.

A predicate may carry a definition, a formula over parameters that may mention other predicates.
-/

namespace Horn

/-- The definition `P(params) := body`. -/
structure Definition where
  params : List Constant
  body : Term
  deriving Inhabited

namespace Definition

/-- The body with arguments in place of the parameters. The arguments have to match the
parameters in number and in sort. -/
def apply (d : Definition) (args : List Term) : Except Fault Term :=
  if args.length ≠ d.params.length then
    .error (.definitionArity d.params.length args.length)
  else if d.params.isEmpty then .ok d.body
  else if args.map Term.sort = d.params.map (·.sort) then
    .ok (Term.substitute (d.params.zip args) d.body)
  else .error .illSorted

end Definition

/-- A relational predicate with its current and its original signature. -/
structure Predicate where
  name : String
  sorts : List TermSort
  originalSorts : List TermSort
  /-- The original position of each current argument. -/
  positions : List Nat
  definition : Option Definition
  deriving Inhabited

namespace Predicate

/-- The symbol that applications of the predicate apply. -/
def symbol (p : Predicate) : Symbol := ⟨p.name, p.sorts, .bool⟩

/-- The number of current arguments. -/
def arity (p : Predicate) : Nat := p.sorts.length

/-- The formal parameter at an argument position. -/
def param (name : String) (i : Nat) (sort : TermSort) : Constant :=
  ⟨name ++ "!" ++ toString i, sort⟩

/-- The formal parameters `P!0`, `P!1`, … of the current signature. -/
def params (p : Predicate) : List Constant :=
  p.sorts.zipIdx.map fun (s, i) => param p.name i s

/-- Whether arguments have been removed from the original signature. -/
def isReduced (p : Predicate) : Bool := p.sorts.length != p.originalSorts.length

/-- Checks that each position lies in the original signature and has the sort it should have;
`i` is the argument that the first position belongs to. -/
def checkPositions (name : String) (original : List TermSort) :
    Nat → List TermSort → List Int → Except Fault (List Nat)
  | i, s :: sorts, old :: rest =>
    if old < 0 ∨ (original.length : Int) ≤ old then .error (.mapOutside name old)
    else if original[old.toNat]? ≠ some s then .error (.mapSort name i)
    else (checkPositions name original (i + 1) sorts rest).map (old.toNat :: ·)
  | _, _, _ => .ok []

/-- A predicate from a description. Without a position map the signature is not reduced. -/
def make (name : String) (sorts : List TermSort) (original : Option (List TermSort))
    (positions : Option (List Int)) : Except Fault Predicate := do
  let orig := original.getD sorts
  let positions ← match positions with
    | some positions => pure positions
    | none =>
      if sorts.length = orig.length then pure ((List.range sorts.length).map Int.ofNat)
      else throw (Fault.reducedWithoutMap name)
  if positions.length ≠ sorts.length then throw (Fault.mapLength name)
  let positions ← checkPositions name orig 0 sorts positions
  pure ⟨name, sorts, orig, positions, none⟩

end Predicate

end Horn
