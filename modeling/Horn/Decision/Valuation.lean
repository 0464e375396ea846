import Horn.Term.Simplify

/-!
# Valuations

A valuation gives literals to constants, and results to applications of uninterpreted symbols to
literals. `Valuation.eval` evaluates a term from the inside; whatever the valuation does not
mention is zero or false.
-/

namespace Horn
namespace Decision

/-- Values of constants and of applications. -/
structure Valuation where
  constants : List (Constant × Term)
  applications : List (Symbol × List Term × Term)
  deriving Inhabited

/-- The value that a sort has where nothing is known. -/
def defaultValue : TermSort → Option Term
  | .bool => some Term.falsum
  | .int => some (Term.int 0)
  | .real => some (Term.real 0)
  | .bitVec w => some (Term.bitVec w 0)
  | _ => none

/-- The symbol under which the elements of an array constant are known. -/
def elements (name : String) (index element : TermSort) : Symbol := ⟨name, [index], element⟩

namespace Valuation

/-- The value of an application to values. -/
def apply (v : Valuation) (f : Symbol) (args : List Term) : Term :=
  if f.domain.isEmpty then
    match v.constants.find? (·.1 == ⟨f.name, f.range⟩) with
    | some (_, t) => t
    | none => (defaultValue f.range).getD (.fn f args)
  else
    match v.applications.find? fun (g, as, _) => g == f && as == args with
    | some (_, _, t) => t
    | none => (defaultValue f.range).getD (.fn f args)

/-- The value of an operation on values. An element of an array constant is looked up. -/
def operate (v : Valuation) (f : Op) (args : List Term) : Term :=
  match f, args with
  | .select, [.fn a [], i] =>
    match a.range with
    | .array s e => v.apply (elements a.name s e) [i]
    | _ => .op f args
  | f, args => Term.rewriteOp f args

mutual

/-- The value of a term. -/
def eval (v : Valuation) : Term → Term
  | .lit a => .lit a
  | .bound i s => .bound i s
  | .fn f as => v.apply f (evalList v as)
  | .op f as => v.operate f (evalList v as)
  | .quant q xs b => .quant q xs b

/-- The values of a list of terms. -/
def evalList (v : Valuation) : List Term → List Term
  | [] => []
  | a :: as => eval v a :: evalList v as

end

end Valuation

end Decision
end Horn
