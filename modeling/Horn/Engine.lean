import Horn.Term.Basic

/-!
# The logic engine

Splitting and reconstruction rely on three services: rewriting a term into a simpler one with the
same meaning, deciding whether a list of formulas has a model, and applying an operator to new
arguments. `Engine` is the interface; everything above it works with any engine, and says what it
needs of it where it needs it.

A term is rebuilt by calling the declaration of its operator with other arguments. Operators such as
`and` and `+` apply to any number of arguments, while they are declared for two. It is up to the
engine how many arguments a declaration takes in a call (`Callable`).
-/

namespace Horn

/-- A model, as the values that it gives to terms. -/
structure Model where
  eval : Term → Term

/-- The answer to a satisfiability query. -/
inductive Verdict where
  | unsat
  | sat (model : Model)
  | unknown

/-- The numbers of arguments that the declaration of an operator can be called with. -/
abbrev Callable := Op → Nat → Bool

/-- Every declaration can be called with any number of arguments. -/
def Callable.any : Callable := fun _ _ => true

/-- The services of a logic engine. -/
structure Engine where
  /-- A simpler term with the same meaning. -/
  simplify : Term → Term
  /-- Whether all formulas of the list hold together in some model. -/
  check : List Term → Verdict
  /-- The calls that it takes. -/
  callable : Callable := .any

end Horn
