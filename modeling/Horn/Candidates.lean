import Horn.Instance.Expand

/-!
# Candidate models

The accumulator keeps, for every predicate, the distinct fragments that have been learned; the
candidate definition of the predicate is their conjunction.

A fragment that simplifies to true is not recorded. One that simplifies to false takes the place
of everything recorded before, and after it nothing is recorded any more. So an entry never holds
a false fragment next to another one.

Predicates that are defined in the top-level instance are passed over by `Accumulator.merge`.
-/

namespace Horn

/-- The truth value that a formula simplifies to, if it does. -/
def Engine.truth? (engine : Engine) (t : Term) : Option Bool :=
  let s := engine.simplify t
  if s.isVerum then some true else if s.isFalsum then some false else none

/-- The fragments of each predicate, in the order in which the predicates were entered. -/
abbrev Accumulator := List (Int × List Term)

namespace Accumulator

/-- The accumulator without entries. -/
def empty : Accumulator := []

/-- The fragments of a predicate; none if it has no entry. -/
def fragments (m : Accumulator) (p : Int) : List Term :=
  ((m.find? (·.1 == p)).map (·.2)).getD []

/-- Whether a predicate has an entry. -/
def has (m : Accumulator) (p : Int) : Bool := m.any (·.1 == p)

/-- Sets the entry of a predicate. -/
def put (m : Accumulator) (p : Int) (fragments : List Term) : Accumulator :=
  if m.has p then m.map fun e => if e.1 == p then (p, fragments) else e
  else m ++ [(p, fragments)]

/-- The entries in ascending order of the predicates. -/
def items (m : Accumulator) : List (Int × List Term) :=
  m.mergeSort fun a b => decide (a.1 ≤ b.1)

/-- Whether a fragment adds nothing to a list of fragments. -/
def covered (engine : Engine) (fragments : List Term) (fragment : Term) : Bool :=
  fragments.any fun other => other == fragment || engine.truth? other == some false

/-- The fragments of an entry after one more has been learned. -/
def extend (engine : Engine) (fragments : List Term) (fragment : Term) : List Term :=
  match engine.truth? fragment with
  | some true => fragments
  | some false => [fragment]
  | none => if covered engine fragments fragment then fragments else fragments ++ [fragment]

/-- Records a fragment of a predicate of the top-level instance. -/
def add (engine : Engine) (top : Instance) (p : Int) (fragment : Term) : Act Accumulator Unit := do
  let m ← get
  let old := m.fragments p
  -- There is an entry from now on, even if the fragment adds nothing.
  set (m.put p old)
  if engine.truth? fragment == some false && !old.isEmpty then
    let q ← Act.ofExcept (top.pred p)
    Act.debug .accumulator ("candidate for " ++ q.name ++ " collapsed to false")
  set (m.put p (extend engine old fragment))

/-- Records the fragments of a partial model, except for predicates that are defined. -/
def merge (engine : Engine) (top : Instance) (model : Definitions) : Act Accumulator Unit :=
  model.forM fun (p, fragment) => do
    -- A definition stands: nothing is learned about its predicate.
    if ← Act.ofExcept (top.isKnown p) then pure ()
    else add engine top p fragment

/-- Whether all that was learned about a predicate amounts to false. -/
def isFalse (engine : Engine) (m : Accumulator) (p : Int) : Bool :=
  match m.fragments p with
  | [fragment] => engine.truth? fragment == some false
  | _ => false

/-- The conjunction of fragments; true without any. -/
def conjoin : List Term → Term
  | [] => .verum
  | [fragment] => fragment
  | fragments => .op .and fragments

/-- The candidate definition of a predicate. -/
def conjunction (m : Accumulator) (p : Int) : Term := conjoin (m.fragments p)

/-- The candidate definitions in ascending order of the predicates. -/
def definitions (m : Accumulator) : Definitions :=
  m.items.map fun (p, fragments) => (p, conjoin fragments)

/-- A listing of the accumulator, line by line. -/
def lines (top : Instance) (m : Accumulator) : Except Fault (List String) := do
  let entries ← m.items.mapM fun (p, fragments) => do
    let q ← top.pred p
    pure ((q.name ++ ":")
      :: (if fragments.isEmpty then ["  true"] else fragments.map fun f => "  " ++ f.text))
  pure entries.flatten

end Accumulator

end Horn
