import Horn.Instance.Basic

/-!
# Safe and positive predicates

A defined predicate is *safe* when its definition mentions safe predicates only: its applications
can then be expanded until no predicate is left outside of quantified formulas. The safe predicates
are the least such set. A safe predicate whose definition mentions no predicate at all is
*positive*.

`safePredicates` grows the set in rounds; each round that adds something adds a predicate, so the
number of predicates bounds the number of rounds.
-/

namespace Horn
namespace Instance

/-- What the definition of a predicate mentions, if it has one. -/
def mentions? (inst : Instance) (p : Nat) : Option (List Nat) :=
  (inst.definition? p).map fun d => inst.predsIn d.body

/-- Whether the definition of `p` mentions nothing outside a set. -/
def safeOver (inst : Instance) (safe : List Nat) (p : Nat) : Bool :=
  match inst.mentions? p with
  | some refs => refs.all (safe.contains ·)
  | none => false

/-- One round: adds, one after the other, the predicates that have become safe. -/
def safeRound (inst : Instance) (safe : List Nat) : List Nat :=
  (List.range inst.preds.length).foldl
    (fun safe p => if !safe.contains p && inst.safeOver safe p then safe ++ [p] else safe) safe

/-- Rounds until nothing is added, at most `fuel` of them. -/
def safeRounds (inst : Instance) : Nat → List Nat → List Nat
  | 0, safe => safe
  | fuel + 1, safe =>
    let next := inst.safeRound safe
    if next.length = safe.length then safe else safeRounds inst fuel next

/-- The safe predicates in ascending order. -/
def safePredicates (inst : Instance) : List Nat :=
  let safe := inst.safeRounds (inst.preds.length + 1) []
  (List.range inst.preds.length).filter (safe.contains ·)

/-- The predicates whose definition mentions no predicate, in ascending order. -/
def positivePredicates (inst : Instance) : List Nat :=
  (List.range inst.preds.length).filter fun p => inst.mentions? p == some []

end Instance
end Horn
