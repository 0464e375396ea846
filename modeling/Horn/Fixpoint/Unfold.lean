import Horn.Decision.Solved
import Horn.Fixpoint.Frame

/-!
# Unfolding

A derivation of the error can be searched for from its end: `Unfold.search` starts from the steps
that conclude the error and replaces the premises of a goal by the premises of steps that conclude
them, breadth first. A goal without premises whose guard can be satisfied completes a derivation,
and one whose guard is not decided ends the search. A goal that no model inside of a frame satisfies
is dropped, as a closed frame contains all that can be derived.
-/

namespace Horn
namespace Unfold

/-- The premises that remain, and a guard on the way to the error. -/
structure Goal where
  guard : List Term
  premises : List (Symbol × List Term)

/-- What a search has shown. -/
inductive Found where
  | derivation
  /-- All goals have been dropped. -/
  | nothing
  /-- A goal was not decided, or some goals are left. -/
  | undecided
  deriving DecidableEq

/-- The goal with what its guard says outright about variables put in everywhere. -/
def settle (g : Goal) : Goal :=
  let limit := (g.guard.flatMap Decision.constantsOf).length
  let (guard, found) := Decision.solveFor limit (Decision.conjuncts g.guard) []
  let putIn (t : Term) : Term :=
    Term.simplify (found.foldr (fun d t => Term.substitute [d] t) t)
  ⟨guard, g.premises.map fun (r, args) => (r, args.map putIn)⟩

/-- The goals that take the place of a goal with a first premise, one for each step that concludes
it. -/
def expand (steps : List Step) (suffix : String) (guard : List Term)
    (premise : Symbol × List Term) (rest : List (Symbol × List Term)) : List Goal :=
  (steps.filter (·.conclusion.1 == premise.1)).map fun s =>
    let s := s.withSuffix suffix
    settle ⟨guard ++ s.guard ++ (premise.2.zip s.conclusion.2).map (fun (a, b) => Term.eq a b),
      rest ++ s.premises⟩

/-- Searches through at most `fuel` goals. `frame` contains everything that can be derived. -/
def search (engine : Engine) (frame : Frame) (steps : List Step) : Nat → List Goal → Found
  | _, [] => .nothing
  | 0, _ :: _ => .undecided
  | fuel + 1, g :: goals =>
    let hints := g.premises.flatMap fun (r, args) => frame.conditions r args
    match engine.check (g.guard ++ hints), g.premises with
    | .unsat, _ => search engine frame steps fuel goals
    | .sat _, [] => .derivation
    | .unknown, [] => .undecided
    | _, p :: rest =>
      search engine frame steps fuel
        (goals ++ expand steps ("." ++ toString fuel) g.guard p rest)

/-- The goals to start from. -/
def start (error : Symbol) (steps : List Step) : List Goal :=
  (steps.filter (·.conclusion.1 == error)).map fun s => ⟨s.guard, s.premises⟩

end Unfold
end Horn
