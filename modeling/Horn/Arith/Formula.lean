import Horn.Arith.Elimination

/-!
# Formulas over linear constraints

Formulas in negation normal form over linear constraints and Boolean variables, and a search for
a model.

The search takes a conjunction apart and puts disjunctions aside. When only disjunctions are left
it drops the alternatives that contradict what is known; a disjunction with one alternative left
is no choice any more, and otherwise the disjunction with the fewest alternatives is split.
Unequal terms are looked at last: only if the values that have been found make them equal does
the search decide which is the greater.
-/

namespace Horn
namespace Arith

/-- A formula in negation normal form. -/
inductive Formula where
  | const (b : Bool)
  | flag (x : Nat) (value : Bool)
  | compare (c : Constraint)
  | differ (e : Linear)
  | all (fs : List Formula)
  | any (fs : List Formula)

instance : Inhabited Formula := ⟨.const true⟩

mutual

/-- The number of nodes. -/
def Formula.size : Formula → Nat
  | .const _ | .flag _ _ | .compare _ | .differ _ => 1
  | .all fs | .any fs => sizes fs + 1

/-- The number of nodes of a list of formulas. -/
def Formula.sizes : List Formula → Nat
  | [] => 0
  | f :: fs => f.size + sizes fs

end

/-- Values for the numeric and the Boolean variables. -/
structure Assignment where
  numbers : Values
  flags : List (Nat × Bool)
  deriving Inhabited

/-- What has been decided on a branch of the search. -/
structure Branch where
  facts : List Constraint
  differ : List Linear
  flags : List (Nat × Bool)
  deriving Inhabited

namespace Branch

/-- The value of a Boolean variable on a branch. -/
def flag? (b : Branch) (x : Nat) : Option Bool := (b.flags.find? (·.1 == x)).map (·.2)

/-- Whether a formula contradicts a branch, as far as that is seen at once: a Boolean variable
with the other value, or constraints that do not hold together. -/
def refutes (kinds : Kinds) (b : Branch) : Formula → Bool
  | .const c => !c
  | .flag x v => b.flag? x == some !v
  | .compare c =>
    match solve kinds (c :: b.facts) with
    | .unsat => true
    | _ => false
  | .differ e => e.weights.isEmpty && e.constant == 0
  | .all fs =>
    (fs.any fun f => match f with
      | .const c => !c
      | .flag x v => b.flag? x == some !v
      | _ => false)
    || (let cs := fs.filterMap fun f => match f with
          | .compare c => some c
          | _ => none
        if cs.isEmpty then false
        else match solve kinds (cs ++ b.facts) with
          | .unsat => true
          | _ => false)
  | .any _ => false

/-- Whether a formula is already true on a branch, as far as that is seen at once. -/
def grants (b : Branch) : Formula → Bool
  | .const c => c
  | .flag x v => b.flag? x == some v
  | .compare c => b.facts.contains c
  | _ => false

/-- The disjunctions that are not decided on a branch, without refuted alternatives. -/
def prune (kinds : Kinds) (b : Branch) (pending : List (List Formula)) : List (List Formula) :=
  (pending.filter fun fs => !fs.any b.grants).map fun fs => fs.filter fun f => !b.refutes kinds f

end Branch

/-- The shortest list of a list, and the others. -/
def takeShortest {α : Type} : List (List α) → Option (List α × List (List α))
  | [] => none
  | xs :: rest =>
    match takeShortest rest with
    | none => some (xs, [])
    | some (ys, others) =>
      if ys.length < xs.length then some (ys, xs :: others) else some (xs, ys :: others)

/-- Searches for values that make all formulas of `todo`, one alternative of each list of
`pending`, and everything on the branch true. -/
def search (kinds : Kinds) :
    Nat → List Formula → List (List Formula) → Branch → Answer Assignment
  | 0, _, _, _ => .unknown
  | fuel + 1, f :: todo, pending, b =>
    match f with
    | .const true => search kinds fuel todo pending b
    | .const false => .unsat
    | .flag x v =>
      match b.flag? x with
      | some w => if v == w then search kinds fuel todo pending b else .unsat
      | none => search kinds fuel todo pending { b with flags := (x, v) :: b.flags }
    | .compare c => search kinds fuel todo pending { b with facts := c :: b.facts }
    | .differ e => search kinds fuel todo pending { b with differ := e :: b.differ }
    | .all fs => search kinds fuel (fs ++ todo) pending b
    | .any fs => search kinds fuel todo (fs :: pending) b
  | fuel + 1, [], pending, b =>
    match solve kinds b.facts with
    | .unsat => .unsat
    | answer =>
      match takeShortest (b.prune kinds pending) with
      | some ([], _) => .unsat
      | some (alternatives, others) =>
        firstSat (fun f => search kinds fuel [f] others b) alternatives
      | none =>
        match answer with
        | .sat v =>
          match b.differ.find? fun e => e.eval v.get == 0 with
          | none => .sat ⟨v, b.flags⟩
          | some e =>
            let b := { b with differ := b.differ.filter (· != e) }
            firstSat (fun f => search kinds fuel [f] [] b)
              [.compare ⟨.lt, e⟩, .compare ⟨.lt, e.scale (-1)⟩]
        | _ => .unknown

/-- Decides a formula. Every step of the search removes a node or decides an inequality. -/
def Formula.solve (kinds : Kinds) (f : Formula) : Answer Assignment :=
  search kinds (4 * f.size + 8) [f] [] default

end Arith
end Horn
