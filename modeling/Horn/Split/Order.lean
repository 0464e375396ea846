import Horn.Instance.Basic

/-!
# The order of the splits

Negative clauses are isolated one after the other, the clause with the greatest priority first.
The priority is the triple of

* whether the clause is strictly negative,
* whether it comes from an unrolling,
* a score: its connectivity, or the negated index when connectivity is not to be used,

in lexicographic order; of two clauses with the same priority the later one goes first.
`splitOrder` lists the negative clauses in ascending order, so they are taken from its end.
-/

namespace Horn
namespace Instance

/-- The number of clauses with a conclusion that have a predicate on the left. -/
def consequences (inst : Instance) (p : Nat) : Nat :=
  (((inst.users[p]?).getD []).filter fun i =>
    ((inst.clauses[i]?).map (·.conclusion.isSome)).getD false).length

/-- Whether some clause concludes a predicate from no predicate. -/
def hasFact (inst : Instance) (p : Nat) : Bool :=
  ((inst.producers[p]?).getD []).any fun i =>
    ((inst.clauses[i]?).map (·.uses.isEmpty)).getD false

/-- Connectivity of a clause: for each predicate on the left, the number of clauses that draw a
consequence from it. A predicate that is backed by a fact sets the count back to zero: little is
learned from splitting on it. -/
def connectivity (inst : Instance) (c : Clause) : Nat :=
  c.usedPreds.foldl
    (fun total p => if inst.hasFact p then 0 else total + inst.consequences p) 0

/-- Connectivity of the clause at a handle. -/
def clauseScore (inst : Instance) (c : Int) : Except Fault Nat := do
  pure (inst.connectivity (← inst.clause c))

/-- The priority of a negative clause. -/
structure Priority where
  strict : Bool
  unrolling : Bool
  score : Int
  deriving DecidableEq, Inhabited

/-- The lexicographic order on priorities. -/
def Priority.le (a b : Priority) : Bool :=
  if a.strict != b.strict then b.strict
  else if a.unrolling != b.unrolling then b.unrolling
  else decide (a.score ≤ b.score)

/-- The priority of a clause, by connectivity or by its place in the table. -/
def priority (inst : Instance) (byConnectivity : Bool) (c : Clause) : Priority :=
  ⟨c.isStrictNegative, c.fromUnrolling,
    if byConnectivity then inst.connectivity c else -(c.index : Int)⟩

/-- The negative clauses in ascending priority. -/
def splitOrder (inst : Instance) (byConnectivity : Bool) : List Nat :=
  (((inst.clauses.filter (·.isNegative)).map fun c => (inst.priority byConnectivity c, c.index))
    |>.mergeSort fun a b => a.1.le b.1).map (·.2)

end Instance
end Horn
