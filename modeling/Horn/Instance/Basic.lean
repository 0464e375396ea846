import Horn.Instance.Clause

/-!
# Instances

An instance is an indexed table of predicates and an indexed table of clauses. Handles are
integers: predicate `i` is the `i`-th entry of `preds`, clause `i` the `i`-th entry of `clauses`.
A negative handle counts from the end of the table (`resolve?`).

`users[p]` and `producers[p]` list the clauses that have predicate `p` on the left, and that
conclude it, in ascending order.

An instance counts its holders (`holders`); only an instance that nobody holds may be changed in
place (`Instance.isExclusive`). `expansions` remembers expansions that have been computed, see
`Horn.Instance.Expand`.

Operations that add something fail before they change anything.
-/

namespace Horn

/-- The entry that a handle selects in a table of `n` entries; a negative handle counts from the
end. -/
def resolve? (n : Nat) (handle : Int) : Option Nat :=
  if 0 ≤ handle then (if handle < n then some handle.toNat else none)
  else if 0 ≤ handle + n then some (handle + n).toNat else none

/-- What a handle selects in a table. -/
def atHandle {α : Type} (table : List α) (handle : Int) : Except Fault α :=
  match (resolve? table.length handle).bind (table[·]?) with
  | some a => .ok a
  | none => .error .outOfRange

/-- A problem of constrained Horn clauses: predicates and clauses. -/
structure Instance where
  name : String
  preds : List Predicate
  clauses : List Clause
  users : List (List Nat)
  producers : List (List Nat)
  holders : Nat
  expansions : List (Term × Term)
  deriving Inhabited

/-- One formula for each of some predicates, in the order in which they were entered. -/
abbrev Definitions := List (Int × Term)

namespace Definitions

/-- Sets the formula of a predicate; a predicate that has one keeps its place. -/
def insert (defs : Definitions) (pred : Int) (body : Term) : Definitions :=
  if defs.any (·.1 == pred) then defs.map fun d => if d.1 == pred then (pred, body) else d
  else defs ++ [(pred, body)]

/-- The map that a list of pairs describes; the last pair for a predicate counts. -/
def ofPairs (pairs : List (Int × Term)) : Definitions :=
  pairs.foldl (fun defs (p, t) => insert defs p t) []

/-- Whether a predicate has a formula. -/
def has (defs : Definitions) (pred : Int) : Bool := defs.any (·.1 == pred)

/-- The formula of a predicate. -/
def get? (defs : Definitions) (pred : Int) : Option Term :=
  (defs.find? (·.1 == pred)).map (·.2)

end Definitions

/-- The description of a clause that is to be added. -/
structure ClauseSpec where
  vars : List Constant
  terms : List Term
  apps : List (Int × List Term)
  conclusion : Option (Int × List Term)
  fromUnrolling : Bool
  strict : Bool

namespace Instance

/-- The instance without predicates and clauses. -/
def empty (name : String) : Instance := ⟨name, [], [], [], [], 0, []⟩

/-- The predicate at a handle. -/
def pred (inst : Instance) (p : Int) : Except Fault Predicate := atHandle inst.preds p

/-- The clause at a handle. -/
def clause (inst : Instance) (c : Int) : Except Fault Clause := atHandle inst.clauses c

/-! ### Construction -/

/-- Adds a checked predicate with its definition, if it has one. -/
def insertPredicate (inst : Instance) (p : Predicate) : Instance :=
  { inst with
    preds := inst.preds ++ [p]
    users := inst.users ++ [[]]
    producers := inst.producers ++ [[]] }

/-- Adds a predicate. Names are unique. -/
def addPredicate (inst : Instance) (name : String) (sorts : List TermSort)
    (original : Option (List TermSort)) (positions : Option (List Int)) :
    Except Fault Instance := do
  if inst.preds.any (·.name == name) then throw (Fault.predicateTwice name)
  let p ← Predicate.make name sorts original positions
  pure (inst.insertPredicate p)

/-- Checks the predicate and the number of arguments of an application. -/
def checkApp (inst : Instance) (app : Int × List Term) : Except Fault (Nat × List Term) :=
  if app.1 < 0 then .error (.noSuchPredicate app.1)
  else match inst.preds[app.1.toNat]? with
    | none => .error (.noSuchPredicate app.1)
    | some p =>
      if app.2.length = p.arity then .ok (app.1.toNat, app.2)
      else .error (.wrongArity p.name app.2.length p.arity)

/-- Appends an index to the lists of the given predicates. -/
def noteIndex (table : List (List Nat)) (preds : List Nat) (index : Nat) : List (List Nat) :=
  table.zipIdx.map fun (indices, p) => if p ∈ preds then indices ++ [index] else indices

/-- Adds a checked clause. -/
def insertClause (inst : Instance) (c : Clause) : Instance :=
  { inst with
    clauses := inst.clauses ++ [c]
    users := noteIndex inst.users c.usedPreds c.index
    producers := noteIndex inst.producers (c.conclusion.toList.map (·.1)) c.index }

/-- Adds a clause. Every application has to name a predicate and match its arity. -/
def addClause (inst : Instance) (spec : ClauseSpec) : Except Fault Instance := do
  let apps ← spec.apps.mapM inst.checkApp
  let conclusion ← match spec.conclusion with
    | none => pure none
    | some app => some <$> inst.checkApp app
  pure (inst.insertClause
    ⟨inst.clauses.length, spec.vars, spec.terms, Uses.group apps, conclusion,
      spec.fromUnrolling, spec.strict⟩)

/-- Defines a predicate, over its formal parameters unless others are given. -/
def setDefinition (inst : Instance) (p : Int) (body : Term) (params : Option (List Constant)) :
    Except Fault Instance :=
  match resolve? inst.preds.length p with
  | none => .error .outOfRange
  | some i => .ok { inst with
      preds := inst.preds.modify i fun q =>
        { q with definition := some ⟨params.getD q.params, body⟩ }
      expansions := [] }

/-- A clause of this instance as the description of a clause of another one. -/
def respec (c : Clause) : ClauseSpec :=
  ⟨c.vars, c.terms, c.apps.map fun (p, args) => ((p : Int), args),
    c.conclusion.map fun (p, args) => ((p : Int), args), c.fromUnrolling, c.strict⟩

/-- A new instance with the same predicates and definitions and with some of the clauses, in the
order of the list. -/
def derive (inst : Instance) (name : String) (clauses : List Int) : Except Fault Instance :=
  clauses.foldlM
    (fun sub c => do sub.addClause (respec (← inst.clause c)))
    (inst.preds.foldl insertPredicate (empty name))

/-! ### Queries -/

/-- The clauses without conclusion. -/
def negClauses (inst : Instance) : List Nat :=
  (inst.clauses.filter (·.isNegative)).map (·.index)

/-- An entry of an index table. Handles do not count from the end here. -/
def indexed (table : List (List Nat)) (p : Int) : Except Fault (List Nat) :=
  if p < 0 then .error .noEntry
  else match table[p.toNat]? with
    | some indices => .ok indices
    | none => .error .noEntry

/-- The clauses that have a predicate on the left. -/
def usersOf (inst : Instance) (p : Int) : Except Fault (List Nat) := indexed inst.users p

/-- The clauses that conclude a predicate. -/
def producersOf (inst : Instance) (p : Int) : Except Fault (List Nat) :=
  indexed inst.producers p

/-- Whether a predicate is defined. -/
def isKnown (inst : Instance) (p : Int) : Except Fault Bool := do
  pure (← inst.pred p).definition.isSome

/-- The predicate whose applications apply a symbol. -/
def predOf? (inst : Instance) (f : Symbol) : Option Nat :=
  inst.preds.findIdx? (·.symbol == f)

/-- The definition of the predicate with an index. -/
def definition? (inst : Instance) (p : Nat) : Option Definition :=
  (inst.preds[p]?).bind (·.definition)

/-! ### Mentioned predicates -/

/-- A search for the predicates that terms mention: the terms that are still to be looked at, the
next one first, those that have been looked at, and the symbols of predicates found so far. -/
structure Search where
  todo : List Term
  seen : List Term
  found : List Symbol

namespace Search

/-- The search in one term. -/
def start (t : Term) : Search := ⟨[t], [], []⟩

/-- The symbol that a term applies is noted if it is the symbol of a predicate. -/
def note (inst : Instance) (found : List Symbol) : Term → List Symbol
  | .fn f _ => if (inst.predOf? f).isSome then found.insert f else found
  | _ => found

/-- One round. The next term is passed over if it has been looked at. Otherwise its symbol is noted,
and its children come next, the last one first. -/
def round (inst : Instance) (s : Search) : Search :=
  match s.todo with
  | [] => s
  | t :: rest =>
    if t ∈ s.seen then { s with todo := rest }
    else ⟨t.children.reverse ++ rest, t :: s.seen, note inst s.found t⟩

/-- The number of nodes of the terms that are still to be looked at. -/
def size (s : Search) : Nat := Term.sizeList s.todo

/-- A round takes the next term apart, so that there are fewer nodes left. -/
theorem size_round_lt (inst : Instance) {s : Search} (h : s.todo ≠ []) :
    (s.round inst).size < s.size := by
  obtain ⟨_ | ⟨t, rest⟩, seen, found⟩ := s
  · exact absurd rfl h
  · have hsize := t.size_eq
    unfold round size
    dsimp only
    rw [Term.sizeList]
    split
    · dsimp only
      omega
    · dsimp only
      rw [Term.sizeList_append, Term.sizeList_reverse]
      omega

/-- Rounds until there is nothing more to look at. -/
@[semireducible] -- so that it is evaluated on closed terms
def run (inst : Instance) (s : Search) : Search :=
  if _h : s.todo = [] then s else run inst (s.round inst)
termination_by s.size
decreasing_by exact size_round_lt inst _h

end Search

/-- The predicates that a term mentions, also under quantifiers, in ascending order. -/
def predsIn (inst : Instance) (t : Term) : List Nat :=
  let found := (Search.run inst (.start t)).found
  (List.range inst.preds.length).filter fun i =>
    match inst.preds[i]? with
    | some p => found.contains p.symbol
    | none => false

/-- The predicates that the definition of a predicate mentions; none without a definition. -/
def predsOfDefinition (inst : Instance) (p : Int) : Except Fault (List Nat) := do
  match (← inst.pred p).definition with
  | none => pure []
  | some d => pure (inst.predsIn d.body)

/-! ### Holders -/

/-- Registers a holder. -/
def retain (inst : Instance) : Instance := { inst with holders := inst.holders + 1 }

/-- One of the holders has changed the number of its holds. -/
def rehold (inst : Instance) (before after : Nat) : Instance :=
  { inst with holders := inst.holders - before + after }

/-- Removes a holder. -/
def release (inst : Instance) : Except Fault Instance :=
  if inst.holders = 0 then .error (.overReleased inst.name)
  else .ok { inst with holders := inst.holders - 1 }

/-- Whether nobody holds the instance. -/
def isExclusive (inst : Instance) : Bool := inst.holders == 0

/-- What is said of the holders of an instance. -/
def ownershipText (inst : Instance) : String :=
  if inst.isExclusive then "exclusive" else "shared"

/-! ### Display -/

/-- The name of an instance in messages. -/
def title (inst : Instance) : String := if inst.name.isEmpty then "instance" else inst.name

/-- The line that lists a predicate. -/
def predLine (p : Predicate) : String :=
  "  pred " ++ p.name ++ " (" ++ " ".intercalate (p.sorts.map TermSort.text) ++ ")"
    ++ (if p.isReduced then "  original arity " ++ toString p.originalSorts.length else "")
    ++ (match p.definition with
      | some d => "  := " ++ d.body.text
      | none => "")

/-- A listing of all predicates and clauses, line by line. -/
def infoLines (inst : Instance) : List String :=
  (if inst.name.isEmpty then "instance" else "instance " ++ inst.name)
    :: inst.preds.map predLine ++ inst.clauses.map fun c => "  " ++ c.text inst.preds

/-- Name and sizes of an instance. -/
def summary (inst : Instance) : String :=
  "Instance(" ++ Text.quoted inst.name ++ ", " ++ toString inst.preds.length ++ " preds, "
    ++ toString inst.clauses.length ++ " clauses)"

end Instance

end Horn
