import Horn.Decision.Valuation
import Horn.Decision.Solved

/-!
# Flattening

`flatten` turns a quantifier-free formula into one over linear arithmetic and Boolean constants.
Every part that is neither is named by a new constant, and side conditions say what the name
stands for:

* a choice between numbers equals one branch or the other;
* quotient and remainder satisfy the division rule, an integer part lies within one of its number;
* a word is an integer between zero and a power of two, and an operation on words is the operation
  on integers minus a multiple of that power;
* applications of the same symbol to equal arguments are equal, for symbols, for elements of
  arrays, and for division by zero.

A part that cannot be expressed is named without a side condition. Then the result is only weaker
than the formula (`State.relaxed`): unsatisfiability carries over, satisfiability may not.
-/

namespace Horn
namespace Decision

open Term

/-- The names given so far. Every new constant is called `stem` followed by a number. -/
structure Names where
  stem : String
  count : Nat
  side : List Term
  known : List (Term × Term)
  applications : List (Symbol × List Term × Term)
  relaxed : Bool
  deriving Inhabited

/-- The number of question marks at the start of a name. -/
def marks (name : String) : Nat := (name.toList.takeWhile (· == '?')).length

/-- No names have been given yet. New constants will start with more question marks than any symbol
of the formulas. -/
def Names.avoiding (ts : List Term) : Names :=
  let most := (ts.flatMap Term.symbols).foldl (fun n f => max n (marks f.name)) 0
  ⟨String.ofList (List.replicate (most + 1) '?'), 0, [], [], [], false⟩

/-- A new constant of an arithmetic or Boolean sort. -/
def fresh (sort : TermSort) : StateM Names Term := do
  let s ← get
  set { s with count := s.count + 1 }
  pure (const ⟨s.stem ++ toString s.count, sort⟩)

/-- Adds a side condition. -/
def require (t : Term) : StateM Names Unit :=
  modify fun s => { s with side := t :: s.side }

/-- Marks the result as weaker than the formula. -/
def relax : StateM Names Unit := modify fun s => { s with relaxed := true }

/-- The name of a term; when it is new, `conditions` are added. -/
def nameOf (key : Term) (sort : TermSort) (conditions : Term → StateM Names Unit) :
    StateM Names Term := do
  match (← get).known.find? (·.1 == key) with
  | some (_, c) => pure c
  | none =>
    let c ← fresh sort
    modify fun s => { s with known := (key, c) :: s.known }
    conditions c
    pure c

/-- The sort by which a sort is represented. -/
def represented : TermSort → TermSort
  | .bool => .bool
  | .real => .real
  | _ => .int

/-- The condition that a word of `w` bits satisfies. -/
def wordRange (w : Nat) (t : Term) : Term :=
  .op .and [.op .le [int 0, t], .op .le [t, int (Int.pow 2 w - 1)]]

/-- The condition on the representation of a value of a sort. -/
def inRange (sort : TermSort) (t : Term) : StateM Names Unit :=
  match sort with
  | .bitVec w => require (wordRange w t)
  | _ => pure ()

/-- The name of an application, equal to that of every application to equal arguments. -/
def application (f : Symbol) (args : List Term) : StateM Names Term :=
  nameOf (.fn f args) (represented f.range) fun c => do
    inRange f.range c
    for (g, bs, d) in (← get).applications do
      if g == f then
        require (.op .or (.op .eq [c, d] :: (args.zip bs).map fun (a, b) =>
          Term.neg (.op .eq [a, b])))
    modify fun s => { s with applications := (f, args, c) :: s.applications }

/-- A part that cannot be expressed. -/
def opaqueTerm (key : Term) (sort : TermSort) : StateM Names Term := do
  relax
  nameOf key (represented sort) (inRange sort)

/-- The name of a choice between numbers. -/
def choiceOf (c a b : Term) : StateM Names Term :=
  nameOf (.op .ite [c, a, b]) a.sort fun v => do
    require (.op .or [Term.neg c, .op .eq [v, a]])
    require (.op .or [c, .op .eq [v, b]])

/-- The integral quotient by a number other than zero. -/
def quotientOf (a : Term) (k : Int) : StateM Names Term :=
  nameOf (.op .div [a, int k]) .int fun q => do
    let rest := Term.op .sub [a, .op .mul [int k, q]]
    require (.op .and [.op .le [int 0, rest], .op .lt [rest, int k.natAbs]])

/-- An integer as a word of `w` bits. -/
def wrap (w : Nat) (t : Term) : StateM Names Term := do
  let q ← quotientOf t (Int.pow 2 w)
  pure (.op .sub [t, .op .mul [int (Int.pow 2 w), q]])

/-- The signed value of a word of `w` bits. -/
def signedOf (w : Nat) (t : Term) : StateM Names Term :=
  choiceOf (.op .lt [t, int (Int.pow 2 (w - 1))]) t (.op .sub [t, int (Int.pow 2 w)])

/-- A product: linear if at most one factor is not a numeral. -/
def productTerm (sort : TermSort) (args : List Term) : StateM Names Term := do
  let args := args.map simplify
  match args.filter (·.numeral?.isNone) with
  | [] | [_] => pure (simplify (.op .mul args))
  | others =>
    let p ← opaqueTerm (.op .mul others) sort
    pure (.op .mul (args.filter (·.numeral?.isSome) ++ [p]))

/-- The pairs of an item and one that comes after it. -/
def allPairs {α : Type} : List α → List (α × α)
  | [] => []
  | a :: as => as.map (a, ·) ++ allPairs as

/-- Pairwise different terms. -/
def distinctTerm : List Term → Term
  | [a, b] => .op .distinct [a, b]
  | as => .op .and ((allPairs as).map fun (a, b) => Term.neg (.op .eq [a, b]))

/-- An operation on flat arguments. `sorts` are the sorts of the arguments before flattening, and
`sort` is that of the result. -/
def operation (f : Op) (sorts : List TermSort) (sort : TermSort) (args : List Term) :
    StateM Names Term :=
  let width := match sorts with
    | .bitVec w :: _ => w
    | _ => 0
  match f, args with
  | .ite, [c, a, b] => if sort == .bool then pure (.op .ite [c, a, b]) else choiceOf c a b
  | .eq, _ | .distinct, _ =>
    match sorts with
    | .array _ _ :: _ => opaqueTerm (.op f args) .bool
    | _ => pure (if f == .distinct then distinctTerm args else .op f args)
  | .mul, _ => productTerm sort args
  | .div, [a, b] =>
    match simplify b with
    | .lit (.int k) =>
      if k = 0 then application ⟨"div0", [.int], .int⟩ [a] else quotientOf a k
    | b => opaqueTerm (.op .div [a, b]) .int
  | .mod, [a, b] =>
    match simplify b with
    | .lit (.int k) =>
      if k = 0 then application ⟨"mod0", [.int], .int⟩ [a]
      else do
        let q ← quotientOf a k
        pure (.op .sub [a, .op .mul [int k, q]])
    | b => opaqueTerm (.op .mod [a, b]) .int
  | .divide, [a, b] =>
    match (simplify b).numeral? with
    | some q =>
      if q = 0 then application ⟨"/0", [.real], .real⟩ [a]
      else pure (.op .mul [real (1 / q), a])
    | none => opaqueTerm (.op .divide [a, b]) .real
  | .pow, [a, b] =>
    match simplify b with
    | .lit (.int n) =>
      if 0 < n && n < 16 then productTerm sort (List.replicate n.toNat a)
      else opaqueTerm (.op .pow [a, b]) sort
    | b => opaqueTerm (.op .pow [a, b]) sort
  | .toInt, [a] => nameOf (.op .toInt [a]) .int fun q => do
      require (.op .le [.op .toReal [q], a])
      require (.op .lt [a, .op .add [.op .toReal [q], real 1]])
  | .bvAdd, _ => wrap width (.op .add args)
  | .bvSub, _ => wrap width (.op .sub args)
  | .bvMul, _ => do wrap width (← productTerm .int args)
  | .bvUlt, [a, b] => pure (.op .lt [a, b])
  | .bvUle, [a, b] => pure (.op .le [a, b])
  | .bvUgt, [a, b] => pure (.op .lt [b, a])
  | .bvUge, [a, b] => pure (.op .le [b, a])
  | .bvSlt, [a, b] => do pure (.op .lt [← signedOf width a, ← signedOf width b])
  | .bvSle, [a, b] => do pure (.op .le [← signedOf width a, ← signedOf width b])
  | .and, _ | .or, _ | .not, _ | .implies, _ | .xor, _ | .le, _ | .lt, _ | .ge, _ | .gt, _
  | .add, _ | .sub, _ | .neg, _ | .toReal, _ => pure (.op f args)
  | f, args => opaqueTerm (.op f args) sort

/-- A look-up in an array that is built by stores. -/
def element (index value : TermSort) : Term → Term → Term
  | .op .store [a, j, v], i => .op .ite [.op .eq [i, j], v, element index value a i]
  | .op .ite [c, a, b], i => .op .ite [c, element index value a i, element index value b i]
  | .fn a [], i => .fn (elements a.name index value) [i]
  | a, i => .op .select [a, i]

mutual

/-- A term in which look-ups reach array constants. -/
def lookups : Term → Term
  | .lit a => .lit a
  | .bound i s => .bound i s
  | .fn f as => .fn f (lookupsList as)
  | .op f as =>
    match f, lookupsList as with
    | .select, [a, i] =>
      match a.sort with
      | .array s e => element s e a i
      | _ => .op .select [a, i]
    | f, as => .op f as
  | .quant q xs b => .quant q xs b

/-- `lookups` on each term of a list. -/
def lookupsList : List Term → List Term
  | [] => []
  | a :: as => lookups a :: lookupsList as

end

mutual

/-- A term over linear arithmetic and Boolean constants. -/
def flatten : Term → StateM Names Term
  | .lit (.bitVec _ v) => pure (int v.toNat)
  | .lit (.root n q) => opaqueTerm (.lit (.root n q)) .real
  | .lit a => pure (.lit a)
  | .bound i s => opaqueTerm (.bound i s) s
  | .fn f as => do
    let bs ← flattenList as
    if f.domain.isEmpty then
      match f.range with
      | .bool | .int | .real => pure (.fn f bs)
      | s => nameOf (.fn f bs) (represented s) (inRange s)
    else application f bs
  | .op f as => do
    let bs ← flattenList as
    operation f (sortHeads as) (Term.sort (.op f as)) bs
  | .quant q xs b => opaqueTerm (.quant q xs b) .bool

/-- `flatten` on each term of a list. -/
def flattenList : List Term → StateM Names (List Term)
  | [] => pure []
  | a :: as => do
    let b ← flatten a
    let bs ← flattenList as
    pure (b :: bs)

end

end Decision
end Horn
