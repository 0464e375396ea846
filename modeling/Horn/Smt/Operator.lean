import Horn.Term.Substitute

/-!
# Operators of the problem notation

The operators that are known without declaration, and how they are applied. `Operator.app?`
refuses arguments that do not fit.

An operand that is an integer is converted where a real is wanted, and a real where an integer
is; no other conversion is made. An operator that is given more than two operands takes all of
them at once, or is nested to one side, or compares neighbours, as its `Grouping` says.
-/

namespace Horn
namespace Smt

/-- How an operator takes a number of operands. -/
inductive Grouping where
  /-- All operands in one application; one operand is enough. -/
  | flat
  /-- Pairs, nested to the left; one operand is enough. -/
  | left
  /-- Pairs, nested to the right. -/
  | right
  /-- The conjunction of the applications to neighbours. -/
  | chain
  /-- Exactly so many operands. -/
  | exactly (count : Nat)
  deriving DecidableEq

/-- What the operands of an operator have to be. -/
inductive Operands where
  | booleans
  /-- Integers, or reals as soon as one operand is real. -/
  | numbers
  | integers
  | reals
  /-- Of one sort, where integers among reals count as reals. -/
  | alike
  /-- Bit strings of one width. -/
  | bits
  /-- A truth value and two alternatives of one sort. -/
  | choice
  | lookup
  | update
  deriving DecidableEq

/-- An operator of the notation. -/
structure Operator where
  op : Op
  grouping : Grouping
  operands : Operands

/-- A number at one of the two arithmetic sorts. -/
def convert? (s : TermSort) (t : Term) : Option Term :=
  if t.sort = s then some t
  else match t.sort, s with
    | .int, .real => some (.op .toReal [t])
    | .real, .int => some (.op .toInt [t])
    | _, _ => none

/-- Terms at the sorts of a signature; `none` when their numbers differ. -/
def convertAll? : List TermSort → List Term → Option (List Term)
  | [], [] => some []
  | s :: ss, t :: ts => do
    let t ← convert? s t
    let ts ← convertAll? ss ts
    some (t :: ts)
  | _, _ => none

/-- All terms at one sort. -/
def convertTo? (s : TermSort) (ts : List Term) : Option (List Term) :=
  convertAll? (ts.map fun _ => s) ts

/-- The sort at which terms can be compared. -/
def joinSort (ts : List Term) : TermSort :=
  match ts with
  | [] => .bool
  | t :: _ => if ts.any fun t => t.sort == .real then .real else t.sort

namespace Operands

/-- The operands as the operator takes them. -/
def fit? (ts : List Term) : Operands → Option (List Term)
  | .booleans => if ts.all (·.isBool) then some ts else none
  | .numbers => if ts.all (·.sort.isArith) then convertTo? (joinSort ts) ts else none
  | .integers => convertTo? .int ts
  | .reals => convertTo? .real ts
  | .alike => convertTo? (joinSort ts) ts
  | .bits =>
    match joinSort ts with
    | .bitVec w => convertTo? (.bitVec w) ts
    | _ => none
  | .choice =>
    match ts with
    | c :: branches =>
      if c.isBool then (convertTo? (joinSort branches) branches).map (c :: ·) else none
    | [] => none
  | .lookup =>
    match ts with
    | [a, i] =>
      match a.sort with
      | .array s _ => if i.sort = s then some ts else none
      | _ => none
    | _ => none
  | .update =>
    match ts with
    | [a, i, v] =>
      match a.sort with
      | .array s e => if i.sort = s ∧ v.sort = e then some ts else none
      | _ => none
    | _ => none

end Operands

namespace Grouping

/-- The nesting to the right of one operand and more. -/
def nestRight (f : Op) (t : Term) : List Term → Term
  | [] => t
  | u :: ts => .op f [t, nestRight f u ts]

/-- The application of an operator to operands that fit it. -/
def build? (f : Op) (ts : List Term) : Grouping → Option Term
  | .flat => if ts.isEmpty then none else some (.op f ts)
  | .left =>
    match ts with
    | [] => none
    | [t] => some (.op f [t])
    | t :: ts => some (ts.foldl (fun acc u => .op f [acc, u]) t)
  | .right =>
    match ts with
    | t :: u :: ts => some (nestRight f t (u :: ts))
    | _ => none
  | .chain =>
    match ts with
    | [] => none
    | [_] => if f == .eq then none else some .verum
    | [t, u] => some (.op f [t, u])
    | ts => some (.op .and ((ts.zip (ts.drop 1)).map fun (t, u) => .op f [t, u]))
  | .exactly n => if ts.length = n then some (.op f ts) else none

end Grouping

namespace Operator

/-- The operators by name. -/
def table : List (String × Operator) := [
  ("and", ⟨.and, .flat, .booleans⟩),
  ("or", ⟨.or, .flat, .booleans⟩),
  ("not", ⟨.not, .exactly 1, .booleans⟩),
  ("=>", ⟨.implies, .right, .booleans⟩),
  ("implies", ⟨.implies, .right, .booleans⟩),
  ("xor", ⟨.xor, .right, .booleans⟩),
  ("=", ⟨.eq, .chain, .alike⟩),
  ("iff", ⟨.eq, .chain, .alike⟩),
  ("distinct", ⟨.distinct, .flat, .alike⟩),
  ("ite", ⟨.ite, .exactly 3, .choice⟩),
  ("if", ⟨.ite, .exactly 3, .choice⟩),
  ("+", ⟨.add, .flat, .numbers⟩),
  ("-", ⟨.sub, .left, .numbers⟩),
  ("*", ⟨.mul, .flat, .numbers⟩),
  ("^", ⟨.pow, .exactly 2, .numbers⟩),
  ("div", ⟨.div, .left, .integers⟩),
  ("mod", ⟨.mod, .exactly 2, .integers⟩),
  ("/", ⟨.divide, .left, .reals⟩),
  ("<", ⟨.lt, .chain, .numbers⟩),
  ("<=", ⟨.le, .chain, .numbers⟩),
  (">", ⟨.gt, .chain, .numbers⟩),
  (">=", ⟨.ge, .chain, .numbers⟩),
  ("to_real", ⟨.toReal, .exactly 1, .integers⟩),
  ("to_int", ⟨.toInt, .exactly 1, .reals⟩),
  ("select", ⟨.select, .exactly 2, .lookup⟩),
  ("store", ⟨.store, .exactly 3, .update⟩),
  ("bvadd", ⟨.bvAdd, .flat, .bits⟩),
  ("bvmul", ⟨.bvMul, .flat, .bits⟩),
  ("bvsub", ⟨.bvSub, .left, .bits⟩),
  ("bvult", ⟨.bvUlt, .exactly 2, .bits⟩),
  ("bvule", ⟨.bvUle, .exactly 2, .bits⟩),
  ("bvugt", ⟨.bvUgt, .exactly 2, .bits⟩),
  ("bvuge", ⟨.bvUge, .exactly 2, .bits⟩),
  ("bvslt", ⟨.bvSlt, .exactly 2, .bits⟩),
  ("bvsle", ⟨.bvSle, .exactly 2, .bits⟩)
]

/-- The operator with a name. -/
def named? (name : String) : Option Operator := table.lookup name

/-- An application. The minus sign with one operand is the negative. -/
def app? (f : Operator) (ts : List Term) : Option Term := do
  let ts ← f.operands.fit? ts
  if f.op == .sub && ts.length == 1 then some (.op .neg ts) else f.grouping.build? f.op ts

end Operator

end Smt
end Horn
