import Horn.Term.Sum

/-!
# Simplification

`Term.simplify` rewrites a term from the inside into a simpler one with the same meaning.

* Constants are folded, `and` and `or` are flattened, neutral and repeated members disappear,
  and a member next to its negation decides the whole.
* Implications, exclusive disjunctions, choices between formulas and strict comparisons are
  expressed by negation, `and`, `or` and weak comparisons.
* Both sides of a comparison are sums; what they share is cancelled, and an integral comparison
  is divided by the common divisor of its coefficients, the constant being rounded inwards.

Comparisons are otherwise looked at as trees: `x > 0` and `x < 0` do not exclude each other here.
-/

namespace Horn
namespace Term

/-! ### Formulas -/

/-- Negation of a simplified formula. -/
def negation : Term → Term
  | .lit (.bool b) => bool !b
  | .op .not [t] => t
  | t => .op .not [t]

/-- The members of a conjunction, or of a disjunction. -/
def members (f : Op) : Term → List Term
  | .op g as => if g == f then as else [.op g as]
  | t => [t]

/-- The members without literals and repetitions; `none` when the absorbing literal, or a member
next to its negation, is among them. -/
def gather (absorbing : Bool) : List Term → List Term → Option (List Term)
  | kept, [] => some kept.reverse
  | kept, t :: rest =>
    match t with
    | .lit (.bool b) => if b == absorbing then none else gather absorbing kept rest
    | t =>
      if kept.contains (negation t) then none
      else gather absorbing (if kept.contains t then kept else t :: kept) rest

/-- The conjunction (`absorbing := false`) or disjunction (`absorbing := true`) of simplified
formulas. -/
def junction (absorbing : Bool) (ts : List Term) : Term :=
  let f := if absorbing then Op.or else Op.and
  match gather absorbing [] (ts.flatMap (members f)) with
  | none => bool absorbing
  | some [] => bool !absorbing
  | some [t] => t
  | some ts => .op f ts

/-- The conjunction of simplified formulas. -/
def conjunction (ts : List Term) : Term := junction false ts

/-- The disjunction of simplified formulas. -/
def disjunction (ts : List Term) : Term := junction true ts

/-- Equality of simplified formulas. -/
def equivalence (s t : Term) : Term :=
  if s = t then verum
  else if s = negation t then falsum
  else match s, t with
    | .lit (.bool true), t | t, .lit (.bool true) => t
    | .lit (.bool false), t | t, .lit (.bool false) => negation t
    | .op .not [s], .op .not [t] => .op .eq [s, t]
    | s, t => .op .eq [s, t]

/-- The choice between two simplified terms. -/
def choice (c s t : Term) : Term :=
  match c with
  | .lit (.bool true) => s
  | .lit (.bool false) => t
  | c =>
    if s = t then s
    else match s, t with
      | .lit (.bool true), t => disjunction [c, t]
      | .lit (.bool false), t => conjunction [negation c, t]
      | s, .lit (.bool false) => conjunction [c, s]
      | s, .lit (.bool true) => disjunction [negation c, s]
      | s, t =>
        match c with
        | .op .not [c] => .op .ite [c, t, s]
        | c => .op .ite [c, s, t]

/-! ### Comparisons of numbers -/

/-- The three comparisons that remain. -/
inductive Comparison where
  | le | ge | eq
  deriving DecidableEq

/-- The operator of a comparison. -/
def Comparison.op : Comparison → Op
  | .le => .le
  | .ge => .ge
  | .eq => .eq

/-- The same comparison with the sides exchanged. -/
def Comparison.flip : Comparison → Comparison
  | .le => .ge
  | .ge => .le
  | .eq => .eq

/-- Whether a comparison holds of two numbers. -/
def Comparison.holds (k : Comparison) (a b : Rat) : Bool :=
  match k with
  | .le => decide (a ≤ b)
  | .ge => decide (b ≤ a)
  | .eq => decide (a = b)

/-- The comparison of a remainder modulo a number with a number, where the range of remainders
decides it. -/
def remainderHolds? (k : Comparison) (divisor c : Rat) : Option Bool :=
  if divisor = 0 then none
  else
    let top : Rat := (divisor.num.natAbs : Rat) - 1
    match k with
    | .le => if top ≤ c then some true else if c < 0 then some false else none
    | .ge => if c ≤ 0 then some true else if top < c then some false else none
    | .eq => if c < 0 ∨ top < c then some false else none

/-- `a * p` compared with `c`, divided by `a`; the bound of an integer is rounded inwards. -/
def boundTerm (sort : TermSort) (k : Comparison) (a : Rat) (p : Term) (c : Rat) : Term :=
  let k := if a < 0 then k.flip else k
  let c := c / a
  if sort == .int then
    match k with
    | .le => .op .le [p, int c.floor]
    | .ge => .op .ge [p, int (-(-c).floor)]
    | .eq => if c.den = 1 then .op .eq [p, int c.num] else falsum
  else .op k.op [p, real c]

/-- The division of a side of an integral comparison by `g`; the constant is rounded up or down,
or has to be divisible. -/
def divideSide (g : Rat) (round : Rat → Option Rat) (s : Sum) : Option Sum :=
  (round (s.constant / g)).map fun c => ⟨c, s.monomials.map fun (d, p) => (d / g, p)⟩

/-- Rounding up, down, or not at all. -/
def roundUp (q : Rat) : Option Rat := some (-(-q).floor : Int)

/-- Rounding down. -/
def roundDown (q : Rat) : Option Rat := some (q.floor : Int)

/-- No rounding: only an integer passes. -/
def roundExact (q : Rat) : Option Rat := if q.den = 1 then some q else none

/-- A comparison of two sums without common monomials. -/
def compareSums (sort : TermSort) (k : Comparison) (s t : Sum) : Term :=
  match s.monomials, t.monomials with
  | [], [] => bool (k.holds s.constant t.constant)
  | [(a, p)], [] =>
    if s.constant ≠ 0 then .op k.op [s.toTerm sort, t.toTerm sort]
    else
      let remainder? := match p with
        | .op .mod [_, .lit (.int d)] =>
          if a = 1 then remainderHolds? k d t.constant else none
        | _ => none
      match remainder? with
      | some b => bool b
      | none => boundTerm sort k a p t.constant
  | [], [(a, p)] =>
    if a = 1 then .op k.op [Term.numeral sort s.constant, p]
    else boundTerm sort k.flip a p s.constant
  | _, _ =>
    let g : Rat := Nat.gcd s.content t.content
    if sort == .int && s.isIntegral && t.isIntegral && g ≠ 1 && g ≠ 0 then
      let (up, down) := match k with
        | .le => (roundUp, roundDown)
        | .ge => (roundDown, roundUp)
        | .eq => (roundExact, roundExact)
      match divideSide g up s, divideSide g down t with
      | some s, some t => .op k.op [s.toTerm sort, t.toTerm sort]
      | _, _ => falsum
    else .op k.op [s.toTerm sort, t.toTerm sort]

/-- A number without the conversion of an integer to a real around it. -/
def underReal? : Term → Option Term
  | .op .toReal [t] => some t
  | .lit (.real q) => if q.den = 1 then some (int q.num) else none
  | _ => none

/-- Whether an irrational square root is at most a rational. -/
def rootBelow (negative : Bool) (radicand q : Rat) : Bool :=
  if negative then decide (0 ≤ q) || decide (q * q ≤ radicand)
  else decide (0 ≤ q) && decide (radicand ≤ q * q)

/-- A comparison with an irrational square root on one side. -/
def rootComparison? (k : Comparison) : Term → Term → Option Bool
  | .lit (.root n r), t => t.numeral?.map fun q => match k with
    | .le => rootBelow n r q
    | .ge => !rootBelow n r q
    | .eq => false
  | s, .lit (.root n r) => s.numeral?.map fun q => match k with
    | .le => !rootBelow n r q
    | .ge => rootBelow n r q
    | .eq => false
  | _, _ => none

/-- A comparison of two simplified numbers. -/
def comparison (k : Comparison) (s t : Term) : Term :=
  if s = t then verum
  else match rootComparison? k s t with
  | some b => bool b
  | none =>
    let (s, t) := match underReal? s, underReal? t with
      | some s', some t' => (s', t')
      | _, _ => (s, t)
    let sort := s.sort
    let (l, r) := (Sum.ofTerm s).cancel (Sum.ofTerm t)
    compareSums sort k l r

/-! ### Operations on numbers and words -/

/-- A product of simplified factors. -/
def productOf (sort : TermSort) (ts : List Term) : Term :=
  let all := ts.flatMap factors
  let number := all.foldl (fun c t => match t.numeral? with | some q => c * q | none => c) 1
  let rest := all.filter (·.numeral?.isNone)
  match rest with
  | [] => Term.numeral sort number
  | [t] => ((Sum.ofTerm t).scale number).toTerm sort
  | ts => (Sum.scale number ⟨0, [(1, product ts)]⟩).toTerm sort

/-- The sum of simplified terms. -/
def sumOf (sort : TermSort) (ts : List Term) : Term :=
  (ts.foldl (fun s t => s.add (Sum.ofTerm t)) (Sum.ofRat 0)).toTerm sort

/-- The first term minus all others. -/
def differenceOf (sort : TermSort) : List Term → Term
  | [] => Term.numeral sort 0
  | t :: ts => (ts.foldl (fun s u => s.add ((Sum.ofTerm u).scale (-1))) (Sum.ofTerm t)).toTerm sort

/-- A comparison of words, without sign. -/
def wordLe (s t : Term) : Term :=
  match s, t with
  | .lit (.bitVec _ a), .lit (.bitVec _ b) => bool (a.toNat ≤ b.toNat)
  | .lit (.bitVec w a), t =>
    if a.toNat = 0 then verum else .op .bvUle [.lit (.bitVec w a), t]
  | s, .lit (.bitVec w b) =>
    if b.toNat + 1 = Nat.pow 2 w then verum else .op .bvUle [s, .lit (.bitVec w b)]
  | s, t => if s = t then verum else .op .bvUle [s, t]

/-- `s < t` for words is the negation of `t ≤ s`, which a zero on the right decides. -/
def wordLt (s t : Term) : Term := negation (wordLe t s)

/-- A comparison of words with sign. -/
def signedLe (s t : Term) : Term :=
  match s, t with
  | .lit (.bitVec _ a), .lit (.bitVec _ b) => bool (a.toInt ≤ b.toInt)
  | s, t => if s = t then verum else .op .bvSle [s, t]

/-- An operation on words, folded where all operands are literals. -/
def wordOp (f : Op) (combine : Int → Int → Int) (ts : List Term) : Term :=
  let value? : Term → Option (Nat × Nat) := fun
    | .lit (.bitVec w v) => some (w, v.toNat)
    | _ => none
  match ts with
  | t :: rest =>
    match value? t, rest.mapM value? with
    | some (w, a), some others =>
      bitVec w (others.foldl (fun acc (_, b) => combine acc b) (a : Int))
    | _, _ => .op f ts
  | [] => .op f ts

/-- Whether no two of the terms are equal. -/
def pairwiseDifferent : List Term → Bool
  | [] => true
  | t :: ts => !ts.contains t && pairwiseDifferent ts

/-- Whether the term is a literal. -/
def isLiteral : Term → Bool
  | .lit _ => true
  | _ => false

/-- Equality of simplified terms. -/
def equality (s t : Term) : Term :=
  match s.sort with
  | .bool => equivalence s t
  | .int | .real => comparison .eq s t
  | _ =>
    if s = t then verum
    else if s.isLiteral && t.isLiteral then falsum
    else .op .eq [s, t]

/-- A power with literal operands. -/
def powerOf (s t : Term) : Term :=
  match s, t with
  | .lit (.int a), .lit (.int n) => if 0 ≤ n then int (Int.pow a n.toNat) else .op .pow [s, t]
  | s, .lit (.int n) => if n = 1 then s else .op .pow [s, t]
  | s, t => .op .pow [s, t]

/-- A look-up in a simplified array. -/
def lookup (a i : Term) : Term :=
  match a with
  | .op .store [b, j, v] =>
    if i = j then v
    else if i.isLiteral && j.isLiteral then
      (match b with
        | .op .store _ => .op .select [.op .store [b, j, v], i]
        | b => .op .select [b, i])
    else .op .select [.op .store [b, j, v], i]
  | a => .op .select [a, i]

/-! ### The rewriting -/

/-- An application to simplified operands. -/
def rewriteOp (f : Op) (ts : List Term) : Term :=
  match f, ts with
  | .and, ts => conjunction ts
  | .or, ts => disjunction ts
  | .not, [t] => negation t
  | .implies, [s, t] => disjunction [negation s, t]
  | .xor, [s, t] => negation (equivalence s t)
  | .eq, [s, t] => equality s t
  | .distinct, [s, t] => negation (equality s t)
  | .distinct, ts =>
    if !pairwiseDifferent ts then falsum
    else if ts.all isLiteral then verum else .op .distinct ts
  | .ite, [c, s, t] => choice c s t
  | .add, t :: ts => sumOf t.sort (t :: ts)
  | .sub, t :: ts => differenceOf t.sort (t :: ts)
  | .neg, [t] => ((Sum.ofTerm t).scale (-1)).toTerm t.sort
  | .mul, t :: ts => productOf t.sort (t :: ts)
  | .div, [s, t] =>
    match s, t with
    | .lit (.int a), .lit (.int b) => if b = 0 then .op .div [s, t] else int (a / b)
    | s, .lit (.int b) => if b = 1 then s else .op .div [s, t]
    | s, t => .op .div [s, t]
  | .mod, [s, t] =>
    match s, t with
    | .lit (.int a), .lit (.int b) => if b = 0 then .op .mod [s, t] else int (a % b)
    | s, .lit (.int b) => if b = 1 ∨ b = -1 then int 0 else .op .mod [s, t]
    | s, t => .op .mod [s, t]
  | .divide, [s, t] =>
    match t.numeral? with
    | some q =>
      if q = 0 then .op .divide [s, t] else ((Sum.ofTerm s).scale (1 / q)).toTerm .real
    | none => .op .divide [s, t]
  | .pow, [s, t] => powerOf s t
  | .le, [s, t] => comparison .le s t
  | .ge, [s, t] => comparison .ge s t
  | .lt, [s, t] => negation (comparison .le t s)
  | .gt, [s, t] => negation (comparison .le s t)
  | .toReal, [.lit (.int n)] => real n
  | .toInt, [.lit (.real q)] => int q.floor
  | .toInt, [.op .toReal [t]] => t
  | .select, [a, i] => lookup a i
  | .bvAdd, ts => wordOp .bvAdd (· + ·) ts
  | .bvSub, ts => wordOp .bvSub (· - ·) ts
  | .bvMul, ts => wordOp .bvMul (· * ·) ts
  | .bvUle, [s, t] => wordLe s t
  | .bvUge, [s, t] => wordLe t s
  | .bvUlt, [s, t] => wordLt s t
  | .bvUgt, [s, t] => wordLt t s
  | .bvSle, [s, t] => signedLe s t
  | .bvSlt, [s, t] => negation (signedLe t s)
  | f, ts => .op f ts

mutual

/-- A simpler term with the same meaning. -/
def simplify : Term → Term
  | .lit a => .lit a
  | .bound i s => .bound i s
  | .fn f as => .fn f (simplifyList as)
  | .op f as => rewriteOp f (simplifyList as)
  | .quant q xs b =>
    match simplify b with
    | .lit a => .lit a
    | b => .quant q xs b

/-- `simplify` on each term of a list. -/
def simplifyList : List Term → List Term
  | [] => []
  | a :: as => simplify a :: simplifyList as

end

end Term
end Horn
