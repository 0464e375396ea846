import Horn.Term.Basic

/-!
# Sums

The arithmetic part of simplification. A `Sum` is a constant together with monomials, each a
coefficient and a power product (any term that is not itself a numeral, a sum or a multiple);
no power product occurs twice and no coefficient is zero.

`Sum.ofTerm` reads a simplified term, `Sum.toTerm` writes one: the constant first, then the
monomials in the order in which they first occurred. `Sum.cancel` moves what two sides of a
comparison have in common.
-/

namespace Horn

/-- A linear combination of power products. -/
structure Sum where
  constant : Rat
  monomials : List (Rat × Term)
  deriving Inhabited

namespace Term

/-- The numeral of an arithmetic sort. -/
def numeral (sort : TermSort) (q : Rat) : Term :=
  if sort == .int then int q.num else real q

/-- The rational that a numeral stands for. -/
def numeral? : Term → Option Rat
  | .lit (.int n) => some n
  | .lit (.real q) => some q
  | _ => none

/-- The factors of a product. -/
def factors : Term → List Term
  | .op .mul as => as
  | t => [t]

/-- The product of some factors; a single factor is itself. -/
def product : List Term → Term
  | [t] => t
  | ts => .op .mul ts

/-- The summands of a sum. -/
def summands : Term → List Term
  | .op .add as => as
  | t => [t]

end Term

namespace Sum

/-- The sum that is a number. -/
def ofRat (q : Rat) : Sum := ⟨q, []⟩

/-- Adds a monomial; one without weight disappears. -/
def addMonomial (c : Rat) (p : Term) : List (Rat × Term) → List (Rat × Term)
  | [] => if c = 0 then [] else [(c, p)]
  | (d, q) :: rest =>
    if q = p then (if d + c = 0 then rest else (d + c, q) :: rest)
    else (d, q) :: addMonomial c p rest

/-- The sum of two sums. -/
def add (s t : Sum) : Sum :=
  ⟨s.constant + t.constant, t.monomials.foldl (fun ms (c, p) => addMonomial c p ms) s.monomials⟩

/-- A multiple of a sum. -/
def scale (c : Rat) (s : Sum) : Sum :=
  if c = 0 then ofRat 0 else ⟨c * s.constant, s.monomials.map fun (d, p) => (c * d, p)⟩

/-- A single term as a summand: a numeral, a multiple, or a power product. -/
def ofSummand (t : Term) : Sum :=
  match t.numeral? with
  | some q => ofRat q
  | none =>
    match t.factors with
    | a :: b :: rest =>
      match a.numeral? with
      | some q => ⟨0, addMonomial q (Term.product (b :: rest)) []⟩
      | none => ⟨0, [(1, t)]⟩
    | _ => ⟨0, [(1, t)]⟩

/-- The sum that a simplified term is. -/
def ofTerm (t : Term) : Sum := t.summands.foldl (fun s u => s.add (ofSummand u)) (ofRat 0)

/-- The term of a monomial. -/
def monomialTerm (sort : TermSort) (m : Rat × Term) : Term :=
  if m.1 = 1 then m.2 else .op .mul (Term.numeral sort m.1 :: m.2.factors)

/-- The term of a sum: the constant, unless it is zero, and then the monomials. -/
def toTerm (sort : TermSort) (s : Sum) : Term :=
  let monomials := s.monomials.map (monomialTerm sort)
  match (if s.constant = 0 then monomials else Term.numeral sort s.constant :: monomials) with
  | [] => Term.numeral sort 0
  | [t] => t
  | ts => .op .add ts

/-- The product of two sums, if one of them is a number. -/
def mul? (s t : Sum) : Option Sum :=
  if s.monomials.isEmpty then some (t.scale s.constant)
  else if t.monomials.isEmpty then some (s.scale t.constant)
  else none

/-- Removes from the right what both sides have a monomial for. The constants meet on the right
if nothing else is there, and on the left otherwise. -/
def cancel (s t : Sum) : Sum × Sum :=
  let shared := t.monomials.filter fun (_, p) => s.monomials.any (·.2 == p)
  let left := shared.foldl (fun ms (c, p) => addMonomial (-c) p ms) s.monomials
  let right := t.monomials.filter fun (_, p) => !s.monomials.any (·.2 == p)
  if right.isEmpty then (⟨0, left⟩, ⟨t.constant - s.constant, []⟩)
  else (⟨s.constant - t.constant, left⟩, ⟨0, right⟩)

/-- The greatest common divisor of integral coefficients. -/
def content (s : Sum) : Nat := s.monomials.foldl (fun g (c, _) => Nat.gcd g c.num.natAbs) 0

/-- Whether all coefficients are integers. -/
def isIntegral (s : Sum) : Bool :=
  s.constant.den == 1 && s.monomials.all fun (c, _) => c.den == 1

end Sum

end Horn
