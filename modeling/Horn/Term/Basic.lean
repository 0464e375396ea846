import Horn.Term.Sort

/-!
# Terms

A term is a literal, a bound variable, an application of an uninterpreted symbol, an
application of an interpreted operator, or a quantified formula. Formulas are the terms of
sort `TermSort.bool`.

Bound variables are counted from the inside (`Term.bound 0 s` is the *last* binder of the
nearest quantifier), so that two terms that differ in the names of bound variables only
differ in the binder lists. A free constant is an application of a symbol without domain.

Terms are never normalised when they are built: equality is equality of trees, and
`Term.beq_iff` says that the Boolean test decides it.
-/

namespace Horn

/-- An uninterpreted symbol. Its identity is the name together with the signature. -/
structure Symbol where
  name : String
  domain : List TermSort
  range : TermSort
  deriving DecidableEq, Inhabited

/-- A free constant: a name and a sort. Binders are written as constants too. -/
structure Constant where
  name : String
  sort : TermSort
  deriving DecidableEq, Inhabited

/-- The symbol without arguments that a constant applies. -/
def Constant.symbol (c : Constant) : Symbol := ⟨c.name, [], c.sort⟩

/-- Interpreted operators. One application may have any number of arguments, so that
`x + y + z` can be a single sum. -/
inductive Op where
  | and | or | not | implies | xor | eq | distinct | ite
  | add | sub | mul | neg
  /-- Integer quotient. -/
  | div
  /-- Real quotient. -/
  | divide
  | mod | pow
  | lt | le | gt | ge
  | toReal | toInt
  | select | store
  | bvAdd | bvSub | bvMul | bvUlt | bvUle | bvUgt | bvUge | bvSlt | bvSle
  /-- An operator about which only the name and the result sort are known. -/
  | other (name : String) (result : TermSort)
  deriving DecidableEq, Inhabited

/-- Literals. `root` is the irrational square root of a positive rational, or its negative;
it never stands for a rational number. -/
inductive Literal where
  | bool (b : Bool)
  | int (n : Int)
  | real (q : Rat)
  | bitVec (width : Nat) (value : BitVec width)
  | root (negative : Bool) (radicand : Rat)
  deriving DecidableEq

/-- The two quantifiers. -/
inductive Quantifier where
  | all
  | some
  deriving DecidableEq, Inhabited

/-- First-order terms over all sorts; formulas are the terms of sort Boolean. -/
inductive Term where
  | lit (value : Literal)
  | bound (index : Nat) (sort : TermSort)
  | fn (symbol : Symbol) (args : List Term)
  | op (operator : Op) (args : List Term)
  | quant (quantifier : Quantifier) (binders : List Constant) (body : Term)

instance : Inhabited Term := ⟨.lit (.bool true)⟩

namespace Literal

/-- The sort of a literal. -/
def sort : Literal → TermSort
  | .bool _ => .bool
  | .int _ => .int
  | .real _ => .real
  | .bitVec w _ => .bitVec w
  | .root _ _ => .real

end Literal

namespace Term

/-- The literal of a truth value. -/
def bool (b : Bool) : Term := .lit (.bool b)

/-- The literal `true`. -/
def verum : Term := bool true

/-- The literal `false`. -/
def falsum : Term := bool false

/-- The numeral of an integer; a negative integer is one numeral too. -/
def int (n : Int) : Term := .lit (.int n)

/-- The numeral of a rational. -/
def real (q : Rat) : Term := .lit (.real q)

/-- The numeral of a residue modulo `2 ^ w`. -/
def bitVec (w : Nat) (n : Int) : Term := .lit (.bitVec w (BitVec.ofInt w n))

/-- A free constant as a term. -/
def const (c : Constant) : Term := .fn c.symbol []

/-- Negation, without any simplification. -/
def neg (t : Term) : Term := .op .not [t]

/-- Equality, without any simplification. -/
def eq (s t : Term) : Term := .op .eq [s, t]

/-- Whether the term is the literal `true`. -/
def isVerum : Term → Bool
  | .lit (.bool true) => true
  | _ => false

/-- Whether the term is the literal `false`. -/
def isFalsum : Term → Bool
  | .lit (.bool false) => true
  | _ => false

/-! ### Equality -/

mutual

/-- Equality of trees as a Boolean. -/
def beq : Term → Term → Bool
  | .lit a, .lit b => a == b
  | .bound i s, .bound j t => i == j && s == t
  | .fn f as, .fn g bs => f == g && beqList as bs
  | .op f as, .op g bs => f == g && beqList as bs
  | .quant p xs a, .quant q ys b => p == q && xs == ys && beq a b
  | _, _ => false

/-- Equality of argument lists as a Boolean. -/
def beqList : List Term → List Term → Bool
  | [], [] => true
  | a :: as, b :: bs => beq a b && beqList as bs
  | _, _ => false

end

mutual

/-- The Boolean test accepts only equal terms. -/
theorem eq_of_beq : ∀ s t : Term, beq s t = true → s = t
  | .lit a, t => by cases t <;> simp [beq]
  | .bound i s, t => by cases t <;> simp [beq]
  | .fn f as, t => by
    cases t <;> simp [beq]
    intro h hs
    exact ⟨h, eq_of_beqList as _ hs⟩
  | .op f as, t => by
    cases t <;> simp [beq]
    intro h hs
    exact ⟨h, eq_of_beqList as _ hs⟩
  | .quant q xs a, t => by
    cases t <;> simp [beq]
    intro h hx ha
    exact ⟨h, hx, eq_of_beq a _ ha⟩

/-- The Boolean test accepts only equal lists. -/
theorem eq_of_beqList : ∀ as bs : List Term, beqList as bs = true → as = bs
  | [], bs => by cases bs <;> simp [beqList]
  | a :: as, bs => by
    cases bs <;> simp [beqList]
    intro h hs
    exact ⟨eq_of_beq a _ h, eq_of_beqList as _ hs⟩

end

mutual

/-- The Boolean test accepts every term against itself. -/
theorem beq_self : ∀ t : Term, beq t t = true
  | .lit a => by simp [beq]
  | .bound i s => by simp [beq]
  | .fn f as => by simp [beq, beqList_self as]
  | .op f as => by simp [beq, beqList_self as]
  | .quant q xs a => by simp [beq, beq_self a]

/-- The Boolean test accepts every list against itself. -/
theorem beqList_self : ∀ as : List Term, beqList as as = true
  | [] => by simp [beqList]
  | a :: as => by simp [beqList, beq_self a, beqList_self as]

end

/-- The Boolean test decides equality of terms. -/
theorem beq_iff (s t : Term) : beq s t = true ↔ s = t :=
  ⟨eq_of_beq s t, fun h => h ▸ beq_self s⟩

instance : DecidableEq Term := fun s t =>
  if h : beq s t = true then isTrue ((beq_iff s t).1 h)
  else isFalse (fun e => h ((beq_iff s t).2 e))

/-! ### Parts of a term -/

/-- The immediate subterms. A quantified formula has its body. -/
def children : Term → List Term
  | .lit _ => []
  | .bound _ _ => []
  | .fn _ as => as
  | .op _ as => as
  | .quant _ _ b => [b]

mutual

/-- The symbols applied anywhere in a term, also under quantifiers, from left to right. -/
def symbols : Term → List Symbol
  | .lit _ => []
  | .bound _ _ => []
  | .fn f as => f :: symbolsList as
  | .op _ as => symbolsList as
  | .quant _ _ b => symbols b

/-- The symbols applied anywhere in a list of terms. -/
def symbolsList : List Term → List Symbol
  | [] => []
  | a :: as => symbols a ++ symbolsList as

end

@[simp] theorem symbolsList_eq_flatMap (as : List Term) :
    symbolsList as = as.flatMap symbols := by
  induction as with
  | nil => rfl
  | cons a as ih => simp [symbolsList, ih]

mutual

/-- Whether a quantifier occurs anywhere in the term. -/
def hasQuantifier : Term → Bool
  | .lit _ => false
  | .bound _ _ => false
  | .fn _ as => hasQuantifierList as
  | .op _ as => hasQuantifierList as
  | .quant _ _ _ => true

/-- Whether a quantifier occurs anywhere in a list of terms. -/
def hasQuantifierList : List Term → Bool
  | [] => false
  | a :: as => hasQuantifier a || hasQuantifierList as

end

mutual

/-- The number of nodes. -/
def size : Term → Nat
  | .lit _ => 1
  | .bound _ _ => 1
  | .fn _ as => sizeList as + 1
  | .op _ as => sizeList as + 1
  | .quant _ _ b => size b + 1

/-- The number of nodes of a list of terms. -/
def sizeList : List Term → Nat
  | [] => 0
  | a :: as => size a + sizeList as

end

theorem sizeList_append (as bs : List Term) :
    sizeList (as ++ bs) = sizeList as + sizeList bs := by
  induction as with
  | nil => exact (Nat.zero_add _).symm
  | cons a as ih => rw [List.cons_append, sizeList, sizeList, ih, Nat.add_assoc]

theorem sizeList_reverse (as : List Term) : sizeList as.reverse = sizeList as := by
  induction as with
  | nil => rfl
  | cons a as ih =>
    rw [List.reverse_cons, sizeList_append, ih, sizeList, sizeList, sizeList, Nat.add_zero,
      Nat.add_comm]

/-- A term has one node more than its children. -/
theorem size_eq (t : Term) : size t = sizeList t.children + 1 := by
  cases t <;> simp [size, sizeList, children]

/-! ### Sorts -/

/-- The sort of an application of `f` to arguments of the given sorts. -/
def opSort : Op → List TermSort → TermSort
  | .ite, _ :: s :: _ => s
  | .add, s :: _ | .sub, s :: _ | .mul, s :: _ | .neg, s :: _ => s
  | .div, _ | .mod, _ => .int
  | .divide, _ => .real
  | .pow, s :: _ => s
  | .toReal, _ => .real
  | .toInt, _ => .int
  | .select, .array _ e :: _ => e
  | .store, s :: _ => s
  | .bvAdd, s :: _ | .bvSub, s :: _ | .bvMul, s :: _ => s
  | .other _ s, _ => s
  | _, _ => .bool

mutual

/-- The sort of a term. An arithmetic operator has the sort of its first argument, a choice
that of its first branch, a lookup that of the array's elements. -/
def sort : Term → TermSort
  | .lit a => a.sort
  | .bound _ s => s
  | .fn f _ => f.range
  | .op f as => opSort f (sortHeads as)
  | .quant _ _ _ => .bool

/-- The sorts of a list of terms. -/
def sortHeads : List Term → List TermSort
  | [] => []
  | a :: as => sort a :: sortHeads as

end

@[simp] theorem sortHeads_eq_map (as : List Term) : sortHeads as = as.map sort := by
  induction as with
  | nil => rfl
  | cons a as ih => simp [sortHeads, ih]

/-- Whether the term is a formula. -/
def isBool (t : Term) : Bool := t.sort == .bool

end Term

end Horn
