import Horn.Term.Basic
import Mathlib.Algebra.Order.Floor.Ring
import Mathlib.Analysis.Real.Sqrt
import Mathlib.Logic.Function.Basic

/-!
# Structures

What the sorts, the symbols and the operators of terms mean. A `Universe` supplies the values of
the sorts that are known by their name alone; every other sort has its standard values
(`Universe.Value`): propositions, integers, reals, words and total maps. An `Element` is a value
together with its sort.

A `Structure` interprets the symbols, and it settles what the theory of the operators leaves open
(`Structure.unspecified`): division by zero, powers without a fixed value, and the operators about
which nothing but the name is known. All other operators have their standard meaning
(`Op.denote`).

Operators are total: one that is applied to arguments that do not fit it makes something of them,
about which nothing is said.
-/

namespace Horn

/-- The values of the sorts that are known by their name alone. -/
structure Universe where
  Carrier : String → Type
  inhabitant : ∀ name, Carrier name

namespace Universe

/-- The values of a sort. -/
def Value (U : Universe) : TermSort → Type
  | .bool => Prop
  | .int => ℤ
  | .real => ℝ
  | .bitVec w => BitVec w
  -- Arrays are total maps: there is no index out of bounds.
  | .array i e => Value U i → Value U e
  | .free name => U.Carrier name

/-- A value of each sort, for what has no value otherwise. -/
noncomputable def default (U : Universe) : (s : TermSort) → U.Value s
  | .bool => False
  | .int => (0 : ℤ)
  | .real => (0 : ℝ)
  | .bitVec w => (0 : BitVec w)
  | .array _ e => fun _ => default U e
  | .free name => U.inhabitant name

end Universe

/-- A value together with its sort. -/
structure Element (U : Universe) where
  sort : TermSort
  value : U.Value sort

namespace Element

variable {U : Universe}

/-- The truth value as an element. -/
def truth (p : Prop) : Element U := ⟨.bool, p⟩

/-- The value of an element at a sort; a default unless that is the sort of the element. -/
noncomputable def get (e : Element U) (s : TermSort) : U.Value s :=
  -- The value has to be transported along the equality of the sorts.
  if h : e.sort = s then h ▸ e.value else U.default s

/-- Whether the element is the truth value of a true proposition. -/
def Holds (e : Element U) : Prop := e.get .bool

/-- The integer that an element is. -/
noncomputable def toInt (e : Element U) : ℤ := e.get .int

/-- The real number that an element is. -/
noncomputable def toReal (e : Element U) : ℝ := e.get .real

/-- The element at a position of a list of arguments. -/
noncomputable def nth (as : List (Element U)) (i : Nat) : Element U := as.getD i (truth False)

@[simp] theorem get_mk {s : TermSort} (v : U.Value s) : (⟨s, v⟩ : Element U).get s = v := by
  simp [Element.get]

@[simp] theorem get_truth (p : Prop) : (truth p : Element U).get .bool = p := get_mk (s := .bool) p

/-- An element is its value at its sort. -/
theorem eq_get {e : Element U} {s : TermSort} (h : e.sort = s) : e = ⟨s, e.get s⟩ := by
  subst h
  rw [get_mk e.value]

/-- An element of sort Boolean is a truth value. -/
theorem eq_truth {e : Element U} (h : e.sort = .bool) : e = truth (e.get .bool) := eq_get h

/-- Numbers are equal as elements if they are equal. -/
theorem int_inj {m n : ℤ} : (⟨.int, m⟩ : Element U) = ⟨.int, n⟩ ↔ m = n := by
  constructor
  · intro h
    have hget := congrArg (fun e : Element U => e.get .int) h
    exact ((get_mk (s := .int) m).symm.trans hget).trans (get_mk (s := .int) n)
  · rintro rfl
    rfl

@[simp] theorem holds_truth (p : Prop) : (truth p : Element U).Holds ↔ p := by
  unfold Holds
  rw [get_truth]

end Element

/-- An interpretation of all symbols, and of what the theory of the operators leaves open. -/
structure Structure (U : Universe) where
  symbol : (f : Symbol) → List (Element U) → U.Value f.range
  unspecified : Op → List (Element U) → (s : TermSort) → U.Value s

instance : Inhabited Universe := ⟨⟨fun _ => Unit, fun _ => ()⟩⟩

noncomputable instance (U : Universe) : Inhabited (Structure U) :=
  ⟨⟨fun f _ => U.default f.range, fun _ _ s => U.default s⟩⟩

/-! ### Operators -/

/-- The element of a literal. -/
noncomputable def Literal.denote {U : Universe} : Literal → Element U
  | .bool b => .truth (b = true)
  | .int n => ⟨.int, n⟩
  | .real q => ⟨.real, (q : ℝ)⟩
  | .bitVec w v => ⟨.bitVec w, v⟩
  | .root negative q => ⟨.real, if negative then -√(q : ℝ) else √(q : ℝ)⟩

namespace Op

variable {U : Universe} (M : Structure U)

open Element

/-- An operation on numbers, integral or real as the first argument is. -/
noncomputable def numeric (onInt : List ℤ → ℤ) (onReal : List ℝ → ℝ)
    (as : List (Element U)) : Element U :=
  if (nth as 0).sort = .real then ⟨.real, onReal (as.map Element.toReal)⟩
  else ⟨.int, onInt (as.map Element.toInt)⟩

/-- A comparison of two numbers, integral or real as the first argument is. -/
def compare (onInt : ℤ → ℤ → Prop) (onReal : ℝ → ℝ → Prop) (as : List (Element U)) : Element U :=
  truth (((nth as 0).sort = .real ∧ onReal (nth as 0).toReal (nth as 1).toReal) ∨
    ((nth as 0).sort ≠ .real ∧ onInt (nth as 0).toInt (nth as 1).toInt))

/-- The width of the first argument, if it is a word. -/
noncomputable def width (as : List (Element U)) : Nat :=
  match (nth as 0).sort with
  | .bitVec w => w
  | _ => 0

/-- An operation on words of the width of the first argument. -/
noncomputable def word (onWords : (w : Nat) → List (BitVec w) → BitVec w)
    (as : List (Element U)) : Element U :=
  ⟨.bitVec (width as), onWords (width as) (as.map (Element.get · (.bitVec (width as))))⟩

/-- A comparison of two words of the width of the first argument. -/
def wordCompare (onWords : (w : Nat) → BitVec w → BitVec w → Prop)
    (as : List (Element U)) : Element U :=
  truth (onWords (width as) ((nth as 0).get (.bitVec (width as)))
    ((nth as 1).get (.bitVec (width as))))

/-- The first item of a list combined with all others, from the left. -/
def fromFirst {α : Type} (combine : α → α → α) (none : α) : List α → α
  | [] => none
  | a :: as => as.foldl combine a

/-- Integral quotient or remainder; a division by zero is left to the structure. -/
noncomputable def quotient (f : Op) (divide : ℤ → ℤ → ℤ) (as : List (Element U)) : Element U :=
  if (nth as 1).toInt = 0 then ⟨.int, M.unspecified f as .int⟩
  -- Quotients round so that the remainder is not negative.
  else ⟨.int, divide (nth as 0).toInt (nth as 1).toInt⟩

open Classical in
/-- Real quotients, from the left; a division by zero is left to the structure. -/
noncomputable def ratio (as : List (Element U)) : Element U :=
  let divide (x y : ℝ) : ℝ :=
    if y = 0 then M.unspecified .divide [⟨.real, x⟩, ⟨.real, y⟩] .real else x / y
  ⟨.real, fromFirst divide (0 : ℝ) (as.map Element.toReal)⟩

open Classical in
/-- Powers with a positive exponent, and powers of other numbers than zero with exponent zero.
All others are left to the structure. -/
noncomputable def power (as : List (Element U)) : Element U :=
  if (nth as 0).sort = .real then
    let x := (nth as 0).toReal
    let y := (nth as 1).toReal
    -- The exponent is a natural number, given as a real one.
    ⟨.real, if h : ∃ n : ℕ, y = n ∧ (0 < n ∨ x ≠ 0) then x ^ h.choose
      else M.unspecified .pow as .real⟩
  else
    let x := (nth as 0).toInt
    let y := (nth as 1).toInt
    ⟨.int, if 0 < y ∨ (y = 0 ∧ x ≠ 0) then x ^ y.toNat else M.unspecified .pow as .int⟩

/-- The element of an array at an index. -/
noncomputable def lookUp (as : List (Element U)) : Element U :=
  match nth as 0 with
  | ⟨.array i e, a⟩ => ⟨e, (a : U.Value i → U.Value e) ((nth as 1).get i)⟩
  | a => a

open Classical in
/-- An array with another element at an index. -/
noncomputable def update (as : List (Element U)) : Element U :=
  match nth as 0 with
  | ⟨.array i e, a⟩ =>
    ⟨.array i e, Function.update (a : U.Value i → U.Value e) ((nth as 1).get i) ((nth as 2).get e)⟩
  | a => a

open Classical in
/-- What an operator makes of its arguments. -/
noncomputable def denote (f : Op) (as : List (Element U)) : Element U :=
  match f with
  | .and => truth (∀ a ∈ as, a.Holds)
  | .or => truth (∃ a ∈ as, a.Holds)
  | .not => truth (¬(nth as 0).Holds)
  | .implies => truth ((nth as 0).Holds → (nth as 1).Holds)
  | .xor => truth (¬((nth as 0).Holds ↔ (nth as 1).Holds))
  | .eq => truth (∀ a ∈ as, ∀ b ∈ as, a = b)
  | .distinct => truth as.Nodup
  | .ite => if (nth as 0).Holds then nth as 1 else nth as 2
  | .add => numeric List.sum List.sum as
  -- Differences and quotients associate to the left, a product or a sum does not care.
  | .sub => numeric (fromFirst (· - ·) 0) (fromFirst (· - ·) 0) as
  | .mul => numeric List.prod List.prod as
  | .neg => numeric (fun l => -l.headD 0) (fun l => -l.headD 0) as
  -- From here on the structure has to settle something.
  | .div => quotient M .div (· / ·) as
  | .mod => quotient M .mod (· % ·) as
  | .divide => ratio M as
  | .pow => power M as
  | .lt => compare (· < ·) (· < ·) as
  | .le => compare (· ≤ ·) (· ≤ ·) as
  | .gt => compare (· > ·) (· > ·) as
  | .ge => compare (· ≥ ·) (· ≥ ·) as
  | .toReal => ⟨.real, ((nth as 0).toInt : ℝ)⟩
  | .toInt => ⟨.int, ⌊(nth as 0).toReal⌋⟩
  | .select => lookUp as
  | .store => update as
  | .bvAdd => word (fun _ => fromFirst (· + ·) 0) as
  | .bvSub => word (fun _ => fromFirst (· - ·) 0) as
  | .bvMul => word (fun _ => fromFirst (· * ·) 0) as
  | .bvUlt => wordCompare (fun _ a b => a.toNat < b.toNat) as
  | .bvUle => wordCompare (fun _ a b => a.toNat ≤ b.toNat) as
  | .bvUgt => wordCompare (fun _ a b => b.toNat < a.toNat) as
  | .bvUge => wordCompare (fun _ a b => b.toNat ≤ a.toNat) as
  | .bvSlt => wordCompare (fun _ a b => a.toInt < b.toInt) as
  | .bvSle => wordCompare (fun _ a b => a.toInt ≤ b.toInt) as
  | .other name result => ⟨result, M.unspecified (.other name result) as result⟩

end Op

end Horn
