import Horn.Term.Basic

/-!
# Substitution

Three simultaneous substitutions, none of which simplifies:

* `Term.lift d` moves a term under `d` further binders;
* `Term.substitute σ` replaces free constants, also inside quantified formulas; what is put
  in is lifted on the way, so that no bound variable is captured;
* `Term.instantiate ts` replaces the outermost bound variables, and `Term.abstract cs` is the
  way back: it turns free constants into bound variables.

The list versions are maps (`replaceList_eq_map` and its companions).
-/

namespace Horn
namespace Term

mutual

/-- Moves a term under `d` further binders: bound variables from `c` on go up by `d`. -/
def lift (d c : Nat) : Term → Term
  | .lit a => .lit a
  -- Only variables that are bound outside of the term move.
  | .bound i s => if i < c then .bound i s else .bound (i + d) s
  | .fn f as => .fn f (liftList d c as)
  | .op f as => .op f (liftList d c as)
  | .quant q xs b => .quant q xs (lift d (c + xs.length) b)

/-- `lift` on each term of a list. -/
def liftList (d c : Nat) : List Term → List Term
  | [] => []
  | a :: as => lift d c a :: liftList d c as

end

@[simp] theorem liftList_eq_map (d c : Nat) (as : List Term) :
    liftList d c as = as.map (lift d c) := by
  induction as with
  | nil => rfl
  | cons a as ih => simp [liftList, ih]

/-- The constant that a symbol without arguments stands for. -/
def constant? (f : Symbol) (args : List Term) : Option Constant :=
  if f.domain.isEmpty && args.isEmpty then some ⟨f.name, f.range⟩ else none

mutual

/-- Replaces free constants under `depth` binders, all at once. -/
def replace (σ : Constant → Option Term) (depth : Nat) : Term → Term
  | .lit a => .lit a
  | .bound i s => .bound i s
  | .fn f as =>
    match (constant? f as).bind σ with
    -- Variables of the value must not be caught by the binders above.
    | some t => lift depth 0 t
    | none => .fn f (replaceList σ depth as)
  | .op f as => .op f (replaceList σ depth as)
  | .quant q xs b => .quant q xs (replace σ (depth + xs.length) b)

/-- `replace` on each term of a list. -/
def replaceList (σ : Constant → Option Term) (depth : Nat) : List Term → List Term
  | [] => []
  | a :: as => replace σ depth a :: replaceList σ depth as

end

@[simp] theorem replaceList_eq_map (σ : Constant → Option Term) (depth : Nat) (as : List Term) :
    replaceList σ depth as = as.map (replace σ depth) := by
  induction as with
  | nil => rfl
  | cons a as ih => simp [replaceList, ih]

/-- The value of a constant in a list of pairs; the last pair for a constant wins. -/
def lookupLast (σ : List (Constant × Term)) (c : Constant) : Option Term :=
  (σ.reverse.find? (·.1 == c)).map (·.2)

/-- Simultaneous substitution of terms for free constants. -/
def substitute (σ : List (Constant × Term)) (t : Term) : Term :=
  replace (lookupLast σ) 0 t

mutual

/-- Replaces the variables bound outside `depth` binders by the terms of a list, the variable
counted first by the first term. -/
def instantiateAt (ts : List Term) (depth : Nat) : Term → Term
  | .lit a => .lit a
  | .bound i s =>
    if i < depth then .bound i s
    else match ts[i - depth]? with
      | some t => lift depth 0 t
      -- The binders that have been filled in are gone.
      | none => .bound (i - ts.length) s
  | .fn f as => .fn f (instantiateAtList ts depth as)
  | .op f as => .op f (instantiateAtList ts depth as)
  | .quant q xs b => .quant q xs (instantiateAt ts (depth + xs.length) b)

/-- `instantiateAt` on each term of a list. -/
def instantiateAtList (ts : List Term) (depth : Nat) : List Term → List Term
  | [] => []
  | a :: as => instantiateAt ts depth a :: instantiateAtList ts depth as

end

@[simp] theorem instantiateAtList_eq_map (ts : List Term) (depth : Nat) (as : List Term) :
    instantiateAtList ts depth as = as.map (instantiateAt ts depth) := by
  induction as with
  | nil => rfl
  | cons a as ih => simp [instantiateAtList, ih]

/-- The body of a quantified formula with constants in place of its bound variables. The last
binder is the variable counted first. -/
def instantiate (xs : List Constant) (body : Term) : Term :=
  instantiateAt (xs.reverse.map const) 0 body

mutual

/-- Turns free constants into bound variables under `depth` binders. -/
def abstractAt (σ : Constant → Option Nat) (depth : Nat) : Term → Term
  | .lit a => .lit a
  | .bound i s => .bound i s
  | .fn f as =>
    match (constant? f as).bind σ with
    | some i => .bound (i + depth) f.range
    | none => .fn f (abstractAtList σ depth as)
  | .op f as => .op f (abstractAtList σ depth as)
  | .quant q xs b => .quant q xs (abstractAt σ (depth + xs.length) b)

/-- `abstractAt` on each term of a list. -/
def abstractAtList (σ : Constant → Option Nat) (depth : Nat) : List Term → List Term
  | [] => []
  | a :: as => abstractAt σ depth a :: abstractAtList σ depth as

end

/-- The body of a quantified formula over the constants `xs`: the last of them becomes the
variable counted first. Of two equal constants the inner one binds. -/
def abstract (xs : List Constant) (t : Term) : Term :=
  abstractAt (fun c => xs.reverse.findIdx? (· == c)) 0 (lift xs.length 0 t)

end Term
end Horn
