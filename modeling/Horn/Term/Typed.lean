import Horn.Term.Basic

/-!
# Typed application

Applications that check their arguments. A truth value stands for `1` or `0` where a number is
wanted, and an integer for a real (`Term.cast?`); apart from that the sorts have to agree, and
an application that does not fit is refused with `none`.
-/

namespace Horn
namespace Term

/-- The integer `1` or `0` of a truth value. -/
def ofTruth (t : Term) : Term := .op .ite [t, int 1, int 0]

/-- A term at the given sort: the term itself, or the number that it stands for. -/
def cast? (s : TermSort) (t : Term) : Option Term :=
  if t.sort = s then some t
  else match t.sort, s with
    | .bool, .int => some (ofTruth t)
    | .bool, .real => some (.op .toReal [ofTruth t])
    | .int, .real => some (.op .toReal [t])
    | _, _ => none

/-- Each argument at the sort of its position; `none` when their numbers differ. -/
def castAll? : List TermSort → List Term → Option (List Term)
  | [], [] => some []
  | s :: ss, t :: ts => do
    let t ← cast? s t
    let ts ← castAll? ss ts
    some (t :: ts)
  | _, _ => none

/-- Casting to the sorts that the arguments already have changes nothing. -/
theorem castAll?_self (ts : List Term) : castAll? (ts.map sort) ts = some ts := by
  induction ts with
  | nil => rfl
  | cons t ts ih => simp [castAll?, cast?, ih]

theorem castAll?_of_sorts {ss : List TermSort} {ts : List Term} (h : ts.map sort = ss) :
    castAll? ss ts = some ts := by
  rw [← h, castAll?_self]

/-- The common sort of operands that may mix integers and reals. -/
def commonSort? (ts : List Term) : Option TermSort :=
  match ts.map sort with
  | [] => none
  | s :: ss =>
    if ss.all (· == s) then some s
    else if (s :: ss).all (fun s => s == .int || s == .real) then some .real
    -- Propositions count as numbers next to integers only.
    else if (s :: ss).all (fun s => s == .bool || s == .int) then some .int
    else none

/-- The operands at their common sort, which has to satisfy `ok`. -/
def operands? (ok : TermSort → Bool) (ts : List Term) : Option (List Term) := do
  let s ← commonSort? ts
  if ok s then castAll? (ts.map fun _ => s) ts else none

/-- The operands at one sort. -/
def operandsAt? (s : TermSort) (ts : List Term) : Option (List Term) :=
  castAll? (ts.map fun _ => s) ts

end Term

namespace TermSort

/-- Whether the sort is one of bit vectors. -/
def isBitVec : TermSort → Bool
  | .bitVec _ => true
  | _ => false

end TermSort

open Term in
/-- An application of a symbol to arguments that fit its domain. -/
def Symbol.app? (f : Symbol) (args : List Term) : Option Term :=
  (castAll? f.domain args).map (.fn f)

open Term in
/-- An application of an operator to arguments that fit it. -/
def Op.app? (f : Op) (args : List Term) : Option Term :=
  match f, args with
  | .and, _ | .or, _ => (operandsAt? .bool args).map (.op f)
  | .not, [_] | .implies, [_, _] | .xor, [_, _] => (operandsAt? .bool args).map (.op f)
  | .eq, _ :: _ :: _ | .distinct, _ :: _ => (operands? (fun _ => true) args).map (.op f)
  | .ite, [c, a, b] => do
    -- The branches are brought to one sort, the condition is not cast.
    let branches ← operands? (fun _ => true) [a, b]
    if c.isBool then some (.op .ite (c :: branches)) else none
  | .add, _ :: _ | .sub, _ :: _ | .mul, _ :: _ | .neg, [_] | .pow, [_, _]
  | .lt, [_, _] | .le, [_, _] | .gt, [_, _] | .ge, [_, _] =>
    (operands? TermSort.isArith args).map (.op f)
  | .div, [_, _] | .mod, [_, _] => (operands? (· == .int) args).map (.op f)
  | .divide, _ :: _ :: _ => (operandsAt? .real args).map (.op f)
  | .toReal, [_] => (operandsAt? .int args).map (.op f)
  | .toInt, [_] => (operandsAt? .real args).map (.op f)
  | .select, [a, i] =>
    match a.sort with
    | .array s _ => (cast? s i).map fun i => .op f [a, i]
    | _ => none
  | .store, [a, i, v] =>
    match a.sort with
    | .array s e => do
      let i ← cast? s i
      let v ← cast? e v
      some (.op f [a, i, v])
    | _ => none
  | .bvAdd, _ :: _ | .bvSub, _ :: _ | .bvMul, _ :: _
  | .bvUlt, [_, _] | .bvUle, [_, _] | .bvUgt, [_, _] | .bvUge, [_, _]
  | .bvSlt, [_, _] | .bvSle, [_, _] => (operands? TermSort.isBitVec args).map (.op f)
  | .other _ _, _ => some (.op f args)
  | _, _ => none

end Horn
