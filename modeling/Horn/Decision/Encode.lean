import Horn.Arith.Formula
import Horn.Decision.Flatten

/-!
# From flat formulas to linear constraints

`encode` translates a flat formula into negation normal form over numbered variables; the
constants behind the numbers are collected on the way.
-/

namespace Horn
namespace Decision

open Term Arith

/-- The constants that have been numbered. -/
structure Numbering where
  numbers : List Constant
  flags : List Constant
  deriving Inhabited

/-- The position of an item in a list, to which it is added if it is new. -/
def place {α : Type} [BEq α] (items : List α) (a : α) : Nat × List α :=
  match items.findIdx? (· == a) with
  | some i => (i, items)
  | none => (items.length, items ++ [a])

/-- The number of a numeric constant. -/
def numberOf (c : Constant) : StateM Numbering Nat := do
  let s ← get
  let (i, numbers) := place s.numbers c
  set { s with numbers := numbers }
  pure i

/-- The number of a Boolean constant. -/
def flagOf (c : Constant) : StateM Numbering Nat := do
  let s ← get
  let (i, flags) := place s.flags c
  set { s with flags := flags }
  pure i

mutual

/-- The linear expression that a flat term is. -/
def linear : Term → StateM Numbering (Option Linear)
  | .lit (.int n) => pure (some (Linear.ofRat n))
  | .lit (.real q) => pure (some (Linear.ofRat q))
  | .fn f [] => do
    let x ← numberOf ⟨f.name, f.range⟩
    pure (some (Linear.ofVar x))
  | .op f as => do
    match ← linearList as with
    | none => pure none
    | some es => pure (match f, es with
      | .add, es => some (es.foldl Linear.add (Linear.ofRat 0))
      | .sub, e :: es => some (es.foldl Linear.sub e)
      | .neg, [e] => some (e.scale (-1))
      | .toReal, [e] => some e
      | .mul, es => es.foldl (fun acc e => acc.bind fun acc =>
          if acc.weights.isEmpty then some (e.scale acc.constant)
          else if e.weights.isEmpty then some (acc.scale e.constant)
          else none) (some (Linear.ofRat 1))
      | _, _ => none)
  | _ => pure none

/-- The linear expressions that flat terms are. -/
def linearList : List Term → StateM Numbering (Option (List Linear))
  | [] => pure (some [])
  | a :: as => do
    let e ← linear a
    let es ← linearList as
    pure (e.bind fun e => es.map (e :: ·))

end

/-- The difference of two terms as a linear expression. -/
def difference (s t : Term) : StateM Numbering (Option Linear) := do
  let e ← linear s
  let f ← linear t
  pure (e.bind fun e => f.map fun f => e.sub f)

/-- A comparison, or its negation. -/
def compareTerms (positive : Bool) (f : Op) (s t : Term) : StateM Numbering (Option Formula) := do
  pure ((← difference s t).map fun e =>
    let opposite := e.scale (-1)
    match f, positive with
    | .le, true | .gt, false => .compare ⟨.le, e⟩
    | .lt, true | .ge, false => .compare ⟨.lt, e⟩
    | .ge, true | .lt, false => .compare ⟨.le, opposite⟩
    | .gt, true | .le, false => .compare ⟨.lt, opposite⟩
    | _, true => .compare ⟨.eq, e⟩
    | _, false => .differ e)

/-- Both or neither of two formulas that are given with their negations, or just one of them. -/
def agree (positive : Bool) (f notF g notG : Option Formula) : Option Formula :=
  f.bind fun f => notF.bind fun notF => g.bind fun g => notG.map fun notG =>
    if positive then .any [.all [f, g], .all [notF, notG]]
    else .any [.all [f, notG], .all [notF, g]]

/-- Formulas for a list of terms, if each has one. -/
def both (a b : Option Formula) (combine : Formula → Formula → Formula) : Option Formula :=
  a.bind fun a => b.map fun b => combine a b

mutual

/-- The negation normal form of a flat formula, or of its negation. -/
def encode (positive : Bool) : Term → StateM Numbering (Option Formula)
  | .lit (.bool b) => pure (some (.const (b == positive)))
  | .fn f [] => do
    let x ← flagOf ⟨f.name, f.range⟩
    pure (some (.flag x positive))
  | .op .not [t] => encode (!positive) t
  | .op .and ts => do
    let fs ← encodeList positive ts
    pure (fs.map fun fs => if positive then .all fs else .any fs)
  | .op .or ts => do
    let fs ← encodeList positive ts
    pure (fs.map fun fs => if positive then .any fs else .all fs)
  | .op .implies [s, t] => do
    let f ← encode (!positive) s
    let g ← encode positive t
    pure (both f g fun f g => if positive then .any [f, g] else .all [f, g])
  | .op .xor [s, t] => do
    pure (agree (!positive) (← encode true s) (← encode false s) (← encode true t)
      (← encode false t))
  | .op .ite [c, s, t] => do
    let yes ← encode true c
    let no ← encode false c
    let f ← encode positive s
    let g ← encode positive t
    pure (both (both yes f fun c f => .all [c, f]) (both no g fun c g => .all [c, g])
      fun f g => .any [f, g])
  | .op .eq [s, t] =>
    if s.isBool then do
      pure (agree positive (← encode true s) (← encode false s) (← encode true t)
        (← encode false t))
    else compareTerms positive .eq s t
  | .op .distinct [s, t] =>
    if s.isBool then do
      pure (agree (!positive) (← encode true s) (← encode false s) (← encode true t)
        (← encode false t))
    else compareTerms (!positive) .eq s t
  | .op f [s, t] =>
    match f with
    | .le | .lt | .ge | .gt => compareTerms positive f s t
    | _ => pure none
  | _ => pure none

/-- The encodings of a list of formulas. -/
def encodeList (positive : Bool) : List Term → StateM Numbering (Option (List Formula))
  | [] => pure (some [])
  | a :: as => do
    let f ← encode positive a
    let fs ← encodeList positive as
    pure (f.bind fun f => fs.map (f :: ·))

end

end Decision
end Horn
