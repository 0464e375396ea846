import Horn.Engine
import Horn.Instance.Basic
import Horn.Text.Ratio

/-!
# Samples, signatures and terms

A sample can be read under the current signature of its predicate or under the original one.
`Sample.toOriginal` fills the positions that the current signature lacks with the unknown value,
`Sample.toReduced` drops them.

`Value.toTerm` and `Value.ofTerm` relate values and the literals of a sort.
-/

namespace Horn

namespace Sample

/-- Puts each value at its position of a list of values. -/
def place (positions : List Nat) (values : List Value) (into : List Value) : List Value :=
  (positions.zip values).foldl (fun out (i, v) => out.set i v) into

/-- A sample of the current signature under the original one. -/
def toOriginal (p : Predicate) (s : Sample) : Except Fault Sample :=
  if s.args.length = p.sorts.length then
    .ok ⟨s.pred, place p.positions s.args (List.replicate p.originalSorts.length .unknown)⟩
  else .error (.sampleArity s p.name p.sorts.length)

/-- A sample of the original signature under the current one. -/
def toReduced (p : Predicate) (s : Sample) : Except Fault Sample :=
  if s.args.length = p.originalSorts.length then
    .ok ⟨s.pred, p.positions.map fun i => (s.args[i]?).getD .unknown⟩
  else .error (.originalArity s p.name p.originalSorts.length)

/-- The text of a sample with the name of its predicate. -/
def textIn (inst : Instance) (s : Sample) : Except Fault String := do
  pure (s.render (← inst.pred s.pred).name)

end Sample

namespace Value

/-- The value of a literal; irrational numbers and all other terms have none. -/
def ofTerm (t : Term) : Except Fault Value :=
  match t with
  | .lit (.bool b) => .ok (.bool b)
  | .lit (.int n) => .ok (.int n)
  | .lit (.bitVec _ v) => .ok (.int v.toNat)
  | .lit (.real q) => .ok (.frac q)
  | t => .error (.noSampleValue t)

/-- The integer part of a rational, towards zero. -/
def truncate (q : Rat) : Int := q.num.tdiv q.den

/-- A value as an integer: numbers are truncated, `true` is `1`, a text is read. -/
def toInt : Value → Except Fault Int
  | .int n => .ok n
  | .frac q => .ok (truncate q)
  | .bool b => .ok (if b then 1 else 0)
  | .text s => match Text.integer? s with
    | some n => .ok n
    | none => .error .badNumber
  | .unknown => .error .unknownValue
  | .absent => .error .badNumberType

/-- A value as a rational; a text is read. -/
def toRat : Value → Except Fault Rat
  | .frac q => .ok q
  | .text s => match Text.ratio? s with
    | some (n, d) => if d = 0 then .error .zeroDenominator else .ok (mkRat n d)
    | none => .error .badNumber
  | v => v.toInt.map fun n => (n : Rat)

/-- A value as a truth value: zero and the empty text are false, as is the absent value. -/
def toBool : Value → Bool
  | .bool b => b
  | .int n => n != 0
  | .frac q => q != 0
  | .text s => !s.isEmpty
  | .absent => false
  | .unknown => true

/-- The literal of a sort that stands for a value. -/
def toTerm (v : Value) (sort : TermSort) : Except Fault Term :=
  if v = .unknown then .error .unknownValue
  else match sort with
    | .bool => .ok (Term.bool v.toBool)
    | .int => v.toInt.map Term.int
    | .real => v.toRat.map Term.real
    | .bitVec w => v.toInt.map (Term.bitVec w)
    | s => .error (.unsupportedSort s)

end Value

namespace Sample

/-- The samples that a model makes of argument lists. -/
def ofModel (m : Model) (pred : Int) (argss : List (List Term)) : Except Fault (List Sample) :=
  argss.mapM fun args => do
    pure ⟨pred, ← args.mapM fun a => Value.ofTerm (m.eval a)⟩

end Sample

end Horn
