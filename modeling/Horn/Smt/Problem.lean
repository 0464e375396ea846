import Horn.Files
import Horn.Instance.Basic
import Horn.Smt.Script

/-!
# Problems

An asserted formula is a clause if, behind its universal quantifiers, it has one of the shapes

* `body => head`,
* `not body`,
* `head`,

where `body` is a conjunction of predicate applications and side conditions. A head that is
neither an application nor `false` moves to the body, negated. Every application of an
uninterpreted symbol with a truth value is a predicate application, also of a symbol without
arguments, unless a quantifier of the clause binds it.

A side condition mentions no predicate and has no quantifier; `Problem.hidden` finds what offends.
A predicate that is found there is looked up like any other one before the assertion is refused.

`Problem.load` reads a script and adds its clauses, and its predicates in the order of their first
use, to an instance. How the text of a script is read is left to a `Smt.Reader`, which is
`Smt.Script.assertions?` unless another one is given.
-/

namespace Horn
namespace Problem

/-- The variables that are bound universally at the front of a formula, and what follows. -/
def prenex : Term → List Constant × Term
  | .quant .all xs body => let (ys, matrix) := prenex body; (xs ++ ys, matrix)
  | t => ([], t)

/-- The variables of a clause and its quantifier-free matrix over them. -/
def matrix (t : Term) : Except Fault (List Constant × Term) :=
  let (vars, body) := prenex t
  match Term.instantiate vars body with
  | .quant q xs b => .error (.existential (.quant q xs b))
  | m => .ok (vars, m)

mutual

/-- The conjuncts of a formula; `true` has none. -/
def conjuncts : Term → List Term
  | .lit (.bool true) => []
  | .op .and ts => conjunctsList ts
  | t => [t]

/-- The conjuncts of several formulas. -/
def conjunctsList : List Term → List Term
  | [] => []
  | t :: ts => conjuncts t ++ conjunctsList ts

end

@[simp] theorem conjunctsList_eq_flatMap (ts : List Term) :
    conjunctsList ts = ts.flatMap conjuncts := by
  induction ts with
  | nil => rfl
  | cons t ts ih => simp [conjunctsList, ih]

/-- The body and the head of a matrix; a matrix without head has `false`. -/
def sides : Term → Term × Term
  | .op .implies [body, head] => (body, head)
  | .op .not [body] => (body, .falsum)
  | head => (.verum, head)

/-- Whether a symbol applied to arguments is a predicate of the clause with some variables. -/
def isPredicate (vars : List Constant) (f : Symbol) (args : List Term) : Bool :=
  f.range == .bool && !(args.isEmpty && vars.contains ⟨f.name, f.range⟩)

/-- What makes a formula unfit for a side condition. -/
inductive Offence where
  | quantifier
  | predicate (f : Symbol)
  deriving DecidableEq

mutual

/-- The first offence in a formula. Of the parts of a term the last one is looked at first. -/
def hidden (vars : List Constant) : Term → Option Offence
  | .quant _ _ _ => some .quantifier
  | .fn f args => if isPredicate vars f args then some (.predicate f) else hiddenList vars args
  | .op _ args => hiddenList vars args
  | .lit _ => none
  | .bound _ _ => none

/-- The first offence in a list of formulas, from the last one on. -/
def hiddenList (vars : List Constant) : List Term → Option Offence
  | [] => none
  | t :: ts =>
    match hiddenList vars ts with
    | some offence => some offence
    | none => hidden vars t

end

/-- The name of the operator at the front of a term. -/
def headName : Term → String
  | .op f _ => f.name
  | .fn f _ => f.name
  | .quant .all _ _ => "ForAll"
  | .quant .some _ _ => "Exists"
  | .lit _ => ""
  | .bound _ _ => ""

/-- The predicate with a symbol, which is added if it is new. -/
def predicate (inst : Instance) (f : Symbol) : Except Fault (Instance × Nat) :=
  match inst.predOf? f with
  | some p => .ok (inst, p)
  | none => (inst.addPredicate f.name f.domain none none).map (·, inst.preds.length)

/-- Checks that a formula is fit for a side condition of an assertion. -/
def checkCondition (vars : List Constant) (assertion : Nat) (inst : Instance) (t : Term) :
    Except Fault Unit :=
  match hidden vars t with
  | none => .ok ()
  | some .quantifier => .error (.nestedQuantifier assertion)
  | some (.predicate f) => do
    -- Looking a predicate up may add it, and that may be refused first.
    let _ ← predicate inst f
    throw (Fault.hiddenPredicate assertion (headName t))

/-- A predicate application, or a side condition of its own. -/
inductive Part where
  | app (pred : Nat) (args : List Term)
  | condition (t : Term)

/-- Sorts a conjunct or a head into predicate applications and side conditions. -/
def classify (vars : List Constant) (assertion : Nat) (inst : Instance) (t : Term) :
    Except Fault (Instance × Part) := do
  let condition : Except Fault (Instance × Part) := do
    checkCondition vars assertion inst t
    pure (inst, .condition t)
  match t with
  | .fn f args =>
    if isPredicate vars f args then
      let (inst, p) ← predicate inst f
      pure (inst, .app p args)
    else condition
  | _ => condition

/-- Classifies formulas from left to right. -/
def classifyAll (vars : List Constant) (assertion : Nat) :
    Instance → List Term → Except Fault (Instance × List Part)
  | inst, [] => .ok (inst, [])
  | inst, t :: ts => do
    let (inst, part) ← classify vars assertion inst t
    let (inst, parts) ← classifyAll vars assertion inst ts
    pure (inst, part :: parts)

/-- The side conditions among the parts of a clause. -/
def conditions (parts : List Part) : List Term :=
  parts.filterMap fun
    | .condition t => some t
    | .app _ _ => none

/-- The predicate applications among the parts of a clause. -/
def apps (parts : List Part) : List (Int × List Term) :=
  parts.filterMap fun
    | .condition _ => none
    | .app p args => some ((p : Int), args)

/-- Adds the clause that a formula states. -/
def addAssertion (inst : Instance) (assertion : Nat) (t : Term) : Except Fault Instance := do
  let (vars, m) ← matrix t
  let (body, head) := sides m
  let (inst, parts) ← classifyAll vars assertion inst (conjuncts body)
  if head.isFalsum then
    inst.addClause ⟨vars, conditions parts, apps parts, none, false, true⟩
  else
    let (inst, conclusion) ← classify vars assertion inst head
    match conclusion with
    | .app p args =>
      inst.addClause ⟨vars, conditions parts, apps parts, some (p, args), false, true⟩
    | .condition t =>
      inst.addClause ⟨vars, conditions parts ++ [t.neg], apps parts, none, false, true⟩

/-- The instance that a list of formulas describes. -/
def ofAssertions (name : String) (ts : List Term) : Except Fault Instance :=
  ts.zipIdx.foldlM (fun inst (t, n) => addAssertion inst n t) (.empty name)

/-- The instance that a script describes. -/
def ofScript (name text : String) (read : Smt.Reader := Smt.Script.assertions?) :
    Except Fault Instance :=
  match read text with
  | none => .error (.unparsable (if name.isEmpty then "input" else name) .badScript)
  | some ts => ofAssertions name ts

/-- Reads a script and notes the size of the problem. -/
def load {σ : Type} (name text : String) (read : Smt.Reader := Smt.Script.assertions?) :
    Act σ Instance := do
  let inst ← Act.ofExcept (ofScript name text read)
  Act.debug .problems ("loaded " ++ inst.title ++ ": " ++ toString inst.preds.length
    ++ " predicate(s), " ++ toString inst.clauses.length ++ " clause(s)")
  pure inst

/-- Reads the script in a file; the problem has the name of the file. -/
def loadFile {σ : Type} (files : Files) (path : String)
    (read : Smt.Reader := Smt.Script.assertions?) : Act σ Instance := do
  load (Path.stem path) (← Act.ofExcept (files.readText path)) read

end Problem
end Horn
