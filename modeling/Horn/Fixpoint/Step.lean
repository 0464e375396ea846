import Horn.Learner.Rules

/-!
# Steps

A step is a rule in normal form: a guard that mentions no relation, premises, which are relations
at arguments, and a conclusion. A disjunction in the body of a rule gives one step for each
alternative.

`RuleSystem.steps?` brings a system into this form. It refuses a rule in which a relation occurs in
any other place, and one that mentions a symbol that is neither a relation nor a variable. A
variable counts from the rule on that first has it.

The variables of steps are renamed to `?0`, `?1`, …, so that variables of different steps can be
kept apart by a suffix.
-/

namespace Horn

/-- A rule in normal form. -/
structure Step where
  guard : List Term
  premises : List (Symbol × List Term)
  conclusion : Symbol × List Term
  deriving Inhabited

namespace Step

/-- The name of a variable or a parameter by its number. -/
def variableName (i : Nat) : String := "?" ++ toString i

/-- Relations, and the variables that rules may mention. -/
structure Scope where
  relations : List Symbol
  vars : List Constant

namespace Scope

/-- Whether a symbol applied to arguments is a variable. -/
def isVar (s : Scope) (f : Symbol) (args : List Term) : Bool :=
  f.domain.isEmpty && args.isEmpty && s.vars.contains ⟨f.name, f.range⟩

/-- Whether an application is one of a relation. A variable is none. -/
def isRelation (s : Scope) (f : Symbol) (args : List Term) : Bool :=
  s.relations.contains f && !s.isVar f args

mutual

/-- Whether a term mentions no symbols but variables. -/
def isPlain (s : Scope) : Term → Bool
  | .lit _ => true
  | .bound _ _ => true
  | .fn f args => s.isVar f args
  | .op _ args => isPlainList s args
  | .quant _ _ b => isPlain s b

/-- Whether the terms of a list mention no symbols but variables. -/
def isPlainList (s : Scope) : List Term → Bool
  | [] => true
  | t :: ts => isPlain s t && isPlainList s ts

end

end Scope

/-- A conjunction of a guard and premises. -/
abbrev Body := List Term × List (Symbol × List Term)

/-- The conjunctions of one body from each of two disjunctions. -/
def both (as bs : List Body) : List Body :=
  as.flatMap fun a => bs.map fun b => (a.1 ++ b.1, a.2 ++ b.2)

mutual

/-- The alternatives of a formula: conjunctions that together amount to it. -/
def alternatives (s : Scope) : Term → Option (List Body)
  | .fn f args =>
    if s.isRelation f args then
      if s.isPlainList args then some [([], [(f, args)])] else none
    else if s.isVar f args then some [([.fn f args], [])]
    else none
  | .op f args =>
    if s.isPlainList args then some [([.op f args], [])]
    else match f with
      | .and => allOf s args
      | .or => anyOf s args
      | _ => none
  | t => if s.isPlain t then some [([t], [])] else none

/-- The alternatives of a conjunction. -/
def allOf (s : Scope) : List Term → Option (List Body)
  | [] => some [([], [])]
  | t :: ts => do
    let a ← alternatives s t
    let b ← allOf s ts
    some (both a b)

/-- The alternatives of a disjunction. -/
def anyOf (s : Scope) : List Term → Option (List Body)
  | [] => some []
  | t :: ts => do
    let a ← alternatives s t
    let b ← anyOf s ts
    some (a ++ b)

end

/-- The new names of variables. -/
def newNames (vars : List Constant) : List (Constant × Term) :=
  vars.zipIdx.map fun (c, i) => (c, Term.const ⟨variableName i, c.sort⟩)

/-- A step with other terms in it. -/
def map (f : Term → Term) (s : Step) : Step where
  guard := s.guard.map f
  premises := s.premises.map fun (r, args) => (r, args.map f)
  conclusion := (s.conclusion.1, s.conclusion.2.map f)

/-- A step whose variables have a suffix. -/
def withSuffix (suffix : String) (s : Step) : Step :=
  s.map (Term.replace (fun c => some (Term.const ⟨c.name ++ suffix, c.sort⟩)) 0)

/-- The normal forms of a rule. -/
def ofRule? (s : Scope) (r : Rule) : Option (List Step) := do
  let bodies ← allOf s r.body
  match r.head with
  | .fn f args =>
    if s.isRelation f args && s.isPlainList args then
      some (bodies.map fun (guard, premises) =>
        (Step.mk guard premises (f, args)).map (Term.substitute (newNames s.vars)))
    else none
  | _ => none

end Step

namespace RuleSystem

/-- The steps of rules, given the variables of the rules before them. -/
def stepsFrom? (relations : List Symbol) : List Constant → List Rule → Option (List Step)
  | _, [] => some []
  | vars, r :: rs => do
    let vars := vars ++ r.vars.filter (!vars.contains ·)
    let first ← Step.ofRule? ⟨relations, vars⟩ r
    let rest ← stepsFrom? relations vars rs
    some (first ++ rest)

/-- The steps of a rule system. -/
def steps? (sys : RuleSystem) : Option (List Step) :=
  stepsFrom? (sys.error :: sys.relations) [] sys.rules

end RuleSystem

end Horn
