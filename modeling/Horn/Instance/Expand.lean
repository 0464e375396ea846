import Horn.Engine
import Horn.Instance.Basic

/-!
# Expanding defined predicates

`Instance.expand` replaces the applications of defined predicates by their definitions. It works
from the inside: first the arguments are expanded, then the definition is applied to them, and
the result is expanded again. While the definition of a predicate is being expanded, further
applications of that predicate are left as they are, so that cyclic definitions end; quantified
formulas are left as they are, too. Since a predicate is unfolded at most once on each path, the
number of predicates bounds the depth of unfolding.

`Instance.simplifyInPlace` expands and simplifies a whole map of definitions. Expansions that
start from nothing unfolded are remembered in the instance (`Instance.expandRemembered`) until a
definition changes.
-/

namespace Horn
namespace Instance

/-- An application of the same operator to other arguments of the same sorts, if the declaration of
the operator can be called with that many. -/
def rebuild (callable : Callable) (f : Op) (old new : List Term) : Except Fault Term :=
  if callable f new.length then
    match Term.castAll? (old.map Term.sort) new with
    | some args => .ok (.op f args)
    | none => .error .illSorted
  else .error .illSorted

/-- An application of a symbol to expanded arguments. -/
def reapply (f : Symbol) (args : List Term) : Except Fault Term :=
  -- A constant is taken as it is, whatever its domain.
  if args.isEmpty then .ok (.fn f args)
  else match f.app? args with
    | some t => .ok t
    | none => .error .illSorted

mutual

/-- Expands from the inside; `unfold` says what to do with an application whose arguments have
been expanded, or declines. -/
def expandBy (callable : Callable) (unfold : Symbol → List Term → Option (Except Fault Term)) :
    Term → Except Fault Term
  | .lit a => .ok (.lit a)
  | .bound i s => .ok (.bound i s)
  | .fn f as =>
    match expandListBy callable unfold as with
    | .error e => .error e
    | .ok bs =>
      match unfold f bs with
      | some r => r
      | none => reapply f bs
  | .op f as =>
    match expandListBy callable unfold as with
    | .error e => .error e
    | .ok bs => rebuild callable f as bs
  -- What is bound in a quantified formula is left alone, with all that it applies.
  | .quant q xs b => .ok (.quant q xs b)

/-- `expandBy` on each term of a list, from left to right. -/
def expandListBy (callable : Callable)
    (unfold : Symbol → List Term → Option (Except Fault Term)) :
    List Term → Except Fault (List Term)
  | [] => .ok []
  | a :: as =>
    match expandBy callable unfold a with
    | .error e => .error e
    | .ok b =>
      match expandListBy callable unfold as with
      | .error e => .error e
      | .ok bs => .ok (b :: bs)

end

/-- The definition that is to be unfolded for a symbol while the predicates in `stack` are being
unfolded. -/
def unfoldable? (inst : Instance) (stack : List Nat) (f : Symbol) : Option (Nat × Definition) :=
  match inst.predOf? f with
  | none => none
  | some p => if p ∈ stack then none else (inst.definition? p).map fun d => (p, d)

/-- Expands a term while the predicates in `stack` are being unfolded, to a depth of at most
`fuel` definitions. -/
def expandFrom (callable : Callable) (inst : Instance) :
    Nat → List Nat → Term → Except Fault Term
  -- There is fuel for each predicate, so by now all of them are being unfolded.
  | 0, _, t => expandBy callable (fun _ _ => none) t
  | fuel + 1, stack, t =>
    expandBy callable
      (fun f args => (inst.unfoldable? stack f).map fun (p, d) => do
        expandFrom callable inst fuel (p :: stack) (← d.apply args))
      t

/-- Replaces every application of a defined predicate outside of quantified formulas by its
definition, recursively. -/
def expand (inst : Instance) (t : Term) (callable : Callable := .any) : Except Fault Term :=
  inst.expandFrom callable inst.preds.length [] t

/-! ### Remembered expansions -/

/-- A term with the expansions that are remembered after it. -/
abbrev Remembered (α : Type) := α × List (Term × Term)

/-- The remembered expansion of a term. -/
def remembered? (memory : List (Term × Term)) (t : Term) : Option Term :=
  (memory.find? (·.1 == t)).map (·.2)

mutual

/-- `expand` with a memory: an application that is remembered is not expanded again, and the
expansion of every application is remembered. -/
def expandRemembered (callable : Callable) (inst : Instance) :
    Term → List (Term × Term) → Except Fault (Remembered Term)
  | .lit a, memory => .ok (.lit a, memory)
  | .bound i s, memory => .ok (.bound i s, memory)
  | .fn f as, memory =>
    -- Constants are not worth remembering.
    if (inst.predOf? f).isNone && as.isEmpty then .ok (.fn f as, memory)
    else match remembered? memory (.fn f as) with
    | some t => .ok (t, memory)
    | none =>
      match expandRememberedList callable inst as memory with
      | .error e => .error e
      | .ok (bs, memory) =>
        -- The definition itself is expanded without the memory.
        let r := match inst.unfoldable? [] f with
          | some (p, d) =>
            (d.apply bs).bind (inst.expandFrom callable (inst.preds.length - 1) [p])
          | none => reapply f bs
        r.map fun t => (t, (.fn f as, t) :: memory)
  | .op f as, memory =>
    match remembered? memory (.op f as) with
    | some t => .ok (t, memory)
    | none =>
      match expandRememberedList callable inst as memory with
      | .error e => .error e
      | .ok (bs, memory) =>
        (rebuild callable f as bs).map fun t => (t, (.op f as, t) :: memory)
  | .quant q xs b, memory => .ok (.quant q xs b, memory)

/-- `expandRemembered` on each term of a list, from left to right. -/
def expandRememberedList (callable : Callable) (inst : Instance) :
    List Term → List (Term × Term) → Except Fault (Remembered (List Term))
  | [], memory => .ok ([], memory)
  | a :: as, memory =>
    match expandRemembered callable inst a memory with
    | .error e => .error e
    | .ok (b, memory) =>
      match expandRememberedList callable inst as memory with
      | .error e => .error e
      | .ok (bs, memory) => .ok (b :: bs, memory)

end

/-! ### Definitions of all predicates -/

/-- The definitions of a candidate for this instance: its formulas, which have to be formulas
for predicates of the instance, and the definition of every predicate that it leaves out. -/
def definitionsFrom (inst : Instance) (candidate : Definitions) : Except Fault Definitions := do
  candidate.forM fun (p, fragment) => do
    if p < 0 then throw (Fault.candidateIndex p)
    match inst.preds[p.toNat]? with
    | none => throw (Fault.candidateIndex p)
    | some q => if fragment.isBool then pure () else throw (Fault.candidateSort q.name fragment)
  -- Predicates that are left out have their own definition, over their own parameters.
  inst.preds.zipIdx.foldlM (fun defs (q, i) =>
    match q.definition with
    | none => pure defs
    | some d =>
      if defs.has i then pure defs
      else do pure (defs.insert i (← d.apply (q.params.map Term.const)))) candidate

/-- Expands and simplifies each formula of a map of definitions. -/
def simplifyAll (engine : Engine) (inst : Instance) :
    Definitions → List (Term × Term) → Except Fault (Remembered Definitions)
  | [], memory => .ok ([], memory)
  | (p, t) :: rest, memory =>
    match inst.expandRemembered engine.callable t memory with
    | .error e => .error e
    | .ok (t', memory) =>
      match simplifyAll engine inst rest memory with
      | .error e => .error e
      | .ok (rest', memory) => .ok ((p, engine.simplify t') :: rest', memory)

/-- Expands and simplifies a map of definitions and remembers the expansions. Only an instance
that nobody holds may be used so. -/
def simplifyInPlace (engine : Engine) (defs : Definitions) : Act Instance Definitions := do
  let inst ← get
  let (defs, memory) ← Act.ofExcept (inst.simplifyAll engine defs inst.expansions)
  set { inst with expansions := memory }
  Act.debug .instance
    ("simplified " ++ toString defs.length ++ " definition(s) in " ++ inst.title)
  pure defs

end Instance
end Horn
