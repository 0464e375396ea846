import Horn.Instance.Expand

/-!
# Preprocessing a split

Splitting isolates one negative clause after the other. The sub-instance for a clause keeps every
clause with a conclusion and drops all other negative clauses (`Instance.isolate`).

Some sub-instances need no learner (`trivialModel`): without a negative clause there is nothing
to learn, and a negative clause without predicates is decided by its side condition alone.

`Preprocessor.standard` isolates and tries that. Other preprocessors may answer differently, may
fail, may keep a state of their own, and may keep holding the instance that they were given.
-/

namespace Horn

/-- What a preprocessor makes of a negative clause. -/
inductive Reduced where
  /-- The top-level instance itself. -/
  | whole
  /-- A new instance, which is left to the learner. -/
  | sub (inst : Instance)
  /-- Decided: satisfiable with a partial model, or unsatisfiable. -/
  | trivial (model : Option Definitions)

/-- The holds of a collaborator on the instances that it was given: how many it has on the last
one, on the one before, and so on. A numeral stands for holds on the last one. -/
structure Holds where
  count : Nat → Nat

namespace Holds

instance (n : Nat) : OfNat Holds n := ⟨⟨fun | 0 => n | _ + 1 => 0⟩⟩

instance : Add Holds := ⟨fun g h => ⟨fun i => g.count i + h.count i⟩⟩

instance : Inhabited Holds := ⟨0⟩

/-- The holds on the instance that was given last. -/
def last (h : Holds) : Nat := h.count 0

/-- The holds on the instances before. -/
def earlier (h : Holds) : Holds := ⟨fun i => h.count (i + 1)⟩

/-- The holds when one more instance is given. -/
def next (h : Holds) : Holds := ⟨fun | 0 => 0 | i + 1 => h.count i⟩

end Holds

/-- The state of a collaborator: its own, and its holds. What it took in one call it may release in
a later one. -/
structure Visitor (κ : Type) where
  own : κ
  holds : Holds
  deriving Inhabited

/-- The state of a collaborator that is given one more instance. -/
def Visitor.next {κ : Type} (v : Visitor κ) : Visitor κ := { v with holds := v.holds.next }

/-- A preprocessing collaborator with states in `κ`. It is given the top-level instance, unless
that has been let go, the clause to isolate, and the clauses that were isolated before. Its holds
are on that one instance, however often it is given. -/
structure Preprocessor (κ : Type) where
  reduce : Option Instance → Int → List Nat → Act (Visitor κ) Reduced

namespace Instance

/-- The handles of the clauses that isolating a clause keeps. -/
def kept (inst : Instance) (isolated : Int) : List Int :=
  (inst.clauses.filter fun c => c.conclusion.isSome || (c.index : Int) == isolated).map
    fun c => (c.index : Int)

/-- The name of the sub-instance for a clause. -/
def splitName (inst : Instance) (isolated : Int) : String :=
  inst.title ++ "/split#" ++ toString isolated

/-- The sub-instance that isolates one negative clause. -/
def isolate (inst : Instance) (isolated : Int) : Except Fault Instance :=
  inst.derive (inst.splitName isolated) (inst.kept isolated)

end Instance

/-- Decides an instance without learning, if its negative clauses allow that. -/
def trivialModel {κ : Type} (engine : Engine) (inst : Instance) :
    Act κ (Option (Option Definitions)) := do
  match inst.negClauses with
  | [] => pure (some (some []))
  -- Several negative clauses are left to the learner.
  | _ :: _ :: _ => pure none
  | [n] =>
    let c ← Act.ofExcept (inst.clause n)
    -- With applications, the clause depends on what is learned.
    if !c.uses.isEmpty then pure none
    else if c.terms.any (!·.isBool) then throw Fault.illSorted
    else match engine.check c.terms with
    | .unsat =>
      Act.debug .preprocessing
        (inst.name ++ ": negative clause #" ++ toString c.index ++ " is vacuous")
      pure (some (some []))
    | .sat _ =>
      Act.debug .preprocessing
        (inst.name ++ ": negative clause #" ++ toString c.index ++ " is a ground contradiction")
      pure (some none)
    | .unknown => pure none

/-- Isolates a clause and decides the sub-instance if that is trivial. -/
def reduceClause {κ : Type} (engine : Engine) (inst : Instance) (isolated : Int)
    (excluded : List Nat) : Act κ Reduced := do
  let c ← Act.ofExcept (inst.clause isolated)
  if c.conclusion.isSome then throw (Fault.splitNonNegative isolated)
  let sub ← Act.ofExcept (inst.isolate isolated)
  Act.debug .preprocessing
    (sub.name ++ ": kept " ++ toString (inst.kept isolated).length ++ " of "
      ++ toString inst.clauses.length ++ " clause(s), " ++ toString excluded.length
      ++ " previously isolated")
  match ← trivialModel engine sub with
  | some model => pure (.trivial model)
  | none => pure (.sub sub)

/-- The preprocessor that isolates and decides trivial sub-instances. -/
def Preprocessor.standard (engine : Engine) (κ : Type) : Preprocessor κ where
  reduce inst? isolated excluded :=
    match inst? with
    | some inst => reduceClause engine inst isolated excluded
    | none => throw Fault.splitterClosed

end Horn
