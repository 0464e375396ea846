import Horn.Proofs.EntryPoints.Query

/-!
# How a query fails

A failure of a query is one of the oracle, of the engine or of a value. What is left are handles
outside of a table and two kinds of numbers that nothing foresees (`Fault.OfQuery`). Each part of a
query fails in one of these ways only, so the query does (`Reconstruction.raises_asked`).
-/

namespace Horn

/-- The fault is one of the three origins that are told apart, or it has one of three causes. -/
def Fault.OfQuery (fault : Fault) : Prop :=
  fault.origin = .other → fault = .outOfRange ∨ fault = .badNumberType ∨ fault = .zeroDenominator

theorem Fault.ofQuery_illSorted : Fault.OfQuery .illSorted := nofun

/-! ### Values and applications -/

theorem Value.raises_toInt (v : Value) : Raises Fault.OfQuery v.toInt := by
  cases v with
  | text s =>
    unfold toInt
    dsimp only
    split
    · exact raises_ok _
    · exact raises_error nofun
  | unknown => exact raises_error nofun
  | absent => exact raises_error fun _ => .inr (.inl rfl)
  | _ => exact raises_ok _

theorem Value.raises_toRat (v : Value) : Raises Fault.OfQuery v.toRat := by
  unfold toRat
  split
  · exact raises_ok _
  · split
    · split
      · exact raises_error fun _ => .inr (.inr rfl)
      · exact raises_ok _
    · exact raises_error nofun
  · exact (v.raises_toInt.bind fun _ _ => raises_ok _).map _

theorem Value.raises_toTerm (v : Value) (s : TermSort) : Raises Fault.OfQuery (v.toTerm s) := by
  unfold toTerm
  split
  · exact raises_error nofun
  · cases s with
    | bool => exact raises_ok _
    | int => exact v.raises_toInt.map _
    | real => exact v.raises_toRat.map _
    | bitVec w => exact v.raises_toInt.map _
    | array _ _ => exact raises_error nofun
    | free _ => exact raises_error nofun

theorem Value.raises_ofTerm (t : Term) : Raises Fault.OfQuery (Value.ofTerm t) := by
  intro e h
  unfold ofTerm at h
  split at h
  case h_5 => cases h; exact nofun
  all_goals cases h

theorem Sample.raises_ofModel (m : Model) (p : Int) (argss : List (List Term)) :
    Raises Fault.OfQuery (Sample.ofModel m p argss) :=
  raises_mapM fun _ _ => (raises_mapM fun _ _ => Value.raises_ofTerm _).bind fun _ _ => raises_ok _

theorem raises_atHandle {α : Type} (table : List α) (i : Int) :
    Raises Fault.OfQuery (atHandle table i) := by
  unfold atHandle
  split
  · exact raises_ok _
  · exact raises_error fun _ => .inl rfl

namespace Instance

variable {P : Fault → Prop} {callable : Callable}

mutual

/-- One level of expansion fails as unfolding does, or because of the sorts. -/
theorem raises_expandBy {unfold : Symbol → List Term → Option (Except Fault Term)}
    (hsort : P .illSorted) (hunfold : ∀ f args r, unfold f args = some r → Raises P r) :
    ∀ t : Term, Raises P (expandBy callable unfold t)
  | .lit _ => raises_ok _
  | .bound _ _ => raises_ok _
  | .fn f as => by
    rw [expandBy]
    have has := raises_expandListBy hsort hunfold as
    cases hbs : expandListBy callable unfold as with
    | error e => exact raises_error (has e hbs)
    | ok bs =>
      dsimp only
      split
      · next r hr => exact hunfold f bs r hr
      · unfold reapply
        split
        · exact raises_ok _
        · split
          · exact raises_ok _
          · exact raises_error hsort
  | .op f as => by
    rw [expandBy]
    have has := raises_expandListBy hsort hunfold as
    cases hbs : expandListBy callable unfold as with
    | error e => exact raises_error (has e hbs)
    | ok bs =>
      dsimp only
      unfold rebuild
      -- The engine may refuse the call, or the arguments may be of other sorts.
      split
      · split
        · exact raises_ok _
        · exact raises_error hsort
      · exact raises_error hsort
  | .quant _ _ _ => raises_ok _

theorem raises_expandListBy {unfold : Symbol → List Term → Option (Except Fault Term)}
    (hsort : P .illSorted) (hunfold : ∀ f args r, unfold f args = some r → Raises P r) :
    ∀ as : List Term, Raises P (expandListBy callable unfold as)
  | [] => raises_ok _
  | a :: as => by
    rw [expandListBy]
    have ha := raises_expandBy hsort hunfold a
    have has := raises_expandListBy hsort hunfold as
    cases hb : expandBy callable unfold a with
    | error e => exact raises_error (ha e hb)
    | ok b =>
      cases hbs : expandListBy callable unfold as with
      | error e => exact raises_error (has e hbs)
      | ok bs => exact raises_ok _

end

theorem raises_expand (inst : Instance) (t : Term) :
    Raises Fault.OfQuery (inst.expand t callable) := by
  have hfrom : ∀ (fuel : Nat) (stack : List Nat) (t : Term),
      Raises Fault.OfQuery (inst.expandFrom callable fuel stack t) := by
    -- The expansion goes on at each application that has a definition, with the fuel of one step
    -- less.
    intro fuel
    induction fuel with
    | zero => exact fun _ => raises_expandBy Fault.ofQuery_illSorted fun _ _ _ h => by cases h
    | succ fuel ih =>
      refine fun stack => raises_expandBy Fault.ofQuery_illSorted fun f args r h => ?_
      obtain ⟨⟨p, d⟩, -, rfl⟩ := Option.map_eq_some_iff.1 h
      refine Raises.bind ?_ fun u _ => ih (p :: stack) u
      unfold Definition.apply
      split_ifs
      · exact raises_error nofun
      · exact raises_ok _
      · exact raises_ok _
      · exact raises_error nofun
  exact hfrom _ _ t

end Instance

namespace Session

theorem raises_formula (t : Term) : Raises Fault.OfQuery (formula t) := by
  unfold formula
  split
  · exact raises_ok _
  · exact raises_error nofun

theorem raises_application (callable : Callable) (s : Session) (p : Int) (args : List Term)
    (original : Bool) : Raises Fault.OfQuery (s.application callable p args original) := by
  unfold application
  split
  · exact raises_error nofun
  · next inst _ =>
    refine Raises.bind ?_ fun u _ => raises_formula u
    unfold resolveApp
    refine Raises.bind (raises_atHandle _ _) fun q _ => ?_
    -- Under the original signature the arguments are projected first.
    split
    · refine Raises.bind ?_ fun bs _ => ?_
      · unfold project
        split
        · exact raises_ok _
        · exact raises_error nofun
      · dsimp only
        split
        · exact inst.raises_expand _
        · exact raises_error Fault.ofQuery_illSorted
    · refine Raises.bind (raises_ok args) fun bs _ => ?_
      dsimp only
      split
      · exact inst.raises_expand _
      · exact raises_error Fault.ofQuery_illSorted

end Session

namespace Reconstruction

theorem raises_both {r r' : Except Fault (List Term)} (h : Raises Fault.OfQuery r)
    (h' : Raises Fault.OfQuery r') : Raises Fault.OfQuery (Session.both r r') :=
  h.bind fun _ _ => h'.bind fun _ _ => raises_ok _

theorem raises_constraints (callable : Callable) (s : Session) (c : Clause) (args : List Term)
    (values : List Value) : Raises Fault.OfQuery (constraints callable s c args values) := by
  have hpins : ∀ (arg : Term) (v : Value), Raises Fault.OfQuery (pinned arg v) := by
    intro arg v
    unfold pinned pin
    refine Raises.map ?_ _
    split
    · exact raises_ok _
    · exact (v.raises_toTerm _).map _
  exact raises_both ((raises_mapM fun t _ => Session.raises_formula t).map _)
    (raises_both ((raises_mapM fun a _ => s.raises_application callable a.1 a.2 true).map _)
      ((raises_mapM fun a _ => hpins a.1 a.2).map _))

theorem raises_answer (engine : Engine) (positive : List Nat) (s : Session) (c : Clause)
    (ts : List Term) : Raises Fault.OfQuery (answer engine positive s c ts) := by
  unfold answer
  split
  · exact raises_error nofun
  · exact raises_ok _
  · exact ((raises_mapM fun u _ => (Sample.raises_ofModel _ _ _).map _).map _).map _

/-- **A query fails in one of the ways that are known.** -/
theorem raises_asked (engine : Engine) (positive : List Nat) (s : Session) (c : Clause)
    (args : List Term) (values : List Value) : Raises Fault.OfQuery
      ((constraints engine.callable s c args values).bind (answer engine positive s c)) :=
  (raises_constraints engine.callable s c args values).bind fun ts _ =>
    raises_answer engine positive s c ts

end Reconstruction
end Horn
