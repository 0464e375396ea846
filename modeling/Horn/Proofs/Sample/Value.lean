import Horn.EntryPoints.Reconstruction
import Horn.Proofs.Semantics.Sorting

/-!
# What sample values stand for

A value is an element of a sort (`Value.Is`): a truth value is itself, and a number is the integer,
the real or the word of that size. A text and the absent value are no elements.

`Value.toTerm` and `Value.ofTerm` agree with this. A value that is an element becomes the literal of
that element at its sort (`Value.toTerm_of_is`). The value of a literal, at a sort that the term of
the literal can be cast to, becomes what the cast denotes (`Value.toTerm_of_cast`).
-/

namespace Horn

variable {U : Universe}

/-- The element is a number. -/
inductive Element.IsNumber : Element U → ℚ → Prop
  | int (n : ℤ) : IsNumber ⟨.int, n⟩ n
  | real (q : ℚ) : IsNumber ⟨.real, (q : ℝ)⟩ q
  | word {w : ℕ} (b : BitVec w) : IsNumber ⟨.bitVec w, b⟩ b.toNat

namespace Value

/-- The value is the element. -/
inductive Is : Value → Element U → Prop
  | bool (b : Bool) : Is (.bool b) (.truth (b = true))
  | int {n : ℤ} {e : Element U} : e.IsNumber n → Is (.int n) e
  | frac {q : ℚ} {e : Element U} : e.IsNumber q → Is (.frac q) e

/-- The number that a value stands for, unless it is a truth value. -/
def number? : Value → Option ℚ
  | .int n => some n
  | .frac q => some q
  | _ => none

/-- A rational without a fractional part is truncated to itself. -/
theorem truncate_intCast (n : ℤ) : truncate (n : ℚ) = n := by
  simp [truncate]

theorem toInt_of_number {v : Value} {n : ℤ} (h : v.number? = some (n : ℚ)) : v.toInt = .ok n := by
  cases v with
  | int m => rw [toInt, Int.cast_injective (Option.some.inj h)]
  | frac q => rw [toInt, Option.some.inj h, truncate_intCast]
  | _ => cases h

theorem toRat_of_number {v : Value} {q : ℚ} (h : v.number? = some q) : v.toRat = .ok q := by
  cases v with
  | int m => rw [← Option.some.inj h]; rfl
  | frac q => rw [← Option.some.inj h]; rfl
  | _ => cases h

theorem toBool_of_number {v : Value} {q : ℚ} (h : v.number? = some q) : v.toBool = (q != 0) := by
  cases v with
  | int m =>
    rw [← Option.some.inj h, toBool, Bool.eq_iff_iff]
    simp
  | frac q => rw [← Option.some.inj h]; rfl
  | _ => cases h

theorem ne_unknown_of_number {v : Value} {q : ℚ} (h : v.number? = some q) : v ≠ .unknown := by
  rintro rfl
  cases h

/-- A number goes by its size. -/
theorem key_of_number {v : Value} {q : ℚ} (h : v.number? = some q) : v.key = ⟨2, q⟩ := by
  cases v with
  | int n => rw [key, Option.some.inj h]
  | frac x => rw [key, Option.some.inj h]
  | _ => cases h

/-- Supported values with the same key are equal, or they are the same integer. -/
theorem eq_or_number_of_key {v v' : Value} (h : v.key = v'.key) (hv : v.isSupported = true)
    (hv' : v'.isSupported = true) :
    v = v' ∨ ∃ n : ℤ, v.number? = some (n : ℚ) ∧ v'.number? = some (n : ℚ) := by
  cases v <;> cases v' <;> simp [key, isSupported] at h hv hv' <;> try simp [h]
  case bool.bool b b' => cases b <;> cases b' <;> simp at h ⊢
  case int.frac n q => exact ⟨n, rfl, congrArg some h.symm⟩
  case frac.int q n => exact ⟨n, rfl, rfl⟩

/-- Supported values with the same key become the same literal. -/
theorem toTerm_congr {v v' : Value} (h : v.key = v'.key) (hv : v.isSupported = true)
    (hv' : v'.isSupported = true) (s : TermSort) : v.toTerm s = v'.toTerm s := by
  rcases eq_or_number_of_key h hv hv' with rfl | ⟨n, hn, hn'⟩
  · rfl
  · unfold toTerm
    rw [if_neg (ne_unknown_of_number hn), if_neg (ne_unknown_of_number hn'), toInt_of_number hn,
      toInt_of_number hn', toRat_of_number hn, toRat_of_number hn', toBool_of_number hn,
      toBool_of_number hn']

theorem toTerm_int {v : Value} {n : ℤ} (h : v.number? = some (n : ℚ)) :
    v.toTerm .int = .ok (Term.int n) := by
  unfold toTerm
  rw [if_neg (ne_unknown_of_number h), toInt_of_number h]
  rfl

theorem toTerm_real {v : Value} {q : ℚ} (h : v.number? = some q) :
    v.toTerm .real = .ok (Term.real q) := by
  unfold toTerm
  rw [if_neg (ne_unknown_of_number h), toRat_of_number h]
  rfl

theorem toTerm_bitVec {v : Value} {n : ℤ} (h : v.number? = some (n : ℚ)) (w : ℕ) :
    v.toTerm (.bitVec w) = .ok (Term.bitVec w n) := by
  unfold toTerm
  rw [if_neg (ne_unknown_of_number h), toInt_of_number h]
  rfl

/-- A value that is a number becomes the literal of that number. -/
theorem toTerm_of_isNumber {v : Value} {e : Element U} {q : ℚ} (h : e.IsNumber q)
    (hv : v.number? = some q) :
    ∃ l : Literal, v.toTerm e.sort = .ok (.lit l) ∧ l.sort = e.sort ∧ l.denote = e := by
  cases h with
  | int n => exact ⟨.int n, toTerm_int hv, rfl, rfl⟩
  | real q => exact ⟨.real q, toTerm_real hv, rfl, rfl⟩
  | word b =>
    refine ⟨.bitVec _ b, ?_, rfl, rfl⟩
    rw [Element.sort, toTerm_bitVec (n := b.toNat) hv, Term.bitVec]
    simp

/-- **A value that is an element becomes the literal of that element.** -/
theorem toTerm_of_is {v : Value} {e : Element U} (h : v.Is e) :
    ∃ l : Literal, v.toTerm e.sort = .ok (.lit l) ∧ l.sort = e.sort ∧ l.denote = e := by
  cases h with
  | bool b => exact ⟨.bool b, rfl, rfl, rfl⟩
  | int h => exact toTerm_of_isNumber h rfl
  | frac h => exact toTerm_of_isNumber h rfl

/-- A value becomes a literal of the sort that is asked for. -/
theorem exists_lit_of_toTerm {v : Value} {s : TermSort} {t : Term} (h : v.toTerm s = .ok t) :
    ∃ l : Literal, t = .lit l ∧ l.sort = s := by
  have hmap : ∀ {α : Type} {x : Except Fault α} {f : α → Term}, x.map f = .ok t → ∃ a, f a = t := by
    intro α x f hx
    cases x with
    | error e => cases hx
    | ok a => exact ⟨a, Except.ok.inj hx⟩
  unfold toTerm at h
  split at h
  · cases h
  -- The three sorts of numbers convert first, and may fail there.
  · cases s with
    | bool => exact ⟨_, (Except.ok.inj h).symm, rfl⟩
    | int =>
      obtain ⟨n, rfl⟩ := hmap h
      exact ⟨_, rfl, rfl⟩
    | real =>
      obtain ⟨q, rfl⟩ := hmap h
      exact ⟨_, rfl, rfl⟩
    | bitVec w =>
      obtain ⟨n, rfl⟩ := hmap h
      exact ⟨_, rfl, rfl⟩
    | array _ _ => cases h
    | free _ => cases h

/-- The value of a literal is what the literal denotes. -/
theorem is_of_ofTerm {l : Literal} {v : Value} (h : ofTerm (.lit l) = .ok v) :
    v.Is (l.denote : Element U) := by
  cases l with
  | bool b => cases h; exact .bool b
  | int n => cases h; exact .int (.int n)
  | real q => cases h; exact .frac (.real q)
  | bitVec w b => cases h; exact .int (.word b)
  | root _ _ => cases h

/-- Only literals have a value. -/
theorem exists_lit_of_ofTerm {t : Term} {v : Value} (h : ofTerm t = .ok v) :
    ∃ l, t = .lit l := by
  unfold ofTerm at h
  split at h
  · exact ⟨_, rfl⟩
  · exact ⟨_, rfl⟩
  · exact ⟨_, rfl⟩
  · exact ⟨_, rfl⟩
  · cases h

theorem exists_bool_of_sort {l : Literal} (h : l.sort = .bool) : ∃ b, l = .bool b := by
  cases l with
  | bool b => exact ⟨b, rfl⟩
  | _ => cases h

theorem exists_int_of_sort {l : Literal} (h : l.sort = .int) : ∃ n, l = .int n := by
  cases l with
  | int n => exact ⟨n, rfl⟩
  | _ => cases h

/-- A truth value stands for `1` or `0`. -/
theorem eval_ofTruth {M : Structure U} {a : Term} {b : Bool}
    (h : M.eval [] a = (Literal.bool b).denote) :
    M.eval [] (Term.ofTruth a) = ⟨.int, (if b then 1 else 0 : ℤ)⟩ := by
  have hsat : M.Sat a ↔ b = true := by
    rw [Structure.Sat, h]
    exact Element.holds_truth _
  unfold Term.ofTruth
  cases b with
  | false => exact Structure.eval_ite_of_not_sat (by simp [hsat]) _ _
  | true => exact Structure.eval_ite_of_sat (hsat.2 rfl) _ _

/-- An integer stands for a real. -/
theorem eval_toReal {M : Structure U} {a : Term} {n : ℤ}
    (h : M.eval [] a = ⟨.int, n⟩) : M.eval [] (.op .toReal [a]) = ⟨.real, ((n : ℤ) : ℝ)⟩ := by
  rw [Structure.eval, Structure.evalList, h, Op.denote]
  have hint : (Element.nth [(⟨.int, n⟩ : Element U)] 0).toInt = n := Element.get_mk (s := .int) n
  exact congrArg (fun k : ℤ => (⟨.real, (k : ℝ)⟩ : Element U)) hint

/-- A value that is no truth value is a number. -/
theorem exists_number_of_is {v : Value} {e : Element U} (h : v.Is e) (he : e.sort ≠ .bool) :
    ∃ q, v.number? = some q ∧ e.IsNumber q := by
  cases h with
  | bool b => exact absurd rfl he
  | int h => exact ⟨_, rfl, h⟩
  | frac h => exact ⟨_, rfl, h⟩

theorem number?_of_is_int {v : Value} {n : ℤ} (h : v.Is (⟨.int, n⟩ : Element U)) :
    v.number? = some (n : ℚ) := by
  obtain ⟨q, hv, hq⟩ := exists_number_of_is h nofun
  generalize he : (⟨.int, n⟩ : Element U) = e at hq
  cases hq with
  | int m => rw [hv, Element.int_inj.1 he]
  | real q => cases congrArg Element.sort he
  | word b => cases congrArg Element.sort he

theorem number?_of_is_real {v : Value} {n : ℤ} (h : v.Is (⟨.real, ((n : ℤ) : ℝ)⟩ : Element U)) :
    v.number? = some (n : ℚ) := by
  obtain ⟨q, hv, hq⟩ := exists_number_of_is h nofun
  generalize he : (⟨.real, ((n : ℤ) : ℝ)⟩ : Element U) = e at hq
  cases hq with
  | int m => cases congrArg Element.sort he
  | real q =>
    have hget := congrArg (fun e : Element U => e.get .real) he
    have hreal : ((n : ℤ) : ℝ) = (q : ℝ) :=
      ((Element.get_mk (s := .real) _).symm.trans hget).trans (Element.get_mk (s := .real) _)
    have hq : q = (n : ℚ) := by exact_mod_cast hreal.symm
    rw [hv, hq]
  | word b => cases congrArg Element.sort he

/-- A truth value as a number is that truth value. -/
theorem toTerm_of_truth {v : Value} {b : Bool}
    (h : v.number? = some ((if b then 1 else 0 : ℤ) : ℚ)) :
    v.toTerm .bool = .ok (.lit (.bool b)) := by
  unfold toTerm
  rw [if_neg (ne_unknown_of_number h), toBool_of_number h]
  cases b <;> rfl

/-- **Casts are undone.** A value that is what the cast of a term denotes becomes the literal of
what the term denotes, at the sort of the term. -/
theorem toTerm_of_is_cast {M : Structure U} {a b : Term} {v : Value} {s : TermSort}
    (hb : Term.cast? s a = some b) (hw : a.isWellSorted [] = true) (hv : v.Is (M.eval [] b)) :
    ∃ l : Literal, v.toTerm a.sort = .ok (.lit l) ∧ l.sort = a.sort ∧ l.denote = M.eval [] a := by
  have hsort := M.sort_eval a [] hw
  -- A term that is cast to a number is a truth value or an integer.
  have hbool : a.sort = .bool → ∃ c, M.eval [] a = (Literal.bool c).denote := by
    classical
    intro ha
    refine ⟨decide (M.Sat a), ?_⟩
    rw [Literal.denote, decide_eq_true_eq]
    exact Element.eq_truth (hsort.trans ha)
  unfold Term.cast? at hb
  split at hb
  · obtain rfl := Option.some.inj hb
    have hterm := toTerm_of_is hv
    rwa [hsort] at hterm
  · split at hb
    case h_1 =>
      next hs _ =>
      obtain ⟨c, hc⟩ := hbool hs
      obtain rfl := Option.some.inj hb
      rw [eval_ofTruth hc] at hv
      exact ⟨.bool c, hs ▸ toTerm_of_truth (number?_of_is_int hv), hs.symm, hc.symm⟩
    case h_2 =>
      next hs _ =>
      obtain ⟨c, hc⟩ := hbool hs
      obtain rfl := Option.some.inj hb
      rw [eval_toReal (eval_ofTruth hc)] at hv
      exact ⟨.bool c, hs ▸ toTerm_of_truth (number?_of_is_real hv), hs.symm, hc.symm⟩
    case h_3 =>
      next hs _ =>
      obtain rfl := Option.some.inj hb
      have hint : M.eval [] a = ⟨.int, (M.eval [] a).get .int⟩ := Element.eq_get (hsort.trans hs)
      rw [eval_toReal hint] at hv
      have hnumber := number?_of_is_real hv
      obtain ⟨l, hl, hls, hld⟩ := toTerm_of_isNumber (U := U) (.int _) hnumber
      exact ⟨l, hs ▸ hl, hls.trans hs.symm, hld.trans hint.symm⟩
    case h_4 => cases hb

/-- **Values follow casts.** Let a literal denote what a term does. At a sort that the term can be
cast to, the value of the literal becomes the literal of what the cast denotes. -/
theorem toTerm_of_cast {M : Structure U} {a b : Term} {l : Literal} {v : Value} {s : TermSort}
    (hv : ofTerm (.lit l) = .ok v) (hl : M.eval [] a = l.denote)
    (hw : a.isWellSorted [] = true) (hb : Term.cast? s a = some b) :
    ∃ l' : Literal, v.toTerm s = .ok (.lit l') ∧ l'.sort = s ∧ l'.denote = M.eval [] b := by
  have hsort : l.sort = a.sort := by
    have ha := M.sort_eval a [] hw
    rw [hl] at ha
    rw [← ha]
    cases l <;> rfl
  unfold Term.cast? at hb
  split at hb
  · next hs =>
    -- Without a cast the literal is the one of the element.
    obtain rfl := Option.some.inj hb
    have hsort' := (M.sort_eval a [] hw).trans hs
    have hterm := toTerm_of_is (is_of_ofTerm (U := U) hv)
    rwa [← hl, hsort'] at hterm
  · split at hb
    case h_1 =>
      next hs _ =>
      obtain ⟨c, rfl⟩ := exists_bool_of_sort (hsort.trans hs)
      obtain rfl := Option.some.inj hb
      cases hv
      exact ⟨.int (if c then 1 else 0), rfl, rfl, (eval_ofTruth hl).symm⟩
    case h_2 =>
      next hs _ =>
      obtain ⟨c, rfl⟩ := exists_bool_of_sort (hsort.trans hs)
      obtain rfl := Option.some.inj hb
      cases hv
      refine ⟨.real ((if c then 1 else 0 : ℤ) : ℚ), rfl, rfl, ?_⟩
      rw [eval_toReal (eval_ofTruth hl)]
      cases c <;> simp [Literal.denote]
    case h_3 =>
      next hs _ =>
      obtain ⟨n, rfl⟩ := exists_int_of_sort (hsort.trans hs)
      obtain rfl := Option.some.inj hb
      cases hv
      refine ⟨.real (n : ℚ), rfl, rfl, ?_⟩
      rw [eval_toReal hl]
      simp [Literal.denote]
    case h_4 => cases hb

end Value
end Horn
