import Horn.Proofs.Sample.Value

/-!
# Values and constants

Going from literals to values and back again loses nothing. The value of a literal belongs to the
sort of the literal (`Value.BelongsTo`) and becomes that literal again (`Value.toTerm_ofTerm`); only
an irrational number has no value. A value that belongs to a sort becomes a literal whose value has
the same key (`Value.ofTerm_toTerm`), hence is equal to it in a sample.

At a sort of words every integer becomes a literal, whose value is the residue of the integer
(`Value.ofTerm_bitVec`).
-/

namespace Horn
namespace Value

/-- The value is one of the sort. For numbers this is a matter of size: a rational that is an
integer counts as that integer, as it does in samples. -/
def BelongsTo (v : Value) : TermSort → Prop
  | .bool => ∃ b, v = .bool b
  | .int => ∃ n : ℤ, v.number? = some (n : ℚ)
  | .real => ∃ q : ℚ, v.number? = some q
  | .bitVec w => ∃ n : ℕ, v.number? = some (n : ℚ) ∧ n < 2 ^ w
  | _ => False

/-- The value of a word is the residue of any integer that it is made from. -/
theorem ofTerm_bitVec (w : ℕ) (n : ℤ) : ofTerm (Term.bitVec w n) = .ok (.int (n % 2 ^ w)) := by
  have hpos : (0 : ℤ) < ((2 ^ w : ℕ) : ℤ) := by exact_mod_cast Nat.two_pow_pos w
  have hnat : ((BitVec.ofInt w n).toNat : ℤ) = n % 2 ^ w := by
    calc ((BitVec.ofInt w n).toNat : ℤ)
        = ((n % ((2 ^ w : ℕ) : ℤ)).toNat : ℤ) := by rw [BitVec.toNat_ofInt]
      _ = n % ((2 ^ w : ℕ) : ℤ) := Int.toNat_of_nonneg (Int.emod_nonneg n hpos.ne')
      _ = n % 2 ^ w := by rw [Nat.cast_pow, Nat.cast_ofNat]
  rw [Term.bitVec, ofTerm, hnat]

/-- **From a literal to its value and back.** -/
theorem toTerm_ofTerm {l : Literal} (h : ∀ negative q, l ≠ .root negative q) :
    ∃ v, ofTerm (.lit l) = .ok v ∧ v.BelongsTo l.sort ∧ v.toTerm l.sort = .ok (.lit l) := by
  cases l with
  | bool b => exact ⟨.bool b, rfl, ⟨b, rfl⟩, rfl⟩
  | int n => exact ⟨.int n, rfl, ⟨n, rfl⟩, rfl⟩
  | real q => exact ⟨.frac q, rfl, ⟨q, rfl⟩, rfl⟩
  | bitVec w b =>
    have hnumber : (Value.int b.toNat).number? = some (b.toNat : ℚ) := by simp [number?]
    refine ⟨.int b.toNat, rfl, ⟨b.toNat, hnumber, b.isLt⟩, ?_⟩
    rw [Literal.sort, toTerm_bitVec rfl, Term.bitVec]
    simp
  | root negative q => exact absurd rfl (h negative q)

/-- **From a value to its literal and back.** -/
theorem ofTerm_toTerm {v : Value} {s : TermSort} (h : v.BelongsTo s) :
    ∃ l u, v.toTerm s = .ok (.lit l) ∧ l.sort = s ∧ ofTerm (.lit l) = .ok u ∧ u.key = v.key := by
  cases s with
  | bool =>
    obtain ⟨b, rfl⟩ := h
    exact ⟨.bool b, .bool b, rfl, rfl, rfl, rfl⟩
  | int =>
    obtain ⟨n, hn⟩ := h
    exact ⟨.int n, .int n, toTerm_int hn, rfl, rfl, (key_of_number hn).symm⟩
  | real =>
    obtain ⟨q, hq⟩ := h
    exact ⟨.real q, .frac q, toTerm_real hq, rfl, rfl, (key_of_number hq).symm⟩
  | bitVec w =>
    obtain ⟨n, hn, hlt⟩ := h
    -- In this range a number is its own residue.
    have hsmall : (n : ℤ) % 2 ^ w = n :=
      Int.emod_eq_of_lt (Int.natCast_nonneg n) (by exact_mod_cast hlt)
    have hvalue := ofTerm_bitVec w n
    rw [hsmall] at hvalue
    refine ⟨.bitVec w (BitVec.ofInt w n), .int n, toTerm_bitVec (n := n) hn w, rfl, hvalue, ?_⟩
    rw [key_of_number hn]
    rfl
  | array _ _ => exact h.elim
  | free _ => exact h.elim

/-- Different values of a sort become different literals. -/
theorem key_eq_of_toTerm_eq {v w : Value} {s : TermSort} (hv : v.BelongsTo s) (hw : w.BelongsTo s)
    (h : v.toTerm s = w.toTerm s) : v.key = w.key := by
  obtain ⟨l, u, hl, -, hu, hkey⟩ := ofTerm_toTerm hv
  obtain ⟨l', u', hl', -, hu', hkey'⟩ := ofTerm_toTerm hw
  rw [hl, hl'] at h
  obtain rfl := Term.lit.inj (Except.ok.inj h)
  obtain rfl := Except.ok.inj (hu.symm.trans hu')
  exact hkey.symm.trans hkey'

/-- **Values and constants correspond.** Every literal but an irrational number has a value, which
belongs to its sort and becomes the literal again; an irrational number is refused. A value that
belongs to a sort becomes a literal of the sort that has an equal value, so that different values
become different literals. An integer becomes a word that has its residue as value. -/
theorem constants_correspond :
    (∀ l : Literal, (∀ negative q, l ≠ .root negative q) →
      ∃ v, ofTerm (.lit l) = .ok v ∧ v.BelongsTo l.sort ∧ v.toTerm l.sort = .ok (.lit l)) ∧
    (∀ negative q, ofTerm (.lit (.root negative q)) =
      .error (.noSampleValue (.lit (.root negative q)))) ∧
    (∀ (v : Value) (s : TermSort), v.BelongsTo s →
      ∃ l u, v.toTerm s = .ok (.lit l) ∧ l.sort = s ∧ ofTerm (.lit l) = .ok u ∧ u.key = v.key) ∧
    (∀ (v w : Value) (s : TermSort), v.BelongsTo s → w.BelongsTo s → v.key ≠ w.key →
      v.toTerm s ≠ w.toTerm s) ∧
    ∀ (w : ℕ) (n : ℤ), ∃ l, (int n).toTerm (.bitVec w) = .ok (.lit l) ∧
      ofTerm (.lit l) = .ok (.int (n % 2 ^ w)) := by
  refine ⟨fun l => toTerm_ofTerm, fun negative q => rfl, fun v s => ofTerm_toTerm, ?_, ?_⟩
  · exact fun v w s hv hw hne h => hne (key_eq_of_toTerm_eq hv hw h)
  · exact fun w n => ⟨.bitVec w (BitVec.ofInt w n), toTerm_bitVec rfl w, ofTerm_bitVec w n⟩

/-- `-7/3` comes back as it was, `2/1` as a word of three bits comes back as a number of the same
size, and it is not the word of `-5`, which comes back as `3`. -/
theorem constants_correspond_small :
    (∃ v, ofTerm (Term.real (-7 / 3)) = .ok v ∧ v.toTerm .real = .ok (Term.real (-7 / 3))) ∧
    (∃ l u, (frac 2).toTerm (.bitVec 3) = .ok (.lit l) ∧ ofTerm (.lit l) = .ok u ∧ u.key = ⟨2, 2⟩) ∧
    (frac 2).toTerm (.bitVec 3) ≠ (int 3).toTerm (.bitVec 3) ∧
    ∃ l, (int (-5)).toTerm (.bitVec 3) = .ok (.lit l) ∧ ofTerm (.lit l) = .ok (.int 3) := by
  obtain ⟨hliteral, -, hvalue, hdifferent, hword⟩ := constants_correspond
  have htwo : (frac 2).BelongsTo (.bitVec 3) := ⟨2, rfl, by decide⟩
  have hthree : (int 3).BelongsTo (.bitVec 3) := ⟨3, rfl, by decide⟩
  obtain ⟨v, hv, -, hback⟩ := hliteral (.real (-7 / 3)) fun negative q h => by cases h
  obtain ⟨l, u, hl, -, hu, hkey⟩ := hvalue (frac 2) (.bitVec 3) htwo
  exact ⟨⟨v, hv, hback⟩, ⟨l, u, hl, hu, hkey⟩, hdifferent _ _ _ htwo hthree (by decide),
    hword 3 (-5)⟩

/-- `√2` has no value to come back from. -/
theorem not_ofTerm_root_two : (Literal.root false 2).sort = .real ∧
    ¬∃ v, ofTerm (.lit (.root false 2)) = .ok v ∧
      v.toTerm .real = .ok (.lit (.root false 2)) := by
  refine ⟨rfl, ?_⟩
  rintro ⟨v, hv, -⟩
  cases hv

end Value
end Horn
