import Horn.Proofs.Yaml.Plain
import Horn.Yaml.Datum

/-!
# Values that are spelled as plain scalars

The decimal digits of an integer are a plain line, and a plain scalar with these digits denotes the
integer. A plain scalar that is a word (`isPlainWord`) denotes itself.
-/

namespace Horn

/-! ### Digits -/

namespace Text

variable {c : Char} {cs : List Char}

theorem toNat_of_isDigit (h : c.isDigit = true) : 48 ≤ c.toNat ∧ c.toNat ≤ 57 :=
  Char.isDigit_iff_toNat.1 h

theorem digit?_of_isDigit (h : c.isDigit = true) : digit? c = some (c.toNat - '0'.toNat) := by
  obtain ⟨hlow, hhigh⟩ := toNat_of_isDigit h
  have hfind : zeros.find? (fun z => decide (z ≤ c.toNat) && decide (c.toNat < z + 10)) =
      some 48 := by
    rw [zeros, List.find?_cons_of_pos]
    simp
    omega
  rw [digit?, hfind]
  rfl

theorem isBlank_of_isDigit (h : c.isDigit = true) : isBlank c = false := by
  obtain ⟨hlow, hhigh⟩ := toNat_of_isDigit h
  simp only [isBlank, Bool.or_eq_false_iff, Bool.and_eq_false_iff, decide_eq_false_iff_not,
    beq_eq_false_iff_ne]
  omega

theorem trim_of_isDigit (h : ∀ c ∈ cs, c.isDigit = true) :
    trim (String.ofList cs) = String.ofList cs := by
  have hdrop : ∀ ds : List Char, (∀ c ∈ ds, c.isDigit = true) → ds.dropWhile isBlank = ds := by
    intro ds hds
    cases ds with
    | nil => rfl
    | cons d ds =>
      rw [List.dropWhile_cons_of_neg]
      simp [isBlank_of_isDigit (hds d List.mem_cons_self)]
  rw [trim, String.toList_ofList, hdrop cs h,
    hdrop cs.reverse fun c hc => h c (List.mem_reverse.1 hc),
    List.reverse_reverse]

theorem digitsValue?_of_isDigit (h : ∀ c ∈ cs, c.isDigit = true) (acc : Nat) (pending : Bool)
    (hcs : pending = true → cs ≠ []) :
    digitsValue? pending acc cs = some (Nat.ofDigitChars 10 cs acc) := by
  induction cs generalizing acc pending with
  | nil =>
    cases pending with
    | false => rw [digitsValue?, Nat.ofDigitChars_nil]; rfl
    | true => exact absurd rfl (hcs rfl)
  | cons c cs ih =>
    rw [List.forall_mem_cons] at h
    have hunderscore : ¬(c == '_') = true := by simpa using ne_of_class h.1 (by decide)
    rw [digitsValue?, if_neg hunderscore, digit?_of_isDigit h.1, Option.bind_some,
      ih h.2 _ _ (by simp), Nat.ofDigitChars_cons, Nat.mul_comm]

theorem integer?_of_isDigit (h : ∀ c ∈ cs, c.isDigit = true) (hcs : cs ≠ []) :
    integer? (String.ofList cs) = some (Nat.ofDigitChars 10 cs 0 : Nat) := by
  rw [integer?, trim_of_isDigit h, String.toList_ofList]
  split
  · exact absurd rfl (ne_of_class (h '-' List.mem_cons_self) (by decide))
  · exact absurd rfl (ne_of_class (h '+' List.mem_cons_self) (by decide))
  · rw [digitsValue?_of_isDigit h 0 true fun _ => hcs]
    rfl

/-- Digits are read unless there are too many of them. -/
theorem shortInteger?_of_isDigit (h : ∀ c ∈ cs, c.isDigit = true) (hcs : cs ≠ [])
    (hshort : cs.length ≤ maxDigits) :
    shortInteger? (String.ofList cs) = some (Nat.ofDigitChars 10 cs 0 : Nat) := by
  unfold shortInteger?
  rw [String.toList_ofList, if_pos (List.countP_le_length.trans hshort), integer?_of_isDigit h hcs]

theorem length_of_isShort {n : Int} (h : isShort n = true) :
    (Nat.toDigits 10 n.natAbs).length ≤ maxDigits := by
  unfold isShort at h
  rw [decide_eq_true_eq, Nat.toString_eq_repr, Nat.repr, String.length_ofList] at h
  exact h

theorem isDigit_toDigits (n : Nat) : ∀ c ∈ Nat.toDigits 10 n, c.isDigit = true :=
  fun _ => Nat.isDigit_of_mem_toDigits (by decide) (by decide)

/-- Only zero starts with the digit zero. -/
theorem head?_toDigits {n : Nat} (hn : n ≠ 0) : (Nat.toDigits 10 n).head? ≠ some '0' := by
  induction n using Nat.strongRecOn with
  | ind n ih =>
    by_cases hlt : n < 10
    · have hchar : ∀ m < 10, m ≠ 0 → m.digitChar ≠ '0' := by decide
      rw [Nat.toDigits_of_lt_base hlt, List.head?_cons, ne_eq, Option.some.injEq]
      exact hchar n hlt hn
    -- The first digit is the first one of the number without its last digit.
    · rw [Nat.toDigits_of_base_le (by decide) (by omega), List.head?_append]
      have hne : Nat.toDigits 10 (n / 10) ≠ [] := Nat.toDigits_ne_nil
      have hhead := ih (n / 10) (by omega) (by omega)
      cases hdigits : Nat.toDigits 10 (n / 10) with
      | nil => exact absurd hdigits hne
      | cons d ds =>
        rw [hdigits] at hhead
        exact hhead

theorem toList_toString (n : Int) : (toString n).toList =
    if 0 ≤ n then Nat.toDigits 10 n.toNat else '-' :: Nat.toDigits 10 (-n).toNat := by
  rw [Int.toString_eq_repr, Int.repr_eq_if]
  split <;> simp

end Text

namespace Yaml

open Text

/-! ### Integers -/

/-- What is known of the digits of a number. -/
theorem exists_digits (n : Nat) : ∃ d ds, Nat.toDigits 10 n = d :: ds ∧ d.isDigit = true ∧
    (∀ c ∈ ds, c.isDigit = true) ∧ (d = '0' → ds = []) := by
  have hdigits := isDigit_toDigits n
  have hne : Nat.toDigits 10 n ≠ [] := Nat.toDigits_ne_nil
  obtain ⟨d, ds, hcons⟩ := List.exists_cons_of_ne_nil hne
  rw [hcons, List.forall_mem_cons] at hdigits
  refine ⟨d, ds, hcons, hdigits.1, hdigits.2, ?_⟩
  rintro rfl
  by_cases hzero : n = 0
  · rw [hzero] at hcons
    exact (List.cons.inj hcons).2.symm
  · exact absurd (by rw [hcons]; rfl) (head?_toDigits hzero)

theorem isLineChar_of_isDigit {c : Char} (h : c.isDigit = true) : isLineChar c = true := by
  obtain ⟨hlow, hhigh⟩ := toNat_of_isDigit h
  have hallowed : isAllowed c = true := by
    simp [isAllowed]
    omega
  simp [isLineChar, hallowed, isBreak, ne_of_class h]

theorem isWordChar_of_isDigit {c : Char} (h : c.isDigit = true) : isWordChar c = true :=
  isWordChar_of_class (by decide) (isLineChar_of_isDigit h) h

section Digits

variable {d : Char} {ds : List Char}

/-- **Digits** are a plain line, with a sign or without. -/
theorem isPlainLine_of_isDigit (hd : d.isDigit = true) (hds : ∀ c ∈ ds, c.isDigit = true) :
    isPlainLine (d :: ds) = true ∧ isPlainLine ('-' :: d :: ds) = true := by
  have hdigits : ∀ c ∈ d :: ds, isWordChar c = true := fun c hc =>
    isWordChar_of_isDigit ((List.forall_mem_cons.2 ⟨hd, hds⟩ : ∀ c ∈ d :: ds, c.isDigit = true)
      c hc)
  refine ⟨isPlainLine_of_isWordChar (List.cons_ne_nil _ _) (fun h => ?_) hdigits,
    isPlainLine_of_isWordChar (List.cons_ne_nil _ _) (by simp)
      (List.forall_mem_cons.2 ⟨by decide, hdigits⟩)⟩
  exact ne_of_class hd (by decide) (List.cons.inj h).1

/-- The sign of a number does not count. -/
theorem unsigned_of_isDigit (hd : d.isDigit = true) : Implicit.unsigned (d :: ds) = d :: ds := by
  unfold Implicit.unsigned
  split
  · next h => exact absurd (List.cons.inj h).1 (ne_of_class hd (by decide))
  · next h => exact absurd (List.cons.inj h).1 (ne_of_class hd (by decide))
  · rfl

theorem colonParts_of_isDigit (hdigits : ∀ c ∈ d :: ds, c.isDigit = true) :
    Implicit.colonParts (d :: ds) = [d :: ds] :=
  List.splitOn_eq_singleton_of_beq_eq_false fun c hc =>
    beq_eq_false_iff_ne.2 (ne_of_class (hdigits c hc) (by decide))

/-- Digits are an integer, if zero is the only one that starts with the digit zero. -/
theorem isInt_of_isDigit {cs : List Char} (hcs : Implicit.unsigned cs = d :: ds)
    (hdigits : ∀ c ∈ d :: ds, c.isDigit = true) (hzero : d = '0' → ds = []) :
    Implicit.isInt cs = true := by
  have hd := hdigits d List.mem_cons_self
  rw [Implicit.isInt, hcs]
  by_cases hd0 : d = '0'
  · rw [hd0, hzero hd0]
    rfl
  -- The first digit is not zero, and digits are among the characters that may follow.
  · have hpositive : Implicit.digitsFrom Implicit.isPositiveDigit (d :: ds) = true := by
      have hall : ∀ c ∈ ds, (c.isDigit || c == '_') = true := fun c hc => by
        rw [hdigits c (List.mem_cons_of_mem _ hc), Bool.true_or]
      simp only [Implicit.digitsFrom, Implicit.isPositiveDigit, hd, Bool.true_and, Bool.and_eq_true,
        bne_iff_ne, List.all_eq_true]
      exact ⟨hd0, hall⟩
    split
    · next h => exact absurd (List.cons.inj h).1 hd0
    · next h => exact absurd (List.cons.inj h).1 hd0
    · next h => exact absurd (List.cons.inj h).1 hd0
    · rw [colonParts_of_isDigit hdigits]
      dsimp only
      rw [hpositive]
      rfl

/-- Whether a character may start the decimal text of an integer. -/
def startsInteger (c : Char) : Bool := c.isDigit || c == '-'

/-- **The kind** of digits behind a sign, or without one. -/
theorem ofPlain_of_isDigit {cs : List Char} (hcs : Implicit.unsigned cs = d :: ds)
    (hstarts : ∀ c ∈ cs.head?, startsInteger c = true)
    (hdigits : ∀ c ∈ d :: ds, c.isDigit = true) (hzero : d = '0' → ds = []) :
    Kind.ofPlain (String.ofList cs) = .int := by
  -- No word for a truth value starts like an integer.
  have htruths : ∀ p ∈ Implicit.truths,
      p.1.toList.head?.all (fun c => !startsInteger c) = true := by
    decide
  have htruth : ¬Implicit.truths.any (·.1 == String.ofList cs) = true := by
    simp only [List.any_eq_true, beq_iff_eq, not_exists, not_and]
    intro p hp heq
    have hlist : p.1.toList = cs := by rw [heq, String.toList_ofList]
    cases cs with
    | nil => cases hcs
    | cons c cs =>
      have hc := htruths p hp
      rw [hlist, List.head?_cons, Option.all_some, hstarts c rfl] at hc
      cases hc
  -- A floating-point number has a point.
  have hfloat : ¬Implicit.isFloat cs = true := by
    have hpoint : (d :: ds).contains '.' = false := by
      rw [← Bool.not_eq_true, List.contains_iff_mem]
      exact fun h => ne_of_class (hdigits '.' h) (by decide) rfl
    rw [Implicit.isFloat, hcs, hpoint, Bool.not_false, if_pos rfl]
    exact Bool.false_ne_true
  rw [Kind.ofPlain, if_neg htruth, String.toList_ofList, if_neg hfloat,
    if_pos (isInt_of_isDigit hcs hdigits hzero)]

/-- **The value** of digits behind a sign, or without one. -/
theorem intOf_of_isDigit {cs : List Char} (hcs : Implicit.unsigned cs = d :: ds)
    (hall : ∀ c ∈ cs, startsInteger c = true) (hdigits : ∀ c ∈ d :: ds, c.isDigit = true)
    (hzero : d = '0' → ds = []) (hshort : (d :: ds).length ≤ maxDigits) :
    Datum.intOf (String.ofList cs) =
      .ok ((if cs.head? == some '-' then -1 else 1) * (Nat.ofDigitChars 10 (d :: ds) 0 : Nat)) := by
  -- Digits and signs are no underscores, so none is dropped.
  have hfilter : cs.filter (· != '_') = cs := by
    rw [List.filter_eq_self]
    intro c hc
    rw [bne_iff_ne]
    rintro rfl
    cases hall _ hc
  have hne : cs ≠ [] := by
    rintro rfl
    cases hcs
  rw [Datum.intOf, String.toList_ofList, hfilter]
  dsimp only
  rw [if_neg (by simpa using hne), hcs]
  by_cases hd0 : d = '0'
  · rw [hd0, hzero hd0]
    rfl
  -- Without colons there is one part, and no sixties to count.
  · have hvalue : (Implicit.colonParts (d :: ds)).mapM Datum.decimal? =
        .ok [(Nat.ofDigitChars 10 (d :: ds) 0 : Int)] := by
      rw [colonParts_of_isDigit hdigits, List.mapM_cons, Datum.decimal?,
        shortInteger?_of_isDigit hdigits (List.cons_ne_nil _ _) hshort]
      rfl
    split
    · next h => exact absurd (List.cons.inj h).1 hd0
    · next h => exact absurd (List.cons.inj h).1 hd0
    · next h => exact absurd (List.cons.inj h).1 hd0
    · next h => exact absurd (List.cons.inj h).1 hd0
    · next h => cases h
    · rw [hvalue]
      simp [Datum.sixties]

end Digits

/-- **An integer** is written as a plain line, which is read as this integer if it is not too
long. -/
theorem ofScalar_toString (n : Int) : isPlainLine (toString n).toList = true ∧
    (isShort n = true →
      Datum.ofScalar (toString n) (Kind.ofPlain (toString n)) = .ok (.int n)) := by
  have htext : toString n = String.ofList (toString n).toList := String.ofList_toList.symm
  rw [htext, String.toList_ofList, toList_toString]
  -- A number below zero has a sign in front of the digits of its opposite.
  by_cases hn : 0 ≤ n
  · obtain ⟨d, ds, hcons, hd, hds, hzero⟩ := exists_digits n.toNat
    have hdigits : ∀ c ∈ d :: ds, c.isDigit = true := List.forall_mem_cons.2 ⟨hd, hds⟩
    have hstarts : ∀ c ∈ d :: ds, startsInteger c = true := fun c hc => by
      rw [startsInteger, hdigits c hc, Bool.true_or]
    have hvalue : Nat.ofDigitChars 10 (d :: ds) 0 = n.toNat := by
      rw [← hcons, Nat.ofDigitChars_ten_toDigits]
    have hsign : ¬(List.head? (d :: ds) == some '-') = true := by
      simpa using ne_of_class hd (by decide)
    rw [if_pos hn, hcons]
    refine ⟨(isPlainLine_of_isDigit hd hds).1, fun hshort => ?_⟩
    have hlength := length_of_isShort hshort
    rw [show n.natAbs = n.toNat by omega, hcons] at hlength
    rw [ofPlain_of_isDigit (unsigned_of_isDigit hd) (by simpa using hstarts d List.mem_cons_self)
      hdigits hzero, Datum.ofScalar, intOf_of_isDigit (unsigned_of_isDigit hd)
        hstarts hdigits hzero hlength,
      if_neg hsign, hvalue, Int.one_mul, Int.toNat_of_nonneg hn]
    rfl
  · obtain ⟨d, ds, hcons, hd, hds, hzero⟩ := exists_digits (-n).toNat
    have hdigits : ∀ c ∈ d :: ds, c.isDigit = true := List.forall_mem_cons.2 ⟨hd, hds⟩
    have hstarts : ∀ c ∈ '-' :: d :: ds, startsInteger c = true :=
      List.forall_mem_cons.2 ⟨rfl, fun c hc => by rw [startsInteger, hdigits c hc, Bool.true_or]⟩
    have hvalue : Nat.ofDigitChars 10 (d :: ds) 0 = (-n).toNat := by
      rw [← hcons, Nat.ofDigitChars_ten_toDigits]
    rw [if_neg hn, hcons]
    refine ⟨(isPlainLine_of_isDigit hd hds).2, fun hshort => ?_⟩
    have hlength := length_of_isShort hshort
    rw [show n.natAbs = (-n).toNat by omega, hcons] at hlength
    rw [ofPlain_of_isDigit rfl (by simp [startsInteger]) hdigits hzero, Datum.ofScalar,
      intOf_of_isDigit rfl hstarts hdigits hzero hlength, hvalue, if_pos (by simp),
      Int.toNat_of_nonneg (by omega), Int.neg_one_mul, Int.neg_neg]
    rfl

/-! ### Words -/

/-- The words that denote something else than themselves. -/
def reserved : List String := "<<" :: "=" :: Implicit.nulls ++ Implicit.truths.map (·.1)

/-- Whether a text is a plain line that consists of words: its first character is no digit and no
sign, it has neither points nor colons, and it is not reserved. -/
def isPlainWord (s : String) : Bool :=
  isPlainLine s.toList && s.toList.head?.all (fun c => !c.isDigit && c != '+' && c != '-') &&
    s.toList.all (fun c => c != '.' && c != ':') && !reserved.contains s

theorem isPlainWord_iff {s : String} : isPlainWord s = true ↔ ((isPlainLine s.toList = true ∧
    ∀ c ∈ s.toList.head?, c.isDigit = false ∧ c ≠ '+' ∧ c ≠ '-') ∧
      ∀ c ∈ s.toList, c ≠ '.' ∧ c ≠ ':') ∧ s ∉ reserved := by
  simp [isPlainWord, Option.all_eq_true, and_assoc]

theorem isPlainLine_of_isPlainWord {s : String} (h : isPlainWord s = true) :
    isPlainLine s.toList = true :=
  (isPlainWord_iff.1 h).1.1.1

/-- **A word** is a text. -/
theorem ofPlain_of_isPlainWord {s : String} (h : isPlainWord s = true) :
    Kind.ofPlain s = .text := by
  obtain ⟨⟨⟨hline, hhead⟩, hall⟩, hwords⟩ := isPlainWord_iff.1 h
  obtain ⟨c, cs, hcons, -⟩ := startsPlain_cons (isPlainLine_iff.1 hline).1
  rw [hcons] at hhead hall
  obtain ⟨hdigit, hsign⟩ := hhead c rfl
  have hpoint : '.' ∉ c :: cs := fun hmem => (hall _ hmem).1 rfl
  obtain rfl : s = String.ofList (c :: cs) := by rw [← hcons, String.ofList_toList]
  simp only [reserved, List.cons_append, List.mem_cons, List.mem_append, List.mem_map, not_or,
    not_exists, not_and] at hwords
  obtain ⟨hmerge, hvalue, hnull, htruth⟩ := hwords
  -- It is neither a number, nor a moment, nor one of the words; the text is what is left.
  have hunsigned : Implicit.unsigned (c :: cs) = c :: cs := by
    unfold Implicit.unsigned
    split
    · next h => exact absurd (List.cons.inj h).1 hsign.1
    · next h => exact absurd (List.cons.inj h).1 hsign.2
    · rfl
  have hne : c ≠ '0' := by
    rintro rfl
    cases hdigit
  have hint : ¬Implicit.isInt (c :: cs) = true := by
    rw [Implicit.isInt, hunsigned]
    split
    · next h => exact absurd (List.cons.inj h).1 hne
    · next h => exact absurd (List.cons.inj h).1 hne
    · next h => exact absurd (List.cons.inj h).1 hne
    · have hparts : Implicit.colonParts (c :: cs) = [c :: cs] :=
        List.splitOn_eq_singleton_of_beq_eq_false fun x hx =>
          beq_eq_false_iff_ne.2 fun h => (hall x hx).2 h
      rw [hparts]
      simp [Implicit.digitsFrom, Implicit.isPositiveDigit, hdigit]
  have hfloat : ¬Implicit.isFloat (c :: cs) = true := by
    have hcontains : (c :: cs).contains '.' = false := by
      rw [← Bool.not_eq_true, List.contains_iff_mem]
      exact hpoint
    rw [Implicit.isFloat, hunsigned, hcontains, Bool.not_false, if_pos rfl]
    exact Bool.false_ne_true
  have hmoment : Moment.ofText? false (String.ofList (c :: cs)) = none := by
    rw [Moment.ofText?, String.toList_ofList, Moment.digits?, List.take_succ_cons,
      List.takeWhile_cons_of_neg (by simp [hdigit])]
    rfl
  rw [Kind.ofPlain, if_neg, String.toList_ofList, if_neg hfloat, if_neg hint, if_neg, if_neg,
    hmoment,
    if_neg (by decide), if_neg]
  · simpa using hvalue
  · simpa using hnull
  · simpa using hmerge
  · rw [List.any_eq_true]
    rintro ⟨p, hp, heq⟩
    exact htruth p hp (beq_iff_eq.1 heq)

/-! ### Words with a number of characters -/

/-- A part of a word, with some characters at least. -/
structure IsPart (n : Nat) (s : String) : Prop where
  length : n ≤ s.toList.length
  all : ∀ c ∈ s.toList, isWordChar c = true

namespace IsPart

variable {m n : Nat} {s t : String} {p : Prop}

theorem append (hs : IsPart m s) (ht : IsPart n t) : IsPart (m + n) (s ++ t) := by
  constructor
  · rw [String.toList_append, List.length_append]
    exact Nat.add_le_add hs.length ht.length
  · rw [String.toList_append]
    exact List.forall_mem_append.2 ⟨hs.all, ht.all⟩

theorem ite [Decidable p] (hs : IsPart n s) (ht : IsPart n t) : IsPart n (if p then s else t) := by
  split
  · exact hs
  · exact ht

theorem of_all (h : (decide (n ≤ s.toList.length) && s.toList.all isWordChar) = true) :
    IsPart n s := by
  rw [Bool.and_eq_true, decide_eq_true_eq, List.all_eq_true] at h
  exact ⟨h.1, h.2⟩

theorem digits {ds : List Char} (hds : ∀ c ∈ ds, c.isDigit = true) (hn : n ≤ ds.length) :
    IsPart n (String.ofList ds) := by
  constructor
  · rw [String.toList_ofList]
    exact hn
  · rw [String.toList_ofList]
    exact fun c hc => isWordChar_of_isDigit (hds c hc)

theorem toString (k : Nat) : IsPart 1 (toString k) := by
  have hdigits : (ToString.toString k) = String.ofList (Nat.toDigits 10 k) := by
    rw [← String.ofList_toList (s := ToString.toString k)]
    simp
  rw [hdigits]
  exact digits (isDigit_toDigits k) (List.length_pos_of_ne_nil Nat.toDigits_ne_nil)

theorem mono (h : IsPart n s) (hm : m ≤ n) : IsPart m s := ⟨le_trans hm h.length, h.all⟩

theorem continuesPlain (h : IsPart n s) : continuesPlain s.toList = true :=
  continuesPlain_of_word fun c hc => ⟨isLineChar_of_isWordChar (h.all c hc),
    ne_of_class (h.all c hc) (by decide), ne_of_class (h.all c hc) (by decide)⟩

/-- With two characters it is a plain line. -/
theorem isPlainLine (h : IsPart 2 s) : isPlainLine s.toList = true := by
  have hlength := h.length
  refine isPlainLine_of_isWordChar ?_ ?_ h.all
  · intro hnil
    rw [hnil] at hlength
    simp at hlength
  · intro hdash
    rw [hdash] at hlength
    simp at hlength

end IsPart

/-! ### Numbers with a point -/

open Decimal

/-- What is written for digits is a word with more than one character. -/
theorem isPart_layout {ds : List Char} (hds : ∀ c ∈ ds, c.isDigit = true) (point : Int) :
    IsPart 2 (Shortest.layout ds point) := by
  have hzeros : ∀ n, ∀ c ∈ Shortest.zeros n, c.isDigit = true := fun n c hc => by
    rw [List.eq_of_mem_replicate hc]
    rfl
  have htake : ∀ n, ∀ c ∈ ds.take n, c.isDigit = true := fun n c hc =>
    hds c (List.mem_of_mem_take hc)
  have hdrop : ∀ n, ∀ c ∈ ds.drop n, c.isDigit = true := fun n c hc =>
    hds c (List.mem_of_mem_drop hc)
  have hempty : IsPart 0 "" := .of_all (by decide)
  have hpoint : IsPart 1 "." := .of_all (by decide)
  have hexponent : ∀ e, IsPart 2 (Shortest.exponentText e) := fun e =>
    ((IsPart.ite (.of_all (by decide)) (.of_all (by decide))).append
      (IsPart.ite (.of_all (by decide)) hempty)).append
      (IsPart.toString e.natAbs)
  unfold Shortest.layout
  split
  · exact ((IsPart.digits (n := 0) (htake 1) (Nat.zero_le _)).append (n := 0)
      (IsPart.ite hempty ((hpoint.append (n := 0)
        (IsPart.digits (hdrop 1) (Nat.zero_le _))).mono (Nat.zero_le 1)))).append (hexponent _)
  · split
    · exact IsPart.append (m := 2) (n := 0) (.of_all (by decide))
        (IsPart.digits (List.forall_mem_append.2 ⟨hzeros _, hds⟩) (Nat.zero_le _))
    · split
      · exact IsPart.append (m := 0) (n := 2)
          (IsPart.digits (List.forall_mem_append.2 ⟨hds, hzeros _⟩) (Nat.zero_le _))
          (.of_all (by decide))
      · -- The point stands between digits.
        refine ((IsPart.digits (n := 1) (htake _) ?_).append hpoint).append (n := 0)
          (IsPart.digits (hdrop _) (Nat.zero_le _))
        rw [List.length_take]
        omega

/-- **Floating-point numbers** are written as plain lines. -/
theorem isPlainLine_double (x : Double) : isPlainLine x.text.toList = true := by
  cases x with
  | finite negative m e =>
    have hsign : IsPart 0 (if negative then "-" else "") :=
      IsPart.ite (.of_all (by decide)) (.of_all (by decide))
    -- Digits are what is left of the digits of a number without zeros at its end.
    have hdigits : ∀ c ∈ (Shortest.digits m e).1, c.isDigit = true := by
      intro c hc
      have hmem := (List.dropWhile_sublist _).subset (List.mem_reverse.1 hc)
      exact isDigit_toDigits _ c (List.mem_reverse.1 hmem)
    rw [Double.text]
    dsimp only
    refine (hsign.append (isPart_layout ?_ _)).isPlainLine
    split
    · exact List.forall_mem_singleton.2 rfl
    · exact hdigits
  | infinite negative => cases negative <;> decide
  | nan => decide

/-! ### Moments -/

/-- A number with zeros in front is a word. -/
theorem isPart_padded (width n : Nat) : IsPart 1 (Moment.padded width n) := by
  refine (IsPart.digits (n := 0) (fun c hc => ?_) (Nat.zero_le _)).append (IsPart.toString n)
  rw [List.eq_of_mem_replicate hc]
  rfl

/-- Behind a colon or a blank the line goes on with a word. -/
theorem continuesPlain_behind {x : Char} {cs : List Char} (hx : x = ':' ∨ x = ' ')
    (hcs : ∃ y ys, cs = y :: ys ∧ isWordChar y = true) (h : continuesPlain cs = true) :
    continuesPlain (x :: cs) = true := by
  obtain ⟨y, ys, rfl, hy⟩ := hcs
  refine continuesPlain_cons.2 ⟨⟨?_, fun _ => ne_of_class hy (by decide),
    fun _ => ne_of_class hy (by decide)⟩, h⟩
  rcases hx with rfl | rfl <;> decide

theorem IsPart.exists_cons {s : String} (h : IsPart 1 s) (more : List Char) :
    ∃ y ys, s.toList ++ more = y :: ys ∧ isWordChar y = true := by
  obtain ⟨y, ys, hcons⟩ := List.exists_cons_of_ne_nil (List.ne_nil_of_length_pos h.length)
  exact ⟨y, ys ++ more, by rw [hcons]; rfl, h.all y (by rw [hcons]; exact List.mem_cons_self)⟩

theorem continuesPlain_colon {s t : String} (hs : continuesPlain s.toList = true)
    (ht : IsPart 1 t) :
    continuesPlain (s ++ ":" ++ t).toList = true := by
  have hlist : (s ++ ":" ++ t).toList = s.toList ++ ':' :: t.toList := by simp
  rw [hlist]
  refine continuesPlain_append hs (continuesPlain_behind (.inl rfl) ?_ ht.continuesPlain)
  simpa using ht.exists_cons []

theorem continuesPlain_zoneText (z : Int) : continuesPlain (Moment.zoneText z).toList = true := by
  have hsign : IsPart 0 (if z < 0 then "-" else "+") :=
    IsPart.ite (.of_all (by decide)) (.of_all (by decide))
  exact continuesPlain_colon (hsign.append (isPart_padded _ _)).continuesPlain (isPart_padded _ _)

theorem continuesPlain_timeText (t : DayTime) :
    continuesPlain (Moment.timeText t).toList = true := by
  have hclock := continuesPlain_colon (continuesPlain_colon (isPart_padded 2 t.hour).continuesPlain
    (isPart_padded 2 t.minute)) (isPart_padded 2 t.second)
  have hfraction : IsPart 0 (if t.microsecond = 0 then "" else
      "." ++ Moment.padded 6 t.microsecond) :=
    IsPart.ite (.of_all (by decide)) (IsPart.append (m := 0) (n := 0)
      (.of_all (by decide)) ((isPart_padded 6 t.microsecond).mono (Nat.zero_le 1)))
  have hzone : continuesPlain ((t.zone.map Moment.zoneText).getD "").toList = true := by
    cases t.zone with
    | none => rfl
    | some z => exact continuesPlain_zoneText z
  rw [Moment.timeText, String.toList_append, String.toList_append]
  exact continuesPlain_append (continuesPlain_append hclock hfraction.continuesPlain) hzone

/-- **Moments** are written as plain lines. -/
theorem isPlainLine_moment (m : Moment) : isPlainLine m.text.toList = true := by
  have hdash : IsPart 0 "-" := .of_all (by decide)
  have hyear := isPart_padded 4 m.year
  have hdate := (((hyear.append hdash).append (isPart_padded 2 m.month)).append hdash).append
    (isPart_padded 2 m.day)
  -- The time stands behind a blank, and starts with the digits of the hour.
  have htime :
      continuesPlain ((m.time.map fun t => " " ++ Moment.timeText t).getD "").toList = true := by
    cases m.time with
    | none => rfl
    | some t =>
      obtain ⟨more, hmore⟩ : ∃ more, Moment.timeText t = Moment.padded 2 t.hour ++ more :=
        ⟨_, by rw [Moment.timeText]; simp only [String.append_assoc]; rfl⟩
      have hlist : (" " ++ Moment.timeText t).toList = ' ' :: (Moment.timeText t).toList := by simp
      change continuesPlain (" " ++ Moment.timeText t).toList = true
      rw [hlist]
      refine continuesPlain_behind (.inr rfl) ?_ (continuesPlain_timeText t)
      rw [hmore, String.toList_append]
      exact (isPart_padded 2 t.hour).exists_cons _
  rw [Moment.text, String.toList_append]
  exact isPlainLine_iff.2 ⟨startsPlain_append (isPlainLine_iff.1
    (hdate.mono (by decide)).isPlainLine).1, continuesPlain_append hdate.continuesPlain htime⟩

/-! ### Values without parts -/

/-- **The text of a value** without parts is a plain line, unless the value is a text itself or is
foreign. -/
theorem isPlainLine_toText {d : Datum} (hd : d.isCollection = false) (htext : ∀ s, d ≠ .text s)
    (hforeign : ∀ v, d ≠ .foreign v) : isPlainLine d.toText.toList = true := by
  cases d with
  | null => decide
  | bool b => cases b <;> decide
  | int n =>
    have htoText : (Datum.int n).toText = toString n := by simp [Datum.toText, Datum.quoted]
    rw [htoText]
    exact (ofScalar_toString n).1
  | float x =>
    have htoText : (Datum.float x).toText = x.text := by simp [Datum.toText, Datum.quoted]
    rw [htoText]
    exact isPlainLine_double x
  | moment m => exact isPlainLine_moment m
  | text s => exact absurd rfl (htext s)
  | foreign v => exact absurd rfl (hforeign v)
  | list items => cases hd
  | map entries => cases hd

end Yaml

end Horn
