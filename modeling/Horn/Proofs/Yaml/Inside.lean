import Horn.Proofs.Yaml.Ahead

/-!
# A text inside of a document

A document whose end is known: behind a text of any kind there are an empty line and lines of
ordinary words (`IsWords`). Wherever the scanner is in it, at the start of these lines it is in
column zero (`Inside`).

So a plain scalar that has to be indented does not go on there. If it starts in the text, then it
is a plain line or it is shorter than the text, since the blanks in front of a further line are
dropped; and if it starts behind the text, then it is a word (`Inside.plain`).
-/

namespace Horn
namespace Yaml

open Cursor (Ahead Reads)

variable {t b : List Char} {c c' : Cursor}

/-! ### Positions -/

/-- A position in a document that consists of a text `t`, an empty line and more lines `b`. -/
structure Inside (t b : List Char) (c : Cursor) : Prop where
  suffix : c.rest <:+ t ++ '\n' :: '\n' :: b
  column : c.rest = b → c.column = 0

/-- A suffix of two texts is one of the second text, or it starts in the first one. -/
theorem suffix_append_cases {r xs ys : List Char} (h : r <:+ xs ++ ys) :
    r <:+ ys ∨ ∃ zs, zs ≠ [] ∧ zs <:+ xs ∧ r = zs ++ ys := by
  obtain ⟨w, hw⟩ := h
  rcases List.append_eq_append_iff.1 hw with ⟨zs, rfl, rfl⟩ | ⟨zs, rfl, rfl⟩
  · cases zs with
    | nil => exact .inl List.suffix_rfl
    | cons z zs => exact .inr ⟨z :: zs, List.cons_ne_nil z zs, List.suffix_append _ _, rfl⟩
  · exact .inl (List.suffix_append _ _)

theorem Inside.next (h : Inside t b c) : Inside t b c.next := by
  cases hrest : c.rest with
  | nil =>
    have hnext : c.next = c := by unfold Cursor.next; rw [hrest]
    rw [hnext]
    exact h
  | cons x xs =>
    have htail : c.next.rest = xs := by rw [Cursor.rest_next, hrest]; rfl
    have hsuffix := h.suffix
    rw [hrest] at hsuffix
    refine ⟨htail ▸ (List.suffix_cons x xs).trans hsuffix, fun hb => ?_⟩
    -- In front of `b` there is a line end.
    rw [htail] at hb
    subst hb
    have hline : x :: xs <:+ '\n' :: xs := by
      refine List.suffix_of_suffix_length_le hsuffix ?_ le_rfl
      exact (List.suffix_cons _ _).trans (List.suffix_append _ _)
    obtain rfl : x = '\n' := (List.cons.inj (hline.eq_of_length rfl)).1
    unfold Cursor.next
    rw [hrest]
    rfl

theorem Inside.ahead (h : Inside t b c) (hahead : c.Ahead c') : Inside t b c' := by
  obtain ⟨n, rfl⟩ := hahead
  induction n generalizing c with
  | zero => exact h
  | succ n ih => exact ih h.next

/-- A sign that does not occur at the end of the document stands in the text. -/
theorem Inside.front {k : Char} {r : List Char} (h : Inside t b c) (hrest : c.rest = k :: r)
    (hk : k ≠ '\n') (hb : k ∉ b) : ∃ u, r = u ++ '\n' :: '\n' :: b ∧ k :: u <:+ t := by
  have hsuffix := h.suffix
  rw [hrest] at hsuffix
  rcases suffix_append_cases hsuffix with hsuffix | ⟨zs, hne, hzs, heq⟩
  · have hmem := hsuffix.subset List.mem_cons_self
    simp [hk, hb] at hmem
  · obtain ⟨z, zs, rfl⟩ := List.exists_cons_of_ne_nil hne
    obtain ⟨rfl, rfl⟩ := List.cons.inj heq
    exact ⟨zs, rfl, hzs⟩

/-! ### Gaps -/

/-- The blanks and line ends that have been passed on the way to a position. -/
structure Passes (c : Cursor) (d : List Char) (c' : Cursor) : Prop where
  rest : c.rest = d ++ c'.rest
  blank : ∀ x ∈ d, x = ' ' ∨ isBreak x = true

theorem Passes.refl (c : Cursor) : Passes c [] c := ⟨rfl, List.forall_mem_nil _⟩

theorem Passes.trans {c'' : Cursor} {d d' : List Char} (h : Passes c d c') (h' : Passes c' d' c'') :
    Passes c (d ++ d') c'' :=
  ⟨by rw [h.rest, h'.rest, List.append_assoc], List.forall_mem_append.2 ⟨h.blank, h'.blank⟩⟩

theorem passes_next {x : Char} (h : c.peek = x) (hx : x = ' ' ∨ isBreak x = true) :
    Passes c [x] c.next := by
  have hnull : x ≠ '\x00' := by
    rintro rfl
    revert hx
    decide
  obtain ⟨xs, hrest, hnext⟩ := Cursor.exists_rest_of_peek h hnull
  exact ⟨by rw [hrest, hnext]; rfl, List.forall_mem_singleton.2 hx⟩

/-- Behind a line end the column is zero. -/
theorem passes_lineBreak (h : isBreak c.peek = true) :
    Passes c [c.peek] c.lineBreak.2 ∧ c.lineBreak.1.length = 1 ∧ c.lineBreak.2.column = 0 := by
  have hpass := passes_next rfl (.inr h)
  obtain ⟨xs, hrest, -⟩ : ∃ xs, c.rest = c.peek :: xs ∧ c.next.rest = xs :=
    Cursor.exists_rest_of_peek rfl (by rintro hnull; rw [hnull] at h; cases h)
  have hcolumn : c.next.column = 0 := by
    unfold Cursor.next
    rw [hrest]
    dsimp only
    rw [if_pos h]
  unfold Cursor.lineBreak
  rw [if_pos h]
  exact ⟨hpass, rfl, hcolumn⟩

/-- Blanks at the start of a line are dropped from a gap. -/
theorem gapBreaks_passes (breaks : List Char) (fuel : Nat) : ∃ d,
    Passes c d (gapBreaks c breaks fuel).2.2 ∧ ((gapBreaks c breaks fuel).2.1 = false →
      (gapBreaks c breaks fuel).1.length + (gapBreaks c breaks fuel).2.2.column ≤
        breaks.length + d.length + c.column) := by
  fun_induction gapBreaks c breaks fuel with
  | case1 => exact ⟨[], Passes.refl _, fun _ => by simp⟩
  -- A blank that is passed moves the column by one, and adds nothing to the gap.
  | case2 c breaks fuel h ih =>
    obtain ⟨d, hpass, hlength⟩ := ih
    have hblank := passes_next (beq_iff_eq.1 h) (.inl rfl)
    have hcolumn : c.next.column = c.column + 1 := by
      obtain ⟨xs, hrest, -⟩ := Cursor.exists_rest_of_peek (beq_iff_eq.1 h) (by decide)
      rw [Cursor.next_of_rest hrest (by decide) (by decide)]
    refine ⟨_, hblank.trans hpass, fun hends => ?_⟩
    have := hlength hends
    rw [hcolumn] at this
    simp only [List.length_append, List.length_singleton]
    omega
  | case3 c breaks fuel h hbreak b c' hline hends =>
    obtain ⟨hpass, -⟩ := passes_lineBreak hbreak
    rw [hline] at hpass
    exact ⟨_, hpass, by simp⟩
  -- A line end adds one to the gap, and the column starts again.
  | case4 c breaks fuel h hbreak b c' hline hends ih =>
    obtain ⟨hpass, hone, hcolumn⟩ := passes_lineBreak hbreak
    rw [hline] at hpass hone hcolumn
    obtain ⟨d, hpass', hlength⟩ := ih
    refine ⟨_, hpass.trans hpass', fun hends' => ?_⟩
    have := hlength hends'
    dsimp only at hone hcolumn
    simp only [List.length_append, hone, hcolumn, List.length_singleton] at this ⊢
    omega
  | case5 => exact ⟨[], Passes.refl _, fun _ => by simp⟩

/-- **Gaps.** A gap inside of a line is what is passed. If a line ends in it, then it is empty or
loses the blanks in front of the next word. -/
theorem gap_passes (c : Cursor) : ∃ d, Passes c d (gap c).cursor ∧
    ((gap c).broken = false → (gap c).text = d ∧ ∀ x ∈ d, x = ' ') ∧
    ((gap c).broken = true → (gap c).text = [] ∨
      (gap c).text.length + (gap c).cursor.column ≤ d.length) := by
  have hspaces : ∀ x ∈ (c.span (· == ' ')).1, x = ' ' := fun x hx =>
    beq_iff_eq.1 (List.mem_takeWhile_imp (p := (· == ' ')) hx)
  -- The blanks in front are passed as they stand.
  have hspan : Passes c (c.span (· == ' ')).1 (c.span (· == ' ')).2 := by
    refine ⟨?_, fun x hx => .inl (hspaces x hx)⟩
    rw [Cursor.span, Cursor.rest_advance]
    exact (List.prefix_iff_eq_append.1 (List.takeWhile_prefix _)).symm
  unfold gap
  generalize c.span (· == ' ') = q at hspan hspaces ⊢
  obtain ⟨blanks, c₁⟩ := q
  dsimp only at hspan hspaces ⊢
  split
  · next hbreak =>
    obtain ⟨hline, hone, hcolumn⟩ := passes_lineBreak hbreak
    generalize c₁.lineBreak = q at hline hone hcolumn ⊢
    obtain ⟨first, c₂⟩ := q
    dsimp only at hline hone hcolumn ⊢
    split
    · exact ⟨_, hspan.trans hline, by simp, fun _ => .inl rfl⟩
    · obtain ⟨d, hpass, hlength⟩ := gapBreaks_passes (c := c₂) [] c₂.rest.length
      refine ⟨_, (hspan.trans hline).trans hpass, by simp, fun _ => ?_⟩
      generalize gapBreaks c₂ [] c₂.rest.length = q at hlength ⊢
      obtain ⟨more, ended, c₃⟩ := q
      dsimp only at hlength ⊢
      cases ended with
      | true => exact .inl rfl
      | false =>
        right
        have := hlength rfl
        -- Folding makes one character of the first line end, or none.
        have hfold : (fold first more).length ≤ 1 + more.length := by
          rw [fold, List.length_append, Nat.add_le_add_iff_right]
          split
          · exact hone.le
          · split <;> simp
        simp only [Bool.false_eq_true, if_false, List.length_append, List.length_singleton,
          List.length_nil, hcolumn] at this ⊢
        omega
  · exact ⟨blanks, hspan, fun _ => ⟨rfl, hspaces⟩, by simp⟩

/-! ### Plain scalars -/

/-- Whether a character may stand in a document behind which no line ends are unified. -/
def isUnified (x : Char) : Bool := isAllowed x && x != '\r'

/-- A word that ends at a blank is a line. -/
theorem continuesPlain_of_plainLength {w rest : List Char}
    (hlength : plainLength false (w ++ rest) = w.length)
    (hends : isBlankOrEnd (rest.headD '\x00') = true) (hw : ∀ x ∈ w, isUnified x = true) :
    continuesPlain w = true := by
  induction w with
  | nil => rfl
  | cons x w ih =>
    rw [List.forall_mem_cons] at hw
    have hx := hw.1
    rw [List.cons_append, plainLength] at hlength
    split at hlength
    · cases hlength
    · next hstops =>
      simp only [plainStops, Bool.false_and, Bool.or_false, Bool.or_eq_true, Bool.and_eq_true,
        beq_iff_eq, not_or, not_and, Bool.not_eq_true] at hstops
      have hlength' : plainLength false (w ++ rest) = w.length := by simpa using hlength
      have hspace : ∀ {y : Char}, isBlankOrEnd y = false → y ≠ ' ' := by
        rintro _ h rfl
        cases h
      simp only [isUnified, Bool.and_eq_true, bne_iff_ne] at hx
      refine continuesPlain_cons.2 ⟨⟨?_, fun hcolon => ?_, fun h => absurd h (hspace hstops.1)⟩,
        ih hlength' hw.2⟩
      · have hblank := hstops.1
        simp only [isBlankOrEnd, isSpaceOrEnd, isEnd, Bool.or_eq_false_iff, beq_eq_false_iff_ne]
          at hblank
        simp [isLineChar, hx.1, hx.2, hblank.1, hblank.2.2.2]
      · -- Behind a colon the word goes on.
        have hnext := hstops.2 hcolon
        cases w with
        | nil =>
          rw [List.nil_append, hends] at hnext
          cases hnext
        | cons y w => exact hspace hnext

theorem plainLength_le {flow : Bool} {z : Char} (v more : List Char) (hz : isBlankOrEnd z = true) :
    plainLength flow (v ++ z :: more) ≤ v.length := by
  induction v with
  | nil => simp [plainLength, plainStops, hz]
  | cons x v ih =>
    rw [List.cons_append, plainLength, List.length_cons]
    split
    · exact Nat.zero_le _
    · exact Nat.succ_le_succ ih

theorem plainWords_of_plainLength {flow : Bool} {indent : Int} {s : Scalar} {spaces : List Char}
    (h : plainLength flow s.cursor.rest = 0) (fuel : Nat) :
    plainWords flow indent s spaces fuel = s := by
  cases fuel with
  | zero => rfl
  | succ fuel => simp [plainWords, h]

theorem continuesPlain_spaces {d v : List Char} (hd : ∀ x ∈ d, x = ' ') (hne : v ≠ [])
    (hnumber : v.head? ≠ some '#') (hv : continuesPlain v = true) :
    continuesPlain (d ++ v) = true := by
  obtain ⟨y, v, rfl⟩ := List.exists_cons_of_ne_nil hne
  induction d with
  | nil => exact hv
  | cons x d ih =>
    rw [List.forall_mem_cons] at hd
    obtain ⟨rfl, hd⟩ := hd
    refine continuesPlain_cons.2 ⟨⟨by decide, fun h => absurd h (by decide), fun _ => ?_⟩, ih hd⟩
    -- Of the blanks only the last one stands in front of something that may be a number sign.
    cases d with
    | nil => exact fun h => hnumber (congrArg some h)
    | cons z d =>
      rw [List.forall_mem_cons] at hd
      change z ≠ '#'
      rw [hd.1]
      decide

/-- What a plain scalar makes of a text `v`: nothing, or something shorter, or `v` itself, which is
then a plain line. -/
def Keeps (v y : List Char) : Prop :=
  y ≠ [] ∧ (y.length < v.length ∨ y = v ∧ continuesPlain v = true ∧ v.head? ≠ some '#')

/-- A gap inside of a document ends in the text, or at the empty line behind it, unless it reaches
column zero. -/
theorem Passes.inside {v d : List Char} (h : Passes c d c') (hinside : Inside t b c')
    (hcolumn : 1 ≤ c'.column) (hb : ∃ x xs, b = x :: xs ∧ x ≠ ' ' ∧ isBreak x = false)
    (hrest : c.rest = v ++ '\n' :: '\n' :: b) :
    (∃ v', v = d ++ v' ∧ c'.rest = v' ++ '\n' :: '\n' :: b) ∨ c'.rest = '\n' :: b := by
  have hsplit := h.rest
  rw [hrest] at hsplit
  rcases List.append_eq_append_iff.1 hsplit with ⟨a, rfl, ha⟩ | ⟨v', rfl, hrest'⟩
  · -- The gap reaches the end of the text, or goes beyond it.
    cases a with
    | nil => exact .inl ⟨[], by simp, ha.symm⟩
    | cons a₁ a =>
      obtain ⟨rfl, ha₁⟩ := List.cons.inj ha
      cases a with
      | nil => exact .inr ha₁.symm
      | cons a₂ a =>
        obtain ⟨rfl, ha₂⟩ := List.cons.inj ha₁
        cases a with
        | nil =>
          have hzero := hinside.column ha₂.symm
          omega
        | cons a₃ a =>
          obtain ⟨x, xs, rfl, hspace, hbreak⟩ := hb
          obtain ⟨rfl, -⟩ := List.cons.inj ha₂
          have hblank := h.blank x (by simp)
          simp [hspace, hbreak] at hblank
  · exact .inl ⟨v', rfl, hrest'⟩

section Words

variable {word d v y rest : List Char} {g : Gap}

/-- If a scalar ends behind a word, then it is shorter unless the word is all there is. -/
theorem keeps_word (hlength : plainLength false (word ++ (v ++ '\n' :: rest)) = word.length)
    (hhead : ∃ x xs, word = x :: xs ∧ x ≠ '#') (hword : ∀ x ∈ word, isUnified x = true) :
    Keeps (word ++ v) word := by
  obtain ⟨x, xs, rfl, hx⟩ := hhead
  refine ⟨List.cons_ne_nil x xs, ?_⟩
  cases v with
  | nil =>
    rw [List.append_nil]
    exact .inr ⟨rfl, continuesPlain_of_plainLength hlength rfl hword,
      fun h => hx (Option.some.inj h)⟩
  | cons z v => exact .inl (by simp)

/-- What a scalar becomes behind a gap is added to the word in front of it. -/
theorem Keeps.behind (hkeeps : Keeps v y)
    (hlength : plainLength false (word ++ (d ++ rest)) = word.length)
    (hhead : ∃ x xs, word = x :: xs ∧ x ≠ '#') (hword : ∀ x ∈ word, isUnified x = true)
    (hne : g.text ≠ []) (hopen : g.broken = false → g.text = d ∧ ∀ x ∈ d, x = ' ')
    (hbroken : g.broken = true → g.text.length < d.length) :
    Keeps (word ++ (d ++ v)) (word ++ (g.text ++ y)) := by
  obtain ⟨hy, hkeeps⟩ := hkeeps
  obtain ⟨x, xs, rfl, hx⟩ := hhead
  refine ⟨List.cons_ne_nil x _, ?_⟩
  cases hgap : g.broken with
  -- The gap is kept as it stands: then the text is kept too, or `v` has been shortened already.
  | false =>
    obtain ⟨htext, hspaces⟩ := hopen hgap
    rw [htext] at hne ⊢
    rcases hkeeps with hlt | ⟨rfl, hplain, hhash⟩
    · left
      simp only [List.length_append]
      omega
    · right
      have hd : isBlankOrEnd ((d ++ rest).headD '\x00') = true := by
        obtain ⟨z, d, rfl⟩ := List.exists_cons_of_ne_nil hne
        rw [List.cons_append, List.headD_cons, hspaces z List.mem_cons_self]
        rfl
      exact ⟨rfl, continuesPlain_append (continuesPlain_of_plainLength hlength hd hword)
        (continuesPlain_spaces hspaces hy hhash hplain), fun h => hx (Option.some.inj h)⟩
  -- A line ends in the gap, which loses a character at least.
  | true =>
    left
    have hless := hbroken hgap
    have hle : y.length ≤ v.length := by
      rcases hkeeps with hlt | ⟨rfl, -⟩
      · exact hlt.le
      · exact le_rfl
    simp only [List.length_append]
    omega

end Words

/-- **A plain scalar inside of a document.** If it has to be indented, then it ends before the
section at the end of the document does. -/
theorem plainWords_inside {indent : Int} {s : Scalar} {v : List Char} (spaces : List Char)
    (fuel : Nat) (hindent : 1 ≤ indent) (hb : ∃ x xs, b = x :: xs ∧ x ≠ ' ' ∧ isBreak x = false)
    (hs : Inside t b s.cursor) (hrest : s.cursor.rest = v ++ '\n' :: '\n' :: b)
    (hv : ∀ x ∈ v, isUnified x = true) :
    (plainWords false indent s spaces fuel).text = s.text ∨
      ∃ y, (plainWords false indent s spaces fuel).text = s.text ++ spaces ++ y ∧ Keeps v y := by
  induction fuel generalizing s spaces v with
  | zero => exact .inl rfl
  | succ fuel ih =>
    by_cases hstop : s.cursor.peek = '#' ∨ plainLength false s.cursor.rest = 0
    · left
      rw [plainWords]
      dsimp only
      rw [if_pos (by simpa using hstop)]
    · right
      rw [not_or] at hstop
      -- The first word lies in the text, since it does not go beyond a line end.
      have hle : plainLength false s.cursor.rest ≤ v.length := hrest ▸ plainLength_le v _ rfl
      obtain ⟨word, v', rfl, hlength⟩ : ∃ word v', v = word ++ v' ∧
          plainLength false s.cursor.rest = word.length :=
        ⟨_, _, (List.take_append_drop _ v).symm, by rw [List.length_take_of_le hle]⟩
      rw [List.append_assoc] at hrest
      have hhead : ∃ x xs, word = x :: xs ∧ x ≠ '#' := by
        cases word with
        | nil => exact absurd hlength hstop.2
        | cons x xs => exact ⟨x, xs, rfl, fun h => hstop.1 (by rw [Cursor.peek, hrest, h]; rfl)⟩
      have hbehind : (s.cursor.advance word.length).rest = v' ++ '\n' :: '\n' :: b := by
        rw [Cursor.rest_advance, hrest, List.drop_left]
      rw [List.forall_mem_append] at hv
      have hone : ∃ y, s.text ++ spaces ++ word = s.text ++ spaces ++ y ∧ Keeps (word ++ v') y :=
        ⟨word, rfl, keeps_word (hrest ▸ hlength) hhead hv.1⟩
      rw [plainWords_succ hrest hlength hhead]
      dsimp only
      split
      · exact hone
      · next hgo =>
        simp only [Bool.or_eq_true, List.isEmpty_iff, beq_iff_eq, Bool.not_false, Bool.true_and,
          decide_eq_true_eq, not_or] at hgo
        obtain ⟨d, hpass, hopen, hbroken⟩ := gap_passes (s.cursor.advance word.length)
        have hinside := (hs.ahead (s.cursor.ahead_advance word.length)).ahead
          (gap_spec (s.cursor.advance word.length)).1
        generalize gap (s.cursor.advance word.length) = g at hgo hpass hopen hbroken hinside ⊢
        obtain ⟨⟨hne, -⟩, hcolumn⟩ := hgo
        have hcolumn' : 1 ≤ g.cursor.column := by omega
        rcases hpass.inside hinside hcolumn' hb hbehind with ⟨v'', rfl, hrest'⟩ | hrest'
        · rw [List.forall_mem_append] at hv
          rcases ih (s := ⟨_, g.broken, g.cursor⟩) g.text hinside hrest' hv.2.2 with
            heq | ⟨y, heq, hkeeps⟩
          · rw [heq]
            exact hone
          · refine ⟨word ++ (g.text ++ y), by rw [heq]; simp only [List.append_assoc], ?_⟩
            rw [hrest, List.append_assoc] at hlength
            exact hkeeps.behind hlength hhead hv.1 hne hopen fun h => by
              have := (hbroken h).resolve_left hne
              omega
        · rw [plainWords_of_plainLength (s := ⟨_, g.broken, g.cursor⟩) (by rw [hrest']; rfl)]
          exact hone

/-- **A plain scalar outside of brackets** that has to be indented is a plain line, or shorter than
what is left of the text. -/
theorem plain_inside {indent : Int} {v : List Char} (hindent : 1 ≤ indent)
    (hb : ∃ x xs, b = x :: xs ∧ x ≠ ' ' ∧ isBreak x = false) (hc : Inside t b c)
    (hrest : c.rest = v ++ '\n' :: '\n' :: b) (hv : ∀ x ∈ v, isUnified x = true) (hne : v ≠ []) :
    (plain false indent c).text.length < v.length ∨
      (plain false indent c).text = v ∧ continuesPlain v = true := by
  have hlength := List.length_pos_of_ne_nil hne
  rcases plainWords_inside (s := ⟨[], false, c⟩) [] c.rest.length hindent hb hc hrest hv
    with h | ⟨y, h, -, hkeeps⟩
  · left
    rw [plain, h]
    exact hlength
  · rw [plain, h]
    rcases hkeeps with hlt | ⟨rfl, hplain, -⟩
    · exact .inl hlt
    · exact .inr ⟨rfl, hplain⟩

/-! ### The end of a document -/

/-- What may stand behind a word: a colon with a blank behind it, or the end of the last line. -/
def endsWord : List Char → Bool
  | ['\n'] => true
  | ':' :: x :: _ => isBlankOrEnd x
  | _ => false

/-- Lines of ordinary words, each of them with a colon behind it or at the end. -/
structure IsWords (b : List Char) : Prop where
  sign : ∀ x ∈ b, isOrdinary x = true ∨ x = ':' ∨ x = ' ' ∨ x = '\n'
  colon : ∀ r, ':' :: r <:+ b → isBlankOrEnd (r.headD '\x00') = true
  word : ∀ x r, x :: r <:+ b → isOrdinary x = true →
    ∃ w more, r = w ++ more ∧ (∀ y ∈ w, isOrdinary y = true) ∧ endsWord more = true

namespace IsWords

variable {w : List Char}

theorem nil : IsWords [] where
  sign := List.forall_mem_nil _
  colon _ h := absurd (List.suffix_nil.1 h) (List.cons_ne_nil _ _)
  word _ _ h := absurd (List.suffix_nil.1 h) (List.cons_ne_nil _ _)

theorem blank {x : Char} (h : IsWords b) (hx : x = ' ' ∨ x = '\n') : IsWords (x :: b) where
  sign := List.forall_mem_cons.2 ⟨.inr (.inr hx), h.sign⟩
  colon r hr := by
    rcases List.suffix_cons_iff.1 hr with heq | hr
    · obtain ⟨rfl, -⟩ := List.cons.inj heq
      exact absurd hx (by decide)
    · exact h.colon r hr
  word y r hr hy := by
    rcases List.suffix_cons_iff.1 hr with heq | hr
    · obtain ⟨rfl, -⟩ := List.cons.inj heq
      rcases hx with rfl | rfl <;> exact absurd hy (by decide)
    · exact h.word y r hr hy

theorem cons_colon (h : IsWords b) (hblank : isBlankOrEnd (b.headD '\x00') = true) :
    IsWords (':' :: b) where
  sign := List.forall_mem_cons.2 ⟨.inr (.inl rfl), h.sign⟩
  colon r hr := by
    rcases List.suffix_cons_iff.1 hr with heq | hr
    · obtain ⟨-, rfl⟩ := List.cons.inj heq
      exact hblank
    · exact h.colon r hr
  word y r hr hy := by
    rcases List.suffix_cons_iff.1 hr with heq | hr
    · obtain ⟨rfl, -⟩ := List.cons.inj heq
      exact absurd hy (by decide)
    · exact h.word y r hr hy

theorem append (h : IsWords b) (hw : ∀ x ∈ w, isOrdinary x = true) (hends : endsWord b = true) :
    IsWords (w ++ b) where
  sign := List.forall_mem_append.2 ⟨fun x hx => .inl (hw x hx), h.sign⟩
  -- A colon is not ordinary, so it stands in `b`.
  colon r hr := by
    rcases suffix_append_cases hr with hr | ⟨zs, hne, hzs, heq⟩
    · exact h.colon r hr
    · obtain ⟨z, zs, rfl⟩ := List.exists_cons_of_ne_nil hne
      obtain ⟨rfl, -⟩ := List.cons.inj heq
      exact absurd (hw _ (hzs.subset List.mem_cons_self)) (by decide)
  word y r hr hy := by
    -- The word at hand is the rest of `w`, and it ends where `b` starts.
    rcases suffix_append_cases hr with hr | ⟨zs, hne, hzs, heq⟩
    · exact h.word y r hr hy
    · obtain ⟨z, zs, rfl⟩ := List.exists_cons_of_ne_nil hne
      obtain ⟨rfl, rfl⟩ := List.cons.inj heq
      exact ⟨zs, b, rfl, fun x hx => hw x (hzs.subset (List.mem_cons_of_mem _ hx)), hends⟩

end IsWords

theorem plainLength_word {flow : Bool} {w more : List Char} (hw : ∀ x ∈ w, isOrdinary x = true)
    (hends : endsWord more = true) : plainLength flow (w ++ more) = w.length := by
  induction w with
  | nil =>
    unfold endsWord at hends
    split at hends
    · rfl
    · simp [plainLength, plainStops, hends]
    · cases hends
  | cons x w ih =>
    rw [List.forall_mem_cons] at hw
    have hne := fun e he => ne_of_class hw.1 (y := e) he
    have hcolon : x ≠ ':' := hne _ (by decide)
    have hflow : ",?[]\x7b\x7d".toList.contains x = false :=
      contains_eq_false_of_class (by decide) hw.1
    -- None of the three reasons to stop holds at an ordinary character.
    have hstops : ¬plainStops flow x ((w ++ more).headD '\x00') = true := by
      rw [plainStops, isBlankOrEnd_of_isWordChar (isWordChar_of_isOrdinary hw.1),
        beq_eq_false_iff_ne.2 hcolon, hflow]
      simp
    rw [List.cons_append, plainLength, if_neg hstops, ih hw.2, List.length_cons]

/-- **An ordinary word** is a plain scalar of its own, with brackets around it or without. -/
theorem plain_word {flow : Bool} {indent : Int} {w more : List Char} (hne : w ≠ [])
    (hw : ∀ x ∈ w, isOrdinary x = true) (hends : endsWord more = true)
    (hrest : c.rest = w ++ more) : (plain flow indent c).text = w := by
  obtain ⟨x, xs, rfl⟩ := List.exists_cons_of_ne_nil hne
  have hlength : plainLength flow c.rest = (x :: xs).length := by
    rw [hrest, plainLength_word hw hends]
  have hnumber : x ≠ '#' := ne_of_class (hw x List.mem_cons_self) (by decide)
  have hbehind : (c.advance (x :: xs).length).rest = more := by
    rw [Cursor.rest_advance, hrest, List.drop_left]
  rw [plain, hrest]
  change (plainWords flow indent ⟨[], false, c⟩ [] (_ + 1)).text = _
  rw [plainWords_succ hrest hlength ⟨x, xs, rfl, hnumber⟩]
  dsimp only
  split
  · rfl
  · next hgo =>
    -- The scalar goes on only behind the end of the last line, where nothing is left.
    rw [plainWords_of_plainLength (s := ⟨_, _, _⟩)]
    · rfl
    · have hahead := (gap_spec (c.advance (x :: xs).length)).1.suffix
      dsimp only
      unfold endsWord at hends
      split at hends
      · rw [hbehind] at hahead
        rcases List.suffix_cons_iff.1 hahead with heq | hnil
        · rw [heq]
          rfl
        · rw [List.suffix_nil.1 hnil]
          rfl
      · rw [gap_spaces (show _ = [] ++ ':' :: _ from hbehind) (List.forall_mem_nil _) (by decide)
          (by decide)] at hgo
        exact absurd rfl hgo
      · cases hends

/-- A position in the last lines of a document, at the start of a word. -/
theorem IsWords.plain {flow : Bool} {indent : Int} {x : Char} {r : List Char} (hb : IsWords b)
    (hrest : c.rest = x :: r) (hsuffix : c.rest <:+ b) (hx : isOrdinary x = true) :
    isPlainLine (Yaml.plain flow indent c).text = true := by
  rw [hrest] at hsuffix
  obtain ⟨w, more, rfl, hw, hends⟩ := hb.word x r hsuffix hx
  have hword : ∀ y ∈ x :: w, isOrdinary y = true := List.forall_mem_cons.2 ⟨hx, hw⟩
  rw [plain_word (List.cons_ne_nil x w) hword hends hrest]
  exact isPlainLine_of_isOrdinary (List.cons_ne_nil x w) hword

/-- **A plain scalar outside of brackets** that has to be indented: it is a plain line, or it is
shorter than the text in which it starts. -/
theorem Inside.plain {indent : Int} (h : Inside t b c) (ht : ∀ x ∈ t, isUnified x = true)
    (hb : IsWords b) (hhead : ∃ x xs, b = x :: xs ∧ isOrdinary x = true) (hindent : 1 ≤ indent)
    (hstarts : startsPlain c.rest = true) :
    isPlainLine (Yaml.plain false indent c).text = true ∨
      (Yaml.plain false indent c).text.length < t.length := by
  have hhead' : ∃ x xs, b = x :: xs ∧ x ≠ ' ' ∧ isBreak x = false := by
    obtain ⟨x, xs, rfl, hx⟩ := hhead
    exact ⟨x, xs, rfl, ne_of_class hx (by decide),
      isBreak_of_isLineChar (isLineChar_of_isOrdinary hx)⟩
  rcases suffix_append_cases h.suffix with hsuffix | ⟨v, hne, hv, hrest⟩
  · -- Behind the text the scalar starts with a word.
    obtain ⟨x, r, hrest, hblank, -⟩ := startsPlain_cons hstarts
    rw [hrest] at hsuffix hstarts
    have hbehind : x :: r <:+ b := by
      rcases List.suffix_cons_iff.1 hsuffix with heq | hsuffix
      · obtain ⟨rfl, -⟩ := List.cons.inj heq
        cases hblank
      · rcases List.suffix_cons_iff.1 hsuffix with heq | hsuffix
        · obtain ⟨rfl, -⟩ := List.cons.inj heq
          cases hblank
        · exact hsuffix
    left
    refine hb.plain hrest (hrest ▸ hbehind) ?_
    rcases hb.sign x (hbehind.subset List.mem_cons_self) with hx | rfl | rfl | rfl
    · exact hx
    · rw [startsPlain, hb.colon r hbehind] at hstarts
      simp at hstarts
    · cases hblank
    · cases hblank
  · rw [hrest] at hstarts
    rcases plain_inside hindent hhead' h hrest (fun x hx => ht x (hv.subset hx)) hne with
      hlt | ⟨heq, hplain⟩
    · exact .inr (lt_of_lt_of_le hlt hv.length_le)
    · left
      rw [heq]
      exact isPlainLine_iff.2 ⟨startsPlain_of_append hne hstarts, hplain⟩

end Yaml
end Horn
