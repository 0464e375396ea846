import Horn.Proofs.Yaml.Plain

/-!
# Reading ahead

Every part of the scanner reads on from a position and stops at one that lies ahead of it
(`Cursor.Ahead`). The text of a scalar is made of the characters that are passed on the way, but it
may have fewer of them: blanks and line ends are dropped, and an escape stands for one character.
`Cursor.Reads p` says that there are not more of the characters that `p` counts.
-/

namespace Horn
namespace Yaml

namespace Cursor

variable {c c' c'' : Cursor} {p : Char → Bool} {xs ys : List Char} {n : Nat}

/-- A position that lies ahead, or is the same. -/
def Ahead (c c' : Cursor) : Prop := ∃ n, c' = c.advance n

theorem rest_next (c : Cursor) : c.next.rest = c.rest.tail := by
  unfold next
  split
  · next h => rw [h]; rfl
  · next h =>
    rw [h]
    split <;> rfl

theorem rest_advance (c : Cursor) (n : Nat) : (c.advance n).rest = c.rest.drop n := by
  induction n generalizing c with
  | zero => rfl
  | succ n ih =>
    rw [advance, ih, rest_next]
    cases c.rest with
    | nil => exact List.drop_nil
    | cons x xs => rfl

theorem Ahead.refl (c : Cursor) : c.Ahead c := ⟨0, rfl⟩

theorem ahead_advance (c : Cursor) (n : Nat) : c.Ahead (c.advance n) := ⟨n, rfl⟩

theorem ahead_next (c : Cursor) : c.Ahead c.next := ⟨1, rfl⟩

theorem Ahead.trans (h : c.Ahead c') (h' : c'.Ahead c'') : c.Ahead c'' := by
  obtain ⟨m, rfl⟩ := h
  obtain ⟨n, rfl⟩ := h'
  exact ⟨m + n, (c.advance_add m n).symm⟩

theorem ahead_span (c : Cursor) (q : Char → Bool) : c.Ahead (c.span q).2 := ahead_advance c _

theorem ahead_skip (c : Cursor) (q : Char → Bool) : c.Ahead (c.skip q) := ahead_span c q

theorem ahead_lineBreak (c : Cursor) : c.Ahead c.lineBreak.2 := by
  unfold lineBreak
  split
  · exact ahead_next c
  · exact Ahead.refl c

theorem Ahead.suffix (h : c.Ahead c') : c'.rest <:+ c.rest := by
  obtain ⟨n, rfl⟩ := h
  rw [rest_advance]
  exact List.drop_suffix n c.rest

theorem exists_rest_of_peek {x : Char} (h : c.peek = x) (hx : x ≠ '\x00') :
    ∃ xs, c.rest = x :: xs ∧ c.next.rest = xs := by
  rw [rest_next]
  unfold peek at h
  cases hrest : c.rest with
  | nil =>
    rw [hrest] at h
    exact absurd h.symm hx
  | cons y xs =>
    rw [hrest] at h
    exact ⟨xs, congrArg (· :: xs) h, rfl⟩

/-- What has been read on the way to a position: of the characters that `p` counts, there are not
more than have been passed. -/
structure Reads (p : Char → Bool) (c : Cursor) (text : List Char) (c' : Cursor) : Prop where
  ahead : c.Ahead c'
  count : text.countP p + c'.rest.countP p ≤ c.rest.countP p

namespace Reads

/-- Nothing has been read. -/
theorem nil (h : c.Ahead c') : Reads p c [] c' :=
  ⟨h, by simpa using h.suffix.countP_le⟩

theorem append (h : Reads p c xs c') (h' : Reads p c' ys c'') : Reads p c (xs ++ ys) c'' := by
  refine ⟨h.ahead.trans h'.ahead, ?_⟩
  have hcount := h.count
  have hcount' := h'.count
  rw [List.countP_append]
  omega

/-- Characters that do not count may be passed. -/
theorem pass (h : Reads p c xs c') (h' : c'.Ahead c'') : Reads p c xs c'' := by
  simpa using h.append (nil h')

/-- Characters that do not count may be added. -/
theorem add (h : Reads p c xs c') (hys : ∀ y ∈ ys, p y = false) : Reads p c (xs ++ ys) c' := by
  have hzero : ys.countP p = 0 := List.countP_eq_zero.2 fun y hy => by simp [hys y hy]
  refine ⟨h.ahead, ?_⟩
  rw [List.countP_append, hzero]
  exact h.count

theorem take (c : Cursor) (n : Nat) : Reads p c (c.rest.take n) (c.advance n) := by
  refine ⟨ahead_advance c n, ?_⟩
  rw [rest_advance, ← List.countP_append, List.take_append_drop]

theorem span (c : Cursor) (q : Char → Bool) : Reads p c (c.span q).1 (c.span q).2 := by
  refine ⟨ahead_span c q, ?_⟩
  have happend := List.prefix_iff_eq_append.1 (List.takeWhile_prefix q (l := c.rest))
  rw [Cursor.span, rest_advance, ← List.countP_append, happend]

end Reads
end Cursor

open Cursor (Ahead Reads)

variable {c c₀ : Cursor} {p : Char → Bool} {acc breaks spaces : List Char} {fuel : Nat}

/-! ### Gaps -/

/-- A count of characters other than blanks and line ends. -/
structure IsInk (p : Char → Bool) : Prop where
  blank : p ' ' = false
  breaks : ∀ x, isBreak x = true → p x = false

theorem isBreak_of_mem_lineBreak : ∀ x ∈ c.lineBreak.1, isBreak x = true := by
  unfold Cursor.lineBreak
  split
  · next h =>
    rw [List.forall_mem_singleton]
    split
    · rfl
    · exact h
  · exact List.forall_mem_nil _

theorem isBreak_append {xs ys : List Char} (hxs : ∀ x ∈ xs, isBreak x = true)
    (hys : ∀ y ∈ ys, isBreak y = true) : ∀ z ∈ xs ++ ys, isBreak z = true :=
  List.forall_mem_append.2 ⟨hxs, hys⟩

theorem gapBreaks_spec (fuel : Nat) (hbreaks : ∀ x ∈ breaks, isBreak x = true) :
    c.Ahead (gapBreaks c breaks fuel).2.2 ∧
      ∀ x ∈ (gapBreaks c breaks fuel).1, isBreak x = true := by
  fun_induction gapBreaks c breaks fuel with
  | case1 => exact ⟨Ahead.refl _, hbreaks⟩
  | case2 c breaks fuel h ih => exact ⟨c.ahead_next.trans (ih hbreaks).1, (ih hbreaks).2⟩
  -- A document ends here: the gap is dropped.
  | case3 c breaks fuel h hbreak b c' hline hends =>
    have hahead := c.ahead_lineBreak
    rw [hline] at hahead
    exact ⟨hahead, List.forall_mem_nil _⟩
  | case4 c breaks fuel h hbreak b c' hline hends ih =>
    have hahead := c.ahead_lineBreak
    have hb := isBreak_of_mem_lineBreak (c := c)
    rw [hline] at hahead hb
    obtain ⟨hahead', htext⟩ := ih (isBreak_append hbreaks hb)
    exact ⟨hahead.trans hahead', htext⟩
  | case5 => exact ⟨Ahead.refl _, hbreaks⟩

/-- Folded line ends are blanks and line ends. -/
theorem fold_spec {first more : List Char} (hfirst : ∀ x ∈ first, isBreak x = true)
    (hmore : ∀ x ∈ more, isBreak x = true) : ∀ x ∈ fold first more, x = ' ' ∨ isBreak x = true := by
  refine List.forall_mem_append.2 ⟨?_, fun x hx => .inr (hmore x hx)⟩
  split
  · exact fun x hx => .inr (hfirst x hx)
  · split
    · exact List.forall_mem_singleton.2 (.inl rfl)
    · exact List.forall_mem_nil _

/-- A gap consists of blanks and line ends. -/
theorem gap_spec (c : Cursor) :
    c.Ahead (gap c).cursor ∧ ∀ x ∈ (gap c).text, x = ' ' ∨ isBreak x = true := by
  have hspan := c.ahead_span (· == ' ')
  have hspaces : ∀ x ∈ (c.span (· == ' ')).1, x = ' ' := fun x hx =>
    beq_iff_eq.1 (List.mem_takeWhile_imp (p := (· == ' ')) hx)
  unfold gap
  -- From here on it does not matter how the cursor came behind the blanks.
  generalize c.span (· == ' ') = q at hspan hspaces ⊢
  obtain ⟨blanks, c₁⟩ := q
  dsimp only at hspan hspaces ⊢
  split
  -- The line ends in the gap, and the line ends that follow may be folded into one blank.
  · have hline := hspan.trans c₁.ahead_lineBreak
    have hfirst := isBreak_of_mem_lineBreak (c := c₁)
    generalize c₁.lineBreak = q at hline hfirst ⊢
    obtain ⟨first, c₂⟩ := q
    dsimp only at hline hfirst ⊢
    split
    · exact ⟨hline, List.forall_mem_nil _⟩
    · obtain ⟨hahead, hmore⟩ := gapBreaks_spec (c := c₂) c₂.rest.length (List.forall_mem_nil _)
      refine ⟨hline.trans hahead, ?_⟩
      dsimp only
      split
      · exact List.forall_mem_nil _
      · exact fold_spec hfirst hmore
  · exact ⟨hspan, fun x hx => .inl (hspaces x hx)⟩

/-! ### Plain scalars -/

/-- Whether a character opens or closes a collection in brackets. -/
def isBracket (x : Char) : Bool := "[]\x7b\x7d".toList.contains x

theorem eq_of_isBreak {x : Char} (h : isBreak x = true) :
    x = '\n' ∨ x = '\u0085' ∨ x = '\u2028' ∨ x = '\u2029' := by
  simpa only [isBreak, Bool.or_eq_true, beq_iff_eq, or_assoc] using h

/-- A bracket is neither a blank nor a line end. -/
theorem isBracket_gap {x : Char} (h : x = ' ' ∨ isBreak x = true) : isBracket x = false := by
  rcases h with rfl | h
  · decide
  · rcases eq_of_isBreak h with rfl | rfl | rfl | rfl <;> decide

/-- Inside of brackets a plain scalar ends in front of a bracket. -/
theorem isBracket_of_plainStops {x y : Char} (h : plainStops true x y = false) :
    isBracket x = false := by
  rw [← Bool.not_eq_true]
  intro hx
  have hx : x = '[' ∨ x = ']' ∨ x = '\x7b' ∨ x = '\x7d' := by simpa [isBracket] using hx
  rcases hx with rfl | rfl | rfl | rfl <;> simp [plainStops] at h

theorem mem_take_plainLength {flow : Bool} {xs : List Char} {x : Char}
    (h : x ∈ xs.take (plainLength flow xs)) : ∃ y, plainStops flow x y = false := by
  induction xs with
  | nil => cases h
  | cons z xs ih =>
    rw [plainLength] at h
    split at h
    · cases h
    · next hstops =>
      rw [List.take_succ_cons, List.mem_cons] at h
      rcases h with rfl | h
      · exact ⟨_, Bool.not_eq_true _ ▸ hstops⟩
      · exact ih h

/-- A plain scalar has no more ink than the characters that are passed. -/
theorem plainWords_reads {flow : Bool} {indent : Int} {s : Scalar} (hp : IsInk p)
    (hs : Reads p c₀ s.text s.cursor) (hspaces : ∀ x ∈ spaces, p x = false) :
    Reads p c₀ (plainWords flow indent s spaces fuel).text
      (plainWords flow indent s spaces fuel).cursor := by
  induction fuel generalizing s spaces with
  | zero => exact hs
  -- One word with the gap before it is kept, and the gap behind it is handed to the next word.
  | succ fuel ih =>
    obtain ⟨hgap, htext⟩ := gap_spec (s.cursor.advance (plainLength flow s.cursor.rest))
    have hword := ((hs.add hspaces).append
      (Reads.take s.cursor (plainLength flow s.cursor.rest))).pass hgap
    rw [plainWords]
    dsimp only
    split
    · exact hs
    · split
      · exact hword
      · exact ih hword fun x hx => (htext x hx).elim (fun h => h ▸ hp.blank) (hp.breaks x)

theorem plain_reads (flow : Bool) (indent : Int) (c : Cursor) (hp : IsInk p) :
    Reads p c (plain flow indent c).text (plain flow indent c).cursor :=
  plainWords_reads hp (Reads.nil (Ahead.refl c)) (List.forall_mem_nil _)

/-- Inside of brackets there is no bracket in a plain scalar. -/
theorem plainWords_flow {indent : Int} {s : Scalar} (hs : ∀ x ∈ s.text, isBracket x = false)
    (hspaces : ∀ x ∈ spaces, isBracket x = false) :
    ∀ x ∈ (plainWords true indent s spaces fuel).text, isBracket x = false := by
  induction fuel generalizing s spaces with
  | zero => exact hs
  | succ fuel ih =>
    obtain ⟨-, htext⟩ := gap_spec (s.cursor.advance (plainLength true s.cursor.rest))
    have hword : ∀ x ∈ s.text ++ spaces ++ s.cursor.rest.take (plainLength true s.cursor.rest),
        isBracket x = false := by
      -- A character of a word in brackets does not stop a plain scalar, so it is no bracket.
      refine List.forall_mem_append.2 ⟨List.forall_mem_append.2 ⟨hs, hspaces⟩, fun x hx => ?_⟩
      obtain ⟨y, hy⟩ := mem_take_plainLength hx
      exact isBracket_of_plainStops hy
    rw [plainWords]
    dsimp only
    split
    · exact hs
    · split
      · exact hword
      · exact ih hword fun x hx => isBracket_gap (htext x hx)

theorem plain_flow (indent : Int) (c : Cursor) :
    ∀ x ∈ (plain true indent c).text, isBracket x = false :=
  plainWords_flow (List.forall_mem_nil _) (List.forall_mem_nil _)

/-! ### Quoted scalars -/

section Quoted

variable {c' : Cursor} {xs : List Char}

/-- One character in place of the next one. -/
theorem Cursor.Reads.replace {x : Char} (h : c.peek = x) (hx : x ≠ '\x00') (y : Char) :
    Reads (fun _ => true) c [y] c.next := by
  obtain ⟨xs, hrest, hnext⟩ := Cursor.exists_rest_of_peek h hx
  refine ⟨c.ahead_next, ?_⟩
  rw [hrest, hnext]
  simp [Nat.add_comm]

theorem Cursor.Reads.lineBreak (c : Cursor) :
    Reads (fun _ => true) c c.lineBreak.1 c.lineBreak.2 := by
  unfold Cursor.lineBreak
  split
  · next h =>
    have hnull : c.peek ≠ '\x00' := by
      intro hpeek
      rw [hpeek] at h
      cases h
    exact Reads.replace rfl hnull _
  · exact Reads.nil (Ahead.refl c)

/-- Folded line ends are not more than before. -/
theorem Cursor.Reads.fold {c₁ c₂ : Cursor} {first more : List Char}
    (hfirst : Reads (fun _ => true) c first c₁) (hmore : Reads (fun _ => true) c₁ more c₂) :
    Reads (fun _ => true) c (fold first more) c₂ := by
  have hall := hfirst.append hmore
  refine ⟨hall.ahead, le_trans (Nat.add_le_add_right ?_ _) hall.count⟩
  rw [List.countP_true]
  unfold Yaml.fold
  split
  · exact le_rfl
  · next h =>
    rw [bne_iff_ne, not_not] at h
    rw [h]
    split <;> simp

theorem quotedBreaks_reads (hacc : Reads (fun _ => true) c₀ breaks c)
    (h : quotedBreaks c breaks fuel = some (xs, c')) : Reads (fun _ => true) c₀ xs c' := by
  induction fuel generalizing c breaks with
  | zero => cases h
  | succ fuel ih =>
    -- Blanks at the start of a line are passed, each line end is kept.
    have hskip := hacc.pass (c.ahead_skip fun x => x == ' ' || x == '\t')
    rw [quotedBreaks] at h
    split at h
    · cases h
    · dsimp only at h
      split at h
      · exact ih (hskip.append (Reads.lineBreak _)) h
      · cases h
        exact hskip

theorem escape_reads (h : escape? c = some (xs, c')) : Reads (fun _ => true) c xs c' := by
  -- No escape is spelled with the end of the text, so a character is passed for the one that is
  -- read.
  have hnull : c.peek ≠ '\x00' := by
    intro hpeek
    unfold escape? at h
    rw [hpeek] at h
    cases h
  unfold escape? at h
  split at h
  · cases h
    exact Reads.replace rfl hnull _
  -- A code point is spelled with several characters, and read as one.
  · obtain ⟨code, -, h⟩ := Option.bind_eq_some_iff.1 h
    split at h
    · cases h
      exact (Reads.replace rfl hnull _).pass (Cursor.ahead_advance _ _)
    · cases h
  -- An escaped line end is dropped, with the blanks of the next line.
  · split at h
    · exact quotedBreaks_reads (Reads.nil (c.ahead_lineBreak)) h
    · cases h

theorem quotedWord_reads {double : Bool} (hacc : Reads (fun _ => true) c₀ acc c)
    (h : quotedWord double c acc fuel = some (xs, c')) : Reads (fun _ => true) c₀ xs c' := by
  induction fuel generalizing c acc with
  | zero => cases h
  | succ fuel ih =>
    rw [quotedWord] at h
    dsimp only at h
    split at h
    -- A mark in single quotes is doubled.
    · next hquote =>
      simp only [Bool.and_eq_true, beq_iff_eq] at hquote
      have hone := hacc.append (Reads.replace hquote.1.2 (by decide) '\'')
      exact ih (hone.pass c.next.ahead_next) h
    · split at h
      · obtain ⟨⟨ys, c₁⟩, hescape, h⟩ := Option.bind_eq_some_iff.1 h
        exact ih ((hacc.pass c.ahead_next).append (escape_reads hescape)) h
      · generalize (if double = true then '"' else '\'') = mark at h
        split at h
        · cases h
          exact hacc
        · next hends =>
          have hnull : c.peek ≠ '\x00' := by
            intro hpeek
            rw [hpeek] at hends
            exact hends rfl
          exact ih (hacc.append (Reads.replace rfl hnull _)) h

theorem quotedGap_reads (h : quotedGap c = some (xs, c')) : Reads (fun _ => true) c xs c' := by
  have hspan := Reads.span (p := fun _ => true) c fun x => x == ' ' || x == '\t'
  unfold quotedGap at h
  generalize c.span (fun x => x == ' ' || x == '\t') = q at hspan h
  obtain ⟨blanks, c₁⟩ := q
  dsimp only at hspan h
  split at h
  · cases h
  · split at h
    · obtain ⟨⟨more, c₂⟩, hmore, h⟩ := Option.bind_eq_some_iff.1 h
      cases h
      exact ((Reads.nil hspan.ahead).append (Reads.lineBreak c₁)).fold
        -- Folding line ends into a blank reads no more than the line ends themselves.
        (quotedBreaks_reads (Reads.nil (Ahead.refl _)) hmore)
    · cases h
      exact hspan

/-- The quotation mark at either end of a scalar. -/
def quotationMark (double : Bool) : Char := if double then '"' else '\''

theorem quotedWords_reads {double : Bool} (hacc : Reads (fun _ => true) c₀ acc c)
    (h : quotedWords double c acc fuel = some (xs, c')) : ∃ c₁,
      Reads (fun _ => true) c₀ xs c₁ ∧ c₁.peek = quotationMark double ∧ c' = c₁.next := by
  induction fuel generalizing c acc with
  | zero => cases h
  | succ fuel ih =>
    rw [quotedWords] at h
    obtain ⟨⟨word, c₁⟩, hword, h⟩ := Option.bind_eq_some_iff.1 h
    have hread := hacc.append (quotedWord_reads (Reads.nil (Ahead.refl c)) hword)
    change (if c₁.peek == quotationMark double then _ else _) = _ at h
    split at h
    · next hquote =>
      cases h
      exact ⟨c₁, hread, beq_iff_eq.1 hquote, rfl⟩
    -- Words and gaps take turns until the mark is met.
    · obtain ⟨⟨blanks, c₂⟩, hgap, h⟩ := Option.bind_eq_some_iff.1 h
      exact ih (hread.append (quotedGap_reads hgap)) h

/-- **A quoted scalar** is not longer than what stands between its quotation marks. -/
theorem quoted_reads {double : Bool} {x : Scalar} (h : quoted double c = some x) : ∃ c₁,
    Reads (fun _ => true) c.next x.text c₁ ∧ c₁.peek = quotationMark double ∧
      x.cursor = c₁.next := by
  obtain ⟨⟨text, c₂⟩, hwords, rfl⟩ := Option.map_eq_some_iff.1 h
  exact quotedWords_reads (Reads.nil (Ahead.refl c.next)) hwords

end Quoted

/-! ### Block scalars -/

section Block

variable {c' : Cursor}

theorem ahead_endOfLine (h : c.endOfLine? = some c') : c.Ahead c' := by
  have hskip := c.ahead_skip (· == ' ')
  unfold Cursor.endOfLine? at h
  generalize c.skip (· == ' ') = c₁ at hskip h
  dsimp only at h
  -- A comment is passed with the line it stands on.
  have hcomment : c.Ahead (if c₁.peek == '#' then c₁.skip (!isEnd ·) else c₁) := by
    split
    · exact hskip.trans (c₁.ahead_skip _)
    · exact hskip
  generalize (if c₁.peek == '#' then c₁.skip (!isEnd ·) else c₁) = c₂ at hcomment h
  split at h
  · cases h
    exact hcomment.trans c₂.ahead_lineBreak
  · cases h

theorem ahead_indicators {chomp : Chomping} {increment : Option Nat}
    (h : indicators? c = some (chomp, increment, c')) : c.Ahead c' := by
  unfold indicators? at h
  dsimp only at h
  -- A digit that is not zero gives the indentation.
  have hdigit : ∀ {c₁ c₂ : Cursor} {n : Option Nat},
      (if c₁.peek == '0' then none
        else if c₁.peek.isDigit then some (some (c₁.peek.toNat - '0'.toNat), c₁.next)
        else some (none, c₁)) = some (n, c₂) → c₁.Ahead c₂ := by
    intro c₁ c₂ n h
    split at h
    · cases h
    · split at h
      · cases h
        exact c₁.ahead_next
      · cases h
        exact Ahead.refl _
  have hbehind : ∀ {c₁ : Cursor} {chomp' : Chomping} {n : Option Nat}, c.Ahead c₁ →
      (if isSpaceOrEnd c₁.peek then some (chomp', n, c₁) else none) = some (chomp, increment, c') →
        c.Ahead c' := by
    intro c₁ chomp' n hahead h
    split at h
    · cases h
      exact hahead
    · cases h
  split at h
  · obtain ⟨⟨n, c₁⟩, hn, h⟩ := Option.bind_eq_some_iff.1 h
    exact hbehind (c.ahead_next.trans (hdigit hn)) h
  · obtain ⟨⟨n, c₁⟩, hn, h⟩ := Option.bind_eq_some_iff.1 h
    dsimp only at h
    split at h
    · exact hbehind ((hdigit hn).trans c₁.ahead_next) h
    · exact hbehind (hdigit hn) h

theorem blockIndentation_spec (column fuel : Nat) (hbreaks : ∀ x ∈ breaks, isBreak x = true) :
    c.Ahead (blockIndentation c breaks column fuel).2.2 ∧
      ∀ x ∈ (blockIndentation c breaks column fuel).1, isBreak x = true := by
  fun_induction blockIndentation c breaks column fuel with
  | case1 => exact ⟨Ahead.refl _, hbreaks⟩
  | case2 c breaks column fuel h ih => exact ⟨c.ahead_next.trans (ih hbreaks).1, (ih hbreaks).2⟩
  | case3 c breaks column fuel h hbreak b c' hline ih =>
    have hahead := c.ahead_lineBreak
    have hb := isBreak_of_mem_lineBreak (c := c)
    rw [hline] at hahead hb
    obtain ⟨hahead', htext⟩ := ih (isBreak_append hbreaks hb)
    exact ⟨hahead.trans hahead', htext⟩
  | case4 => exact ⟨Ahead.refl _, hbreaks⟩

theorem blockBreaks_spec (indent : Int) (fuel : Nat) (hbreaks : ∀ x ∈ breaks, isBreak x = true) :
    c.Ahead (blockBreaks indent c breaks fuel).2 ∧
      ∀ x ∈ (blockBreaks indent c breaks fuel).1, isBreak x = true := by
  induction fuel generalizing c breaks with
  | zero => exact ⟨Ahead.refl _, hbreaks⟩
  | succ fuel ih =>
    have hskip : c.Ahead (skipTo indent c) := c.ahead_advance _
    rw [blockBreaks]
    dsimp only
    split
    · obtain ⟨hahead, htext⟩ := ih (c := (skipTo indent c).lineBreak.2)
        (isBreak_append hbreaks (isBreak_of_mem_lineBreak (c := skipTo indent c)))
      exact ⟨(hskip.trans (Cursor.ahead_lineBreak _)).trans hahead, htext⟩
    · exact ⟨hskip, hbreaks⟩

/-- What has been read of a block: its text, and line ends that may still be added to it. -/
structure ReadsBlock (p : Char → Bool) (c₀ : Cursor)
    (r : List Char × List Char × List Char × Cursor) : Prop where
  text : Reads p c₀ r.1 r.2.2.2
  last : ∀ x ∈ r.2.1, isBreak x = true
  more : ∀ x ∈ r.2.2.1, isBreak x = true

theorem blockLines_reads {folded : Bool} {indent : Int} {last : List Char} (hp : IsInk p)
    (h : ReadsBlock p c₀ (acc, last, breaks, c)) :
    ReadsBlock p c₀ (blockLines folded indent c acc last breaks fuel) := by
  induction fuel generalizing c acc last breaks with
  | zero => exact h
  | succ fuel ih =>
    have hspan := Reads.span (p := p) c (!isEnd ·)
    rw [blockLines]
    dsimp only
    generalize c.span (!isEnd ·) = q at hspan ⊢
    obtain ⟨line, after⟩ := q
    dsimp only at hspan ⊢
    split
    · exact h
    · have hlast := isBreak_of_mem_lineBreak (c := after)
      obtain ⟨hahead, hmore⟩ := blockBreaks_spec (c := after.lineBreak.2) indent
        (after.lineBreak.2.rest.length + 1) (List.forall_mem_nil _)
      -- A line is read up to its end, and behind it the empty lines and the indentation.
      have htext := ((h.text.add fun x hx => hp.breaks x (h.more x hx)).append hspan).pass
        (after.ahead_lineBreak.trans hahead)
      split
      · exact ⟨htext, hlast, hmore⟩
      · split
        -- Folded: the line end is read as a blank, or as nothing before an empty line.
        · refine ih ⟨?_, hlast, hmore⟩
          dsimp only
          split
          · exact htext.add (List.forall_mem_singleton.2 hp.blank)
          · exact htext
        · exact ih ⟨htext.add fun x hx => hp.breaks x (hlast x hx), hlast, hmore⟩

/-- Line ends at the end are dropped or kept, but they do not count. -/
theorem ReadsBlock.chomp {q : List Char × List Char × List Char × Cursor} (h : ReadsBlock p c₀ q)
    (hp : IsInk p) (chomp : Chomping) : Reads p c₀ (q.1 ++ match chomp with
      | .strip => []
      | .clip => q.2.1
      | .keep => q.2.1 ++ q.2.2.1) q.2.2.2 := by
  refine h.text.add ?_
  cases chomp with
  | strip => exact List.forall_mem_nil _
  | clip => exact fun y hy => hp.breaks y (h.last y hy)
  | keep => exact fun y hy => hp.breaks y (isBreak_append h.last h.more y hy)

/-- **A block scalar** has no more ink than what stands behind its sign. -/
theorem block_reads {folded : Bool} {outer : Int} {x : Scalar} (hp : IsInk p)
    (h : block folded outer c = some x) : Reads p c.next x.text x.cursor := by
  unfold block at h
  obtain ⟨⟨chomp, increment, c₁⟩, hindicators, h⟩ := Option.bind_eq_some_iff.1 h
  obtain ⟨c₂, hend, h⟩ := Option.bind_eq_some_iff.1 h
  have hheader := (ahead_indicators hindicators).trans (ahead_endOfLine hend)
  -- Whatever the indentation is, the lines behind the header are read like this.
  have hlines : ∀ (indent : Int) (fuel : Nat) {breaks : List Char} {c₃ : Cursor}, c₂.Ahead c₃ →
      (∀ y ∈ breaks, isBreak y = true) →
        ReadsBlock p c.next (blockLines folded indent c₃ [] [] breaks fuel) :=
        fun indent _ _ _ h hb =>
    blockLines_reads hp ⟨Reads.nil (hheader.trans h), List.forall_mem_nil _, hb⟩
  -- The indentation is that of the first line, or it is given in the header.
  cases increment with
  | none =>
    obtain ⟨hahead, hbreaks⟩ := blockIndentation_spec (c := c₂) 0 (c₂.rest.length + 1)
      (List.forall_mem_nil _)
    dsimp only at h
    generalize blockIndentation c₂ [] 0 (c₂.rest.length + 1) = q at hahead hbreaks h
    obtain ⟨breaks, column, c₃⟩ := q
    have hlines' := hlines (max (max (outer + 1) 1) column) (c₃.rest.length + 1) hahead hbreaks
    rw [← Option.some.inj h]
    exact hlines'.chomp hp chomp
  | some n =>
    obtain ⟨hahead, hbreaks⟩ := blockBreaks_spec (c := c₂) (max (outer + 1) 1 + n - 1)
      (c₂.rest.length + 1) (List.forall_mem_nil _)
    dsimp only at h
    generalize blockBreaks (max (outer + 1) 1 + n - 1) c₂ [] (c₂.rest.length + 1) = q
      at hahead hbreaks h
    obtain ⟨breaks, c₃⟩ := q
    have hlines' := hlines (max (outer + 1) 1 + n - 1) (c₃.rest.length + 1) hahead hbreaks
    rw [← Option.some.inj h]
    exact hlines'.chomp hp chomp

end Block

/-! ### Names, tags and directives -/

section Signs

variable {c' : Cursor}

theorem ahead_anchorName {name : String} (h : anchorName? c = some (name, c')) : c.Ahead c' := by
  unfold anchorName? at h
  have hspan := c.next.ahead_span isNameChar
  generalize c.next.span isNameChar = q at hspan h
  obtain ⟨cs, c₁⟩ := q
  dsimp only at hspan h
  split at h
  · cases h
  · cases h
    exact c.ahead_next.trans hspan

theorem ahead_uriEscapes {bytes bytes' : List UInt8}
    (h : uriEscapes? c bytes fuel = some (bytes', c')) : c.Ahead c' := by
  induction fuel generalizing c bytes with
  | zero => cases h
  | succ fuel ih =>
    rw [uriEscapes?] at h
    split at h
    · obtain ⟨n, -, h⟩ := Option.bind_eq_some_iff.1 h
      split at h
      · exact (c.ahead_advance 3).trans (ih h)
      · cases h
    · cases h
      exact Ahead.refl _

theorem ahead_uriChars {acc cs : List Char} (h : uriChars? c acc fuel = some (cs, c')) :
    c.Ahead c' := by
  induction fuel generalizing c acc with
  | zero => cases h
  | succ fuel ih =>
    rw [uriChars?] at h
    split at h
    · obtain ⟨⟨bytes, c₁⟩, hbytes, h⟩ := Option.bind_eq_some_iff.1 h
      obtain ⟨s, -, h⟩ := Option.bind_eq_some_iff.1 h
      exact (ahead_uriEscapes hbytes).trans (ih h)
    · split at h
      · exact c.ahead_next.trans (ih h)
      · cases h
        exact Ahead.refl _

theorem ahead_uri {uri : String} (h : uri? c = some (uri, c')) : c.Ahead c' := by
  obtain ⟨⟨cs, c₁⟩, hcs, h⟩ := Option.bind_eq_some_iff.1 h
  dsimp only at h
  split at h
  · cases h
  · cases h
    exact ahead_uriChars hcs

theorem ahead_handle {handle : String} (h : handle? c = some (handle, c')) : c.Ahead c' := by
  unfold handle? at h
  have hspan := c.next.ahead_span isNameChar
  generalize c.next.span isNameChar = q at hspan h
  obtain ⟨cs, c₁⟩ := q
  dsimp only at hspan h
  split at h
  · cases h
  · split at h
    · cases h
      exact c.ahead_next
    · split at h
      · cases h
        exact (c.ahead_next.trans hspan).trans c₁.ahead_next
      · cases h

theorem ahead_tag {t : RawTag} (h : tag? c = some (t, c')) : c.Ahead c' := by
  -- A tag has to end where a blank or the end of the text follows.
  have hbehind : ∀ {t' : RawTag} {c₁ : Cursor}, c.Ahead c₁ →
      (if isSpaceOrEnd c₁.peek then some (t', c₁) else none) = some (t, c') → c.Ahead c' := by
    intro t' c₁ hahead h
    split at h
    · cases h
      exact hahead
    · cases h
  unfold tag? at h
  dsimp only at h
  split at h
  · obtain ⟨⟨suffix, c₁⟩, hsuffix, h⟩ := Option.bind_eq_some_iff.1 h
    dsimp only at h
    split at h
    · exact hbehind (((c.ahead_advance 2).trans (ahead_uri hsuffix)).trans c₁.ahead_next) h
    · cases h
  · split at h
    · exact hbehind c.ahead_next h
    · split at h
      · obtain ⟨⟨handle, c₁⟩, hhandle, h⟩ := Option.bind_eq_some_iff.1 h
        obtain ⟨⟨suffix, c₂⟩, hsuffix, h⟩ := Option.bind_eq_some_iff.1 h
        exact hbehind ((ahead_handle hhandle).trans (ahead_uri hsuffix)) h
      · obtain ⟨⟨suffix, c₁⟩, hsuffix, h⟩ := Option.bind_eq_some_iff.1 h
        exact hbehind (c.ahead_next.trans (ahead_uri hsuffix)) h

theorem ahead_number {n : Nat} (h : number? c = some (n, c')) : c.Ahead c' := by
  unfold number? at h
  have hspan := c.ahead_span Char.isDigit
  generalize c.span Char.isDigit = q at hspan h
  obtain ⟨ds, c₁⟩ := q
  dsimp only at hspan h
  split at h
  · cases h
  · cases h
    exact hspan

/-- A directive ends behind its sign. -/
theorem ahead_directive {d : Directive} (h : directive? c = some (d, c')) : c.next.Ahead c' := by
  -- All directives end with their line.
  have hbehind : ∀ {d' : Directive} {c₁ : Cursor}, c.next.Ahead c₁ →
      (c₁.endOfLine? >>= fun c₂ => some (d', c₂)) = some (d, c') → c.next.Ahead c' := by
    intro d' c₁ hahead h
    obtain ⟨c₂, hend, h⟩ := Option.bind_eq_some_iff.1 h
    cases h
    exact hahead.trans (ahead_endOfLine hend)
  unfold directive? at h
  have hspan := c.next.ahead_span isNameChar
  generalize c.next.span isNameChar = q at hspan h
  obtain ⟨name, c₁⟩ := q
  dsimp only at hspan h
  have hblank := hspan.trans (c₁.ahead_skip (· == ' '))
  split at h
  · cases h
  · split at h
    · obtain ⟨⟨major, c₂⟩, hmajor, h⟩ := Option.bind_eq_some_iff.1 h
      dsimp only at h
      split at h
      · cases h
      · obtain ⟨⟨minor, c₃⟩, hminor, h⟩ := Option.bind_eq_some_iff.1 h
        have hahead := (hblank.trans (ahead_number hmajor)).trans
          (c₂.ahead_next.trans (ahead_number hminor))
        dsimp only at h
        split at h
        · exact hbehind hahead h
        · cases h
    · split at h
      · obtain ⟨⟨handle, c₂⟩, hhandle, h⟩ := Option.bind_eq_some_iff.1 h
        dsimp only at h
        split at h
        · cases h
        · obtain ⟨⟨uri, c₃⟩, huri, h⟩ := Option.bind_eq_some_iff.1 h
          have hahead := (hblank.trans (ahead_handle hhandle)).trans
            ((c₂.ahead_skip (· == ' ')).trans (ahead_uri huri))
          dsimp only at h
          split at h
          · exact hbehind hahead h
          · cases h
      · exact hbehind (hspan.trans (c₁.ahead_skip _)) h

end Signs

end Yaml
end Horn
