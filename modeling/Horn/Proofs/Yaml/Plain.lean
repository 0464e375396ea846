import Horn.Yaml.Token
import Mathlib.Data.List.Infix
import Mathlib.Data.List.TakeWhile

/-!
# Plain lines

A plain scalar is written without quotes, and what it says depends on where it ends. `isPlainLine`
tells which texts are plain scalars as they stand, if they are written on one line of their own:
`plain_line` says that such a text is read up to the end of its line, blanks inside of it included.
-/

namespace Horn

/-! ### Classes of characters -/

section Classes

variable {p : Char → Bool} {x : Char}

/-- A character of a class is no character that is not in it. -/
theorem ne_of_class (hx : p x = true) {y : Char} (hy : p y = false) : x ≠ y := by
  rintro rfl
  rw [hx] at hy
  cases hy

theorem contains_eq_false_of_class {signs : List Char} (hsigns : signs.all (!p ·) = true)
    (hx : p x = true) : signs.contains x = false := by
  rw [← Bool.not_eq_true, List.contains_iff_mem]
  exact fun hmem => ne_of_class hx (by simpa using List.all_eq_true.1 hsigns x hmem) rfl

end Classes

namespace Yaml

/-! ### Positions -/

namespace Cursor

variable {c : Cursor} {xs ys : List Char}

theorem next_of_rest {x : Char} (h : c.rest = x :: ys) (hx : isBreak x = false)
    (hmark : x ≠ '\uFEFF') : c.next = ⟨ys, c.index + 1, c.line, c.column + 1⟩ := by
  simp [next, h, hx, hmark]

/-- Behind characters that end no line. -/
theorem advance_word (h : c.rest = xs ++ ys) (hxs : ∀ x ∈ xs, isBreak x = false ∧ x ≠ '\uFEFF') :
    c.advance xs.length = ⟨ys, c.index + xs.length, c.line, c.column + xs.length⟩ := by
  induction xs generalizing c with
  | nil =>
    cases h
    rfl
  | cons x xs ih =>
    rw [List.forall_mem_cons] at hxs
    rw [List.length_cons, advance, next_of_rest h hxs.1.1 hxs.1.2, ih rfl hxs.2]
    simp [Nat.add_comm, Nat.add_left_comm]

/-- Behind characters that end no line. A byte order mark takes no column. -/
theorem advance_line (h : c.rest = xs ++ ys) (hxs : ∀ x ∈ xs, isBreak x = false) :
    ∃ column, c.column ≤ column ∧
      c.advance xs.length = ⟨ys, c.index + xs.length, c.line, column⟩ := by
  induction xs generalizing c with
  | nil =>
    cases h
    exact ⟨_, le_rfl, rfl⟩
  | cons x xs ih =>
    rw [List.forall_mem_cons] at hxs
    have hnext : c.next = ⟨xs ++ ys, c.index + 1, c.line,
        if x == '\uFEFF' then c.column else c.column + 1⟩ := by
      simp [next, h, hxs.1]
    obtain ⟨column, hcolumn, hadvance⟩ := ih (c := c.next) (by rw [hnext]) hxs.2
    rw [hnext] at hcolumn hadvance
    -- The byte order mark keeps the column, any other character adds one to it.
    refine ⟨column, ?_, ?_⟩
    · dsimp only at hcolumn
      split at hcolumn <;> omega
    · rw [List.length_cons, advance, hnext, hadvance]
      simp [Nat.add_comm, Nat.add_left_comm]

theorem advance_add (c : Cursor) (m n : Nat) : c.advance (m + n) = (c.advance m).advance n := by
  induction m generalizing c with
  | zero => rw [Nat.zero_add, advance]
  | succ m ih => rw [Nat.succ_add, advance, advance, ih]

/-- The characters of a class up to the first one that is not in it. -/
theorem span_eq {p : Char → Bool} {y : Char} (h : c.rest = xs ++ y :: ys)
    (hxs : ∀ x ∈ xs, p x = true) (hy : p y = false) : c.span p = (xs, c.advance xs.length) := by
  have htaken : c.rest.takeWhile p = xs := by
    rw [h, List.takeWhile_append_of_pos hxs, List.takeWhile_cons_of_neg (by simp [hy]),
      List.append_nil]
  rw [span, htaken]

end Cursor

/-! ### Lines -/

/-- Whether a text starts like a plain scalar outside of brackets. -/
def startsPlain : List Char → Bool
  | [] => false
  | x :: xs =>
    !(isBlankOrEnd x || "-?:,[]\x7b\x7d#&*!|>'\"%@`".toList.contains x)
      || (!isBlankOrEnd (xs.headD '\x00') && (x == '-' || x == '?' || x == ':'))

/-- Whether a character may stand in the line of a plain scalar. -/
def isLineChar (c : Char) : Bool := isAllowed c && !isBreak c && c != '\t' && c != '\r'

/-- Whether a text may go on in the line of a plain scalar: behind a colon there is something that
is no blank, and behind a blank something that is no number sign. -/
def continuesPlain : List Char → Bool
  | [] => true
  | x :: xs =>
    isLineChar x && (x != ':' || xs.headD ' ' != ' ') && (x != ' ' || xs.headD '#' != '#')
      && continuesPlain xs

/-- Whether a text is a plain scalar as it stands, on a line of its own. -/
def isPlainLine (w : List Char) : Bool := startsPlain w && continuesPlain w

section Lines

variable {x : Char} {w xs ys rest : List Char}

theorem continuesPlain_cons : continuesPlain (x :: xs) = true ↔
    (isLineChar x = true ∧ (x = ':' → xs.headD ' ' ≠ ' ') ∧ (x = ' ' → xs.headD '#' ≠ '#')) ∧
      continuesPlain xs = true := by
  simp only [continuesPlain, Bool.and_eq_true, Bool.or_eq_true, bne_iff_ne, and_assoc,
    Classical.or_iff_not_imp_left, not_not]

theorem continuesPlain_of_append (h : continuesPlain (xs ++ ys) = true) :
    continuesPlain ys = true := by
  induction xs with
  | nil => exact h
  | cons x xs ih => exact ih (continuesPlain_cons.1 h).2

/-- A line ends neither in a colon nor in a blank, so that it can go on. -/
theorem continuesPlain_append (hxs : continuesPlain xs = true) (hys : continuesPlain ys = true) :
    continuesPlain (xs ++ ys) = true := by
  induction xs with
  | nil => exact hys
  | cons x xs ih =>
    obtain ⟨⟨hx, hcolon, hspace⟩, hxs⟩ := continuesPlain_cons.1 hxs
    refine continuesPlain_cons.2 ⟨⟨hx, fun h => ?_, fun h => ?_⟩, ih hxs⟩
    · cases xs with
      | nil => exact absurd rfl (hcolon h)
      | cons y xs => exact hcolon h
    · cases xs with
      | nil => exact absurd rfl (hspace h)
      | cons y xs => exact hspace h

theorem isLineChar_of_mem (h : continuesPlain xs = true) : ∀ x ∈ xs, isLineChar x = true := by
  induction xs with
  | nil => exact List.forall_mem_nil _
  | cons x xs ih =>
    obtain ⟨⟨hx, -⟩, hxs⟩ := continuesPlain_cons.1 h
    exact List.forall_mem_cons.2 ⟨hx, ih hxs⟩

theorem isBreak_of_isLineChar (h : isLineChar x = true) : isBreak x = false := by
  simp only [isLineChar, Bool.and_eq_true, Bool.not_eq_true'] at h
  exact h.1.1.2

theorem isAllowed_of_isLineChar (h : isLineChar x = true) : isAllowed x = true := by
  simp only [isLineChar, Bool.and_eq_true] at h
  exact h.1.1.1

theorem ne_return_of_isLineChar (h : isLineChar x = true) : x ≠ '\r' := by
  simp only [isLineChar, Bool.and_eq_true, bne_iff_ne] at h
  exact h.2

/-- The only blank in a line is the space. -/
theorem isBlankOrEnd_of_isLineChar (h : isLineChar x = true) :
    isBlankOrEnd x = true ↔ x = ' ' := by
  have hbreak := isBreak_of_isLineChar h
  have hnull : x ≠ '\x00' := by
    rintro rfl
    revert h
    decide
  simp only [isLineChar, Bool.and_eq_true, bne_iff_ne] at h
  simp [isBlankOrEnd, isSpaceOrEnd, isEnd, hbreak, hnull, h.1.2]

theorem startsPlain_cons (h : startsPlain w = true) :
    ∃ x xs, w = x :: xs ∧ isBlankOrEnd x = false ∧ x ≠ '#' := by
  cases w with
  | nil => cases h
  | cons x xs =>
    refine ⟨x, xs, rfl, ?_, ?_⟩
    -- A sign that may start a line if no blank follows it is no blank itself.
    · by_contra hblank
      rw [Bool.not_eq_false] at hblank
      simp only [startsPlain, hblank, Bool.true_or, Bool.not_true, Bool.false_or, Bool.and_eq_true,
        Bool.or_eq_true, beq_iff_eq] at h
      rcases h.2 with (rfl | rfl) | rfl <;> exact absurd hblank (by decide)
    · rintro rfl
      revert h
      simp [startsPlain]

/-- Whether a plain scalar starts shows at its first word. -/
theorem startsPlain_append (h : startsPlain w = true) : startsPlain (w ++ ys) = true := by
  match w with
  | x :: y :: xs => exact h
  | [x] =>
    simp only [startsPlain, List.headD_nil, Bool.or_eq_true, Bool.and_eq_true] at h
    rcases h with h | h
    · simp only [List.cons_append, startsPlain, h, Bool.true_or]
    · exact absurd h.1 (by decide)

theorem startsPlain_of_append (hne : w ≠ []) (h : startsPlain (w ++ '\n' :: ys) = true) :
    startsPlain w = true := by
  match w with
  | x :: y :: xs => exact h
  | [x] => exact h

theorem isPlainLine_iff : isPlainLine w = true ↔
    startsPlain w = true ∧ continuesPlain w = true := by
  rw [isPlainLine, Bool.and_eq_true]

/-- Words whose characters are neither colons nor blanks. -/
theorem continuesPlain_of_word (h : ∀ x ∈ xs, isLineChar x = true ∧ x ≠ ':' ∧ x ≠ ' ') :
    continuesPlain xs = true := by
  induction xs with
  | nil => rfl
  | cons x xs ih =>
    rw [List.forall_mem_cons] at h
    exact continuesPlain_cons.2 ⟨⟨h.1.1, fun hx => absurd hx h.1.2.1, fun hx => absurd hx h.1.2.2⟩,
      ih h.2⟩

/-- Blanks and the signs that may start something other than a plain scalar, but for dashes. -/
def signs : List Char := " ?:,[]\x7b\x7d#&*!|>'\"%@`".toList

/-- Whether a character never ends a word, wherever it stands in a line. -/
def isWordChar (x : Char) : Bool := isLineChar x && !signs.contains x

/-- Whether a character stands for nothing but itself. Dashes and points may divide documents. -/
def isOrdinary (x : Char) : Bool := isWordChar x && x != '-' && x != '.'

theorem isLineChar_of_isWordChar (h : isWordChar x = true) : isLineChar x = true := by
  rw [isWordChar, Bool.and_eq_true] at h
  exact h.1

theorem isWordChar_of_isOrdinary (h : isOrdinary x = true) : isWordChar x = true := by
  rw [isOrdinary, Bool.and_eq_true, Bool.and_eq_true] at h
  exact h.1.1

theorem isLineChar_of_isOrdinary (h : isOrdinary x = true) : isLineChar x = true :=
  isLineChar_of_isWordChar (isWordChar_of_isOrdinary h)

/-- A class of characters without these signs. -/
theorem isWordChar_of_class {p : Char → Bool} (hsigns : signs.all (!p ·) = true)
    (hline : isLineChar x = true) (hx : p x = true) : isWordChar x = true := by
  rw [isWordChar, hline, contains_eq_false_of_class hsigns hx]
  rfl

theorem isBlankOrEnd_of_isWordChar (h : isWordChar x = true) : isBlankOrEnd x = false := by
  rw [← Bool.not_eq_true, isBlankOrEnd_of_isLineChar (isLineChar_of_isWordChar h)]
  exact ne_of_class h (by decide)

/-- **Words** are plain lines, unless they consist of nothing but a dash. -/
theorem isPlainLine_of_isWordChar (hne : w ≠ []) (hdash : w ≠ ['-'])
    (h : ∀ x ∈ w, isWordChar x = true) : isPlainLine w = true := by
  refine isPlainLine_iff.2 ⟨?_, continuesPlain_of_word fun x hx =>
    ⟨isLineChar_of_isWordChar (h x hx), ne_of_class (h x hx) (by decide),
      ne_of_class (h x hx) (by decide)⟩⟩
  obtain ⟨x, xs, rfl⟩ := List.exists_cons_of_ne_nil hne
  rw [List.forall_mem_cons] at h
  -- A dash starts a line only if no blank follows.
  by_cases hx : x = '-'
  · subst hx
    obtain ⟨y, ys, rfl⟩ := List.exists_cons_of_ne_nil fun hxs : xs = [] => hdash (by rw [hxs])
    have hy := isBlankOrEnd_of_isWordChar (h.2 y List.mem_cons_self)
    simp [startsPlain, hy]
  · have hsign : "-?:,[]\x7b\x7d#&*!|>'\"%@`".toList.contains x = false :=
      contains_eq_false_of_class (p := fun y => isWordChar y && y != '-') (by decide +kernel)
        (by simp [h.1, hx])
    rw [startsPlain, isBlankOrEnd_of_isWordChar h.1, hsign]
    rfl

theorem isPlainLine_of_isOrdinary (hne : w ≠ []) (h : ∀ x ∈ w, isOrdinary x = true) :
    isPlainLine w = true := by
  refine isPlainLine_of_isWordChar hne ?_ fun x hx => isWordChar_of_isOrdinary (h x hx)
  rintro rfl
  exact absurd (h '-' List.mem_cons_self) (by decide)

/-- A word of a line ends at a space, or where the line ends. -/
theorem plainLength_line (h : continuesPlain xs = true) (rest : List Char) :
    plainLength false (xs ++ '\n' :: rest) = (xs.takeWhile (· != ' ')).length := by
  induction xs with
  | nil => rfl
  | cons x xs ih =>
    obtain ⟨⟨hx, hcolon, -⟩, hxs⟩ := continuesPlain_cons.1 h
    rw [List.cons_append, plainLength, List.takeWhile_cons]
    by_cases hspace : x = ' '
    · subst hspace
      simp [plainStops, isBlankOrEnd, isSpaceOrEnd]
    · have hblank : isBlankOrEnd x = false := by
        rw [← Bool.not_eq_true, isBlankOrEnd_of_isLineChar hx]
        exact hspace
      have hstops : plainStops false x ((xs ++ '\n' :: rest).headD '\x00') = false := by
        simp only [plainStops, hblank, Bool.false_or, Bool.false_and, Bool.or_false,
          Bool.and_eq_false_iff, beq_eq_false_iff_ne]
        by_cases hx' : x = ':'
        · -- Behind the colon the word goes on.
          right
          cases xs with
          | nil => exact absurd rfl (hcolon hx')
          | cons y ys =>
            obtain ⟨⟨hy, -⟩, -⟩ := continuesPlain_cons.1 hxs
            rw [← Bool.not_eq_true, List.cons_append, List.headD_cons,
              isBlankOrEnd_of_isLineChar hy]
            exact hcolon hx'
        · exact .inl hx'
      have hword : (x != ' ') = true := bne_iff_ne.2 hspace
      rw [hstops, if_neg Bool.false_ne_true, ih hxs, if_pos hword, List.length_cons]

/-- Blanks inside of a line. -/
theorem gap_spaces {c : Cursor} (h : c.rest = ys ++ x :: rest) (hys : ∀ y ∈ ys, y = ' ')
    (hspace : x ≠ ' ') (hbreak : isBreak x = false) :
    gap c = ⟨ys, false, c.advance ys.length⟩ := by
  have hadvance : (c.advance ys.length).peek = x := by
    rw [Cursor.advance_word h fun y hy => hys y hy ▸ by decide]
    rfl
  rw [gap, Cursor.span_eq h (fun y hy => beq_iff_eq.2 (hys y hy)) (beq_eq_false_iff_ne.2 hspace)]
  dsimp only
  rw [hadvance, hbreak, if_neg Bool.false_ne_true]

/-- A line is one word, or it goes on behind blanks. -/
theorem exists_word (hline : continuesPlain xs = true) (hxs : xs ≠ []) :
    (∀ z ∈ xs, z ≠ ' ') ∨ ∃ word spaces y ys, xs = word ++ (spaces ++ y :: ys) ∧
      (∀ z ∈ word, z ≠ ' ') ∧ (∀ z ∈ spaces, z = ' ') ∧ spaces ≠ [] ∧ y ≠ ' ' ∧ y ≠ '#' := by
  induction xs with
  | nil => exact absurd rfl hxs
  | cons x xs ih =>
    obtain ⟨⟨-, -, hnumber⟩, hxs⟩ := continuesPlain_cons.1 hline
    cases xs with
    | nil =>
      left
      rintro _ (_ | ⟨_, ⟨⟩⟩) rfl
      exact hnumber rfl rfl
    | cons x' xs =>
      by_cases hx : x = ' '
      · right
        by_cases hx' : x' = ' '
        · -- The blank is not the last one.
          rcases ih hxs (List.cons_ne_nil _ _) with h | ⟨word, spaces, y, ys, h, hword, hrest⟩
          · exact absurd hx' (h _ List.mem_cons_self)
          · cases word with
            | nil =>
              exact ⟨[], x :: spaces, y, ys, by rw [h]; rfl, List.forall_mem_nil _,
                List.forall_mem_cons.2 ⟨hx, hrest.1⟩, List.cons_ne_nil _ _, hrest.2.2⟩
            | cons z word =>
              obtain ⟨rfl, -⟩ := List.cons.inj h
              exact absurd hx' (hword _ List.mem_cons_self)
        · exact ⟨[], [x], x', xs, rfl, List.forall_mem_nil _, List.forall_mem_singleton.2 hx,
            List.cons_ne_nil _ _, hx', hnumber hx⟩
      · rcases ih hxs (List.cons_ne_nil _ _) with h | ⟨word, spaces, y, ys, h, hword, hrest⟩
        · exact .inl (List.forall_mem_cons.2 ⟨hx, h⟩)
        · exact .inr ⟨x :: word, spaces, y, ys, by rw [h]; rfl,
            List.forall_mem_cons.2 ⟨hx, hword⟩, hrest⟩

/-- The first word of a plain scalar, and then the others, unless the scalar ends in the gap behind
it. -/
theorem plainWords_succ {flow : Bool} {indent : Int} {s : Scalar} {word spaces : List Char}
    {fuel : Nat} (hrest : s.cursor.rest = word ++ rest)
    (hlength : plainLength flow s.cursor.rest = word.length)
    (hhead : ∃ x xs, word = x :: xs ∧ x ≠ '#') :
    plainWords flow indent s spaces (fuel + 1) =
      let g := gap (s.cursor.advance word.length)
      if g.text.isEmpty || g.cursor.peek == '#'
          || (!flow && decide ((g.cursor.column : Int) < indent)) then
        ⟨s.text ++ spaces ++ word, g.broken, g.cursor⟩
      else
        plainWords flow indent ⟨s.text ++ spaces ++ word, g.broken, g.cursor⟩ g.text fuel := by
  obtain ⟨x, xs, rfl, hx⟩ := hhead
  have hgo : ¬(s.cursor.peek == '#' || (x :: xs).length == 0) = true := by
    rw [Cursor.peek, hrest]
    simp [hx]
  have htake : s.cursor.rest.take (x :: xs).length = x :: xs := by
    rw [hrest, List.take_left']
    rfl
  rw [plainWords]
  dsimp only
  rw [hlength, if_neg hgo, htake]

/-- **The words of a line,** from any of them on. What stands behind the line is not indented far
enough to belong to the scalar. -/
theorem plainWords_line {indent : Int} {s : Scalar} {spaces t : List Char} {c' : Cursor}
    {fuel : Nat}
    (hline : continuesPlain (x :: xs) = true) (hspace : x ≠ ' ') (hnumber : x ≠ '#')
    (hrest : s.cursor.rest = x :: xs ++ '\n' :: rest) (hindent : indent ≤ s.cursor.column)
    (hgap : gap (s.cursor.advance (x :: xs).length) = ⟨t, true, c'⟩)
    (hcolumn : (c'.column : Int) < indent) (hfuel : (x :: xs).length ≤ fuel) :
    plainWords false indent s spaces fuel = ⟨s.text ++ spaces ++ x :: xs, true, c'⟩ := by
  -- Each round reads one word, so the fuel goes down with the words that are left.
  induction fuel generalizing x xs s spaces with
  | zero => cases hfuel
  | succ fuel ih =>
    have hlength := plainLength_line hline rest
    rw [← hrest] at hlength
    rcases exists_word hline (List.cons_ne_nil x xs) with
      hword | ⟨word, blanks, y, ys, hsplit, hword, hblanks, hblank, hy, hy'⟩
    · -- One word, behind which the line ends.
      have htake : (x :: xs).takeWhile (· != ' ') = x :: xs :=
        List.takeWhile_eq_self_iff.2 fun z hz => bne_iff_ne.2 (hword z hz)
      rw [htake] at hlength
      rw [plainWords_succ hrest hlength ⟨x, xs, rfl, hnumber⟩, hgap]
      dsimp only
      rw [if_pos (by simp [hcolumn])]
    · -- Behind the first word there are blanks, and then the line goes on.
      have hrest' : s.cursor.rest = word ++ (blanks ++ y :: (ys ++ '\n' :: rest)) := by
        rw [hrest, hsplit]
        simp
      have hlines := isLineChar_of_mem hline
      rw [hsplit] at hlines hlength hline hgap hfuel
      have htake : (word ++ (blanks ++ y :: ys)).takeWhile (· != ' ') = word := by
        obtain ⟨z, zs, rfl⟩ := List.exists_cons_of_ne_nil hblank
        rw [List.takeWhile_append_of_pos fun z hz => bne_iff_ne.2 (hword z hz), List.cons_append,
          List.takeWhile_cons_of_neg (by simp [hblanks z List.mem_cons_self]), List.append_nil]
      rw [htake] at hlength
      -- The word is not empty, since the line does not start with a blank.
      have hhead : ∃ z zs, word = z :: zs ∧ z ≠ '#' := by
        cases word with
        | nil =>
          obtain ⟨z, zs, rfl⟩ := List.exists_cons_of_ne_nil hblank
          exact absurd ((List.cons.inj hsplit).1.trans (hblanks z List.mem_cons_self)) hspace
        | cons z zs => exact ⟨z, zs, rfl, (List.cons.inj hsplit).1 ▸ hnumber⟩
      obtain ⟨column, hcolumn', hadvance⟩ := Cursor.advance_line hrest' fun z hz =>
        isBreak_of_isLineChar (hlines z (List.mem_append_left _ hz))
      have hbreak : isBreak y = false :=
        isBreak_of_isLineChar (hlines y (by simp))
      have hgap' : gap (s.cursor.advance word.length) =
          ⟨blanks, false, (s.cursor.advance word.length).advance blanks.length⟩ :=
        gap_spaces (by rw [hadvance]) hblanks hy hbreak
      have hrest'' : (s.cursor.advance word.length).rest = blanks ++ y :: (ys ++ '\n' :: rest) := by
        rw [hadvance]
      have hbehind := Cursor.advance_word hrest'' fun z hz => hblanks z hz ▸ by decide
      rw [plainWords_succ hrest' hlength hhead, hgap']
      dsimp only
      -- None of the three reasons to stop applies: there are blanks, no comment starts behind them,
      -- and the next word is in the same line, so it is indented far enough.
      have hstay : ¬(blanks.isEmpty
          || ((s.cursor.advance word.length).advance blanks.length).peek == '#'
          || (!false && decide
            ((((s.cursor.advance word.length).advance blanks.length).column : Int) < indent))) =
              true := by
        rw [hbehind, hadvance]
        simp [Cursor.peek, hblank, hy']
        omega
      -- What is left is the rest of the line, from the next word on.
      rw [if_neg hstay, ih (continuesPlain_of_append (continuesPlain_of_append hline)) hy hy']
      · rw [hsplit]
        simp
      · rw [hbehind]
        rfl
      · rw [hbehind, hadvance]
        dsimp only
        omega
      · rw [← Cursor.advance_add, ← Cursor.advance_add, ← List.length_append, ← List.length_append]
        exact hgap
      · have hpositive := List.length_pos_iff.2 hblank
        simp only [List.length_append] at hfuel
        omega

/-- **A plain line** is read as a plain scalar, if what stands behind it is not indented far enough
to belong to the scalar. -/
theorem plain_line (indent : Int) {t : List Char} {c c' : Cursor} (hw : isPlainLine w = true)
    (hrest : c.rest = w ++ '\n' :: rest) (hindent : indent ≤ c.column)
    (hgap : gap (c.advance w.length) = ⟨t, true, c'⟩)
    (hcolumn : (c'.column : Int) < indent) : plain false indent c = ⟨w, true, c'⟩ := by
  rw [isPlainLine_iff] at hw
  obtain ⟨x, xs, rfl, hblank, hnumber⟩ := startsPlain_cons hw.1
  have hspace : x ≠ ' ' := by
    rintro rfl
    cases hblank
  have hfuel : (x :: xs).length ≤ c.rest.length := by
    rw [hrest, List.length_append]
    exact Nat.le_add_right _ _
  exact plainWords_line (s := ⟨[], false, c⟩) hw.2 hspace hnumber hrest hindent hgap hcolumn hfuel

end Lines

end Yaml
end Horn
