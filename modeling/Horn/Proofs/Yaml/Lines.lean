import Horn.Proofs.Yaml.Plain

/-!
# Scanning a document line by line

What the scanner makes of the lines of a document that consists of sections with entries. Outside of
brackets, where no key may have started before, its state is a position, the tokens so far and the
columns of the open collections (`Scanner.outside`). `Scanner.Reaches` relates two states of one
run.

* `reaches_key`: a word in front of a colon is a key. It may close collections, and it may open one.
* `reaches_value`: a plain line behind a key is its value.
* `reaches_section`: blanks and line ends in front of a key do not count.
-/

namespace Horn
namespace Yaml

namespace Cursor

variable {c : Cursor} {x : Char} {xs : List Char}

theorem peek_of_rest (h : c.rest = x :: xs) : c.peek = x := by rw [peek, h]; rfl

theorem atSeparator_eq_false (h : c.rest = x :: xs) (hdash : x ≠ '-') (hdot : x ≠ '.') :
    c.atSeparator = false := by
  rw [atSeparator, h]
  simp [hdash, hdot]

theorem peekAt_one (h : c.rest = x :: xs) : c.peekAt 1 = xs.headD '\x00' := by
  rw [peekAt, h]
  cases xs <;> rfl

end Cursor

namespace Scanner

variable {s s' s'' : Scanner} {m n : Nat} {x : Char} {xs : List Char}

/-! ### Runs -/

/-- Scanning from one state comes past another one after some tokens. -/
def Reaches (n : Nat) (s s' : Scanner) : Prop := ∀ fuel, s.scanAll? (n + fuel) = s'.scanAll? fuel

theorem Reaches.trans (h : Reaches m s s') (h' : Reaches n s' s'') : Reaches (m + n) s s'' := by
  intro fuel
  rw [Nat.add_assoc, h, h']

/-- Whether a character is the first one of a token. -/
def isContent (x : Char) : Bool := x != ' ' && x != '#' && !isEnd x

theorem isContent_iff : isContent x = true ↔
    (x ≠ ' ' ∧ x ≠ '#') ∧ x ≠ '\x00' ∧ isBreak x = false := by
  simp only [isContent, isEnd, Bool.and_eq_true, bne_iff_ne, Bool.not_eq_true',
    Bool.or_eq_false_iff, beq_eq_false_iff_ne]

/-- Blanks with no comment behind them. -/
theorem skipBlanks_succ {c : Cursor} (hskip : s.cursor.skip (· == ' ') = c) (hc : c.peek ≠ '#')
    (fuel : Nat) : s.skipBlanks (fuel + 1) = if isBreak c.peek then
      { s with cursor := c.lineBreak.2, keyAllowed := s.keyAllowed || !s.inFlow }.skipBlanks fuel
    else { s with cursor := c } := by
  have hcomment : ¬(c.peek == '#') = true := by rw [beq_iff_eq]; exact hc
  rw [skipBlanks, hskip]
  simp only [if_neg hcomment]

theorem skipBlanks_spaces {ys : List Char} (h : s.cursor.rest = ys ++ x :: xs)
    (hys : ∀ y ∈ ys, y = ' ') (hx : isContent x = true) (fuel : Nat) :
    s.skipBlanks (fuel + 1) = { s with cursor := s.cursor.advance ys.length } := by
  obtain ⟨⟨hspace, hnumber⟩, -, hbreak⟩ := isContent_iff.1 hx
  have hskip : s.cursor.skip (· == ' ') = s.cursor.advance ys.length := by
    rw [Cursor.skip, Cursor.span_eq h (fun y hy => beq_iff_eq.2 (hys y hy)) (by simp [hspace])]
  have hpeek : (s.cursor.advance ys.length).peek = x := by
    rw [Cursor.advance_word h fun y hy => hys y hy ▸ by decide]
    rfl
  rw [skipBlanks_succ hskip (hpeek.symm ▸ hnumber), hpeek, hbreak, if_neg Bool.false_ne_true]

theorem skipBlanks_content (h : s.cursor.rest = x :: xs) (hx : isContent x = true) (fuel : Nat) :
    s.skipBlanks (fuel + 1) = s :=
  skipBlanks_spaces (show _ = [] ++ x :: xs from h) (List.forall_mem_nil _) hx fuel

theorem skipBlanks_lineFeed (h : s.cursor.rest = '\n' :: xs) (fuel : Nat) :
    s.skipBlanks (fuel + 1) = { s with
      cursor := ⟨xs, s.cursor.index + 1, s.cursor.line + 1, 0⟩
      keyAllowed := s.keyAllowed || !s.inFlow }.skipBlanks fuel := by
  have hskip : s.cursor.skip (· == ' ') = s.cursor := by
    rw [Cursor.skip, Cursor.span_eq (show _ = [] ++ '\n' :: xs from h) (List.forall_mem_nil _)
      (by decide)]
    rfl
  have hpeek := Cursor.peek_of_rest h
  have hnext : s.cursor.lineBreak.2 = ⟨xs, s.cursor.index + 1, s.cursor.line + 1, 0⟩ := by
    rw [Cursor.lineBreak, hpeek, if_pos (by decide), Cursor.next, h]
    rfl
  rw [skipBlanks_succ hskip (by rw [hpeek]; decide), hpeek, if_pos (by decide), hnext]

/-- A comment line. -/
theorem skipBlanks_comment {ys : List Char} (h : s.cursor.rest = '#' :: ys ++ '\n' :: xs)
    (hys : ∀ y ∈ ys, isEnd y = false ∧ y ≠ '\uFEFF') (fuel : Nat) :
    s.skipBlanks (fuel + 1) = { s with
      cursor := ⟨xs, s.cursor.index + ys.length + 2, s.cursor.line + 1, 0⟩
      keyAllowed := s.keyAllowed || !s.inFlow }.skipBlanks fuel := by
  have hskip : s.cursor.skip (· == ' ') = s.cursor := by
    rw [Cursor.skip, Cursor.span_eq (show _ = [] ++ '#' :: (ys ++ '\n' :: xs) from h)
      (List.forall_mem_nil _) (by decide)]
    -- There are no blanks in front of the number sign, and the comment goes up to the line feed.
    rfl
  have hline : ∀ y ∈ '#' :: ys, isEnd y = false ∧ y ≠ '\uFEFF' :=
    List.forall_mem_cons.2 ⟨by decide, hys⟩
  have hcomment : s.cursor.skip (!isEnd ·) =
      ⟨'\n' :: xs, s.cursor.index + (ys.length + 1), s.cursor.line,
        s.cursor.column + (ys.length + 1)⟩ := by
    rw [Cursor.skip, Cursor.span_eq h (fun y hy => by simp [(hline y hy).1]) (by decide)]
    refine Cursor.advance_word h fun y hy => ⟨?_, (hline y hy).2⟩
    exact (Bool.or_eq_false_iff.1 (hline y hy).1).2
  rw [skipBlanks, hskip, Cursor.peek_of_rest h]
  simp only [beq_self_eq_true, if_true, hcomment]
  rfl

theorem dropStale?_fresh (hflow : s.flowKeys = [])
    (hkey : ∀ k ∈ s.blockKey, stale s.cursor k = false) : s.dropStale? = some s := by
  obtain ⟨c, tokens, indents, allowed, blockKey, flowKeys⟩ := s
  cases hflow
  cases blockKey with
  | none => rfl
  | some k => simp [dropStale?, hkey k rfl]

theorem cursor_closeTo (s : Scanner) (column : Int) : (s.closeTo column).cursor = s.cursor := by
  unfold closeTo
  split <;> rfl

/-- Collections that are indented further are closed. -/
theorem closeTo_eq (closed kept : List Nat) {column : Nat} (hflow : s.flowKeys = [])
    (hindents : s.indents = closed ++ kept) (hclosed : ∀ i ∈ closed, column < i)
    (hkept : ∀ i ∈ kept.head?, i ≤ column) :
    s.closeTo column = { s with
      indents := kept
      tokens := s.tokens ++ (closed.map fun _ => Token.blockEnd).toArray } := by
  -- The indentations descend, so those further in than the column are the ones in front.
  have htaken : (s.indents.takeWhile fun i : Nat => decide ((column : Int) < i)) = closed := by
    rw [hindents, List.takeWhile_append_of_pos fun i hi => by
      simpa using hclosed i hi]
    cases kept with
    | nil => simp
    | cons i kept =>
      have hi : ¬((column : Int) < i) := by
        have := hkept i rfl
        omega
      rw [List.takeWhile_cons_of_neg (by simpa using hi), List.append_nil]
  rw [closeTo, inFlow, hflow]
  dsimp only
  rw [htaken, hindents, List.drop_left']
  · simp
  · rfl

/-- Nothing is closed at a column that is indented far enough. -/
theorem closeTo_same {column : Nat} (hflow : s.flowKeys = [])
    (hkept : ∀ i ∈ s.indents.head?, i ≤ column) : s.closeTo column = s := by
  rw [closeTo_eq [] s.indents hflow rfl (List.forall_mem_nil _) hkept]
  simp

/-- **One round** of the scanner, at a position where a token starts. -/
theorem reaches_round {s₁ s₂ : Scanner} (hrest : s.cursor.rest = x :: xs) (hx : isContent x = true)
    (hflow : s.flowKeys = []) (hkey : ∀ k ∈ s.blockKey, stale s.cursor k = false)
    (hclose : s.closeTo s.cursor.column = s₁) (htoken : s₁.scanToken? = some s₂) :
    Reaches 1 s s₂ := by
  intro fuel
  rw [Nat.add_comm, scanAll?, skipBlanks_content hrest hx, dropStale?_fresh hflow hkey]
  dsimp only [bind, Option.bind]
  have hcursor : s₁.cursor.rest.isEmpty = false := by rw [← hclose, cursor_closeTo, hrest]; rfl
  rw [hclose, hcursor, if_neg Bool.false_ne_true, htoken]

/-- Where two states skip to the same one, it does not matter from which of them scanning starts. -/
theorem reaches_of_skipBlanks
    (h : s.skipBlanks (s.cursor.rest.length + 1) = s'.skipBlanks (s'.cursor.rest.length + 1)) :
    Reaches 0 s s' := by
  intro fuel
  rw [Nat.zero_add]
  cases fuel with
  | zero => rfl
  | succ fuel => rw [scanAll?, scanAll?, h]

/-! ### Tokens -/

/-- Outside of brackets, plain scalars start as texts on a line of their own do. -/
theorem plainStarts_eq (hflow : s.inFlow = false) : s.plainStarts = startsPlain s.cursor.rest := by
  cases hrest : s.cursor.rest with
  | nil => rw [plainStarts, Cursor.peek, Cursor.peekAt, hrest]; rfl
  | cons x xs =>
    rw [plainStarts, Cursor.peek_of_rest hrest, Cursor.peekAt_one hrest, hflow, startsPlain]
    simp [Bool.or_assoc]

/-- Outside of brackets, a plain scalar is read wherever one may start. -/
theorem scanToken?_plain (hflow : s.flowKeys = []) (hstarts : startsPlain s.cursor.rest = true)
    (hcolumn : s.cursor.column = 0 → s.cursor.peek ≠ '%' ∧ s.cursor.atSeparator = false) :
    s.scanToken? = s.scanPlain? := by
  obtain ⟨x, xs, hrest, hblank, -⟩ := startsPlain_cons hstarts
  have hpeek := Cursor.peek_of_rest hrest
  have hflow' : s.inFlow = false := by rw [inFlow, hflow]; rfl
  have hstarts' : s.plainStarts = true := by rw [plainStarts_eq hflow', hstarts]
  have hseparator : ¬(s.cursor.column == 0 && s.cursor.peek == '%') = true := by
    simp only [Bool.and_eq_true, beq_iff_eq, not_and]
    exact fun h => (hcolumn h).1
  have hseparator' : ¬(s.cursor.column == 0 && s.cursor.atSeparator) = true := by
    simp only [Bool.and_eq_true, beq_iff_eq, not_and, Bool.not_eq_true]
    exact fun h => (hcolumn h).2
  rw [hrest] at hstarts
  rw [scanToken?]
  dsimp only
  rw [if_neg hseparator, if_neg hseparator', hpeek, Cursor.peekAt_one hrest, hflow', hstarts']
  -- An indicator starts a plain scalar only if a word goes on behind it.
  have hsign : x = '-' ∨ x = '?' ∨ x = ':' → isBlankOrEnd (xs.headD '\x00') = false := by
    intro hx
    rcases hx with rfl | rfl | rfl <;>
      simpa [startsPlain, isBlankOrEnd, isSpaceOrEnd, isEnd, isBreak] using hstarts
  have hblock : x ≠ '|' ∧ x ≠ '>' := by
    constructor <;>
    · rintro rfl
      simp [startsPlain] at hstarts
  split
  case h_11 =>
    have hends : ∀ y : Char, y = '-' ∨ y = '?' ∨ y = ':' →
        (x == y && isBlankOrEnd (xs.headD '\x00')) = false := by
      intro y hy
      rw [Bool.and_eq_false_iff, beq_eq_false_iff_ne]
      by_cases hxy : x = y
      · exact .inr (hsign (hxy ▸ hy))
      · exact .inl hxy
    simp only [Bool.false_or, hends '-' (.inl rfl), hends '?' (.inr (.inl rfl)),
      hends ':' (.inr (.inr rfl)), beq_eq_false_iff_ne.2 hblock.1, beq_eq_false_iff_ne.2 hblock.2,
      Bool.false_and, Bool.false_eq_true, if_false, if_true]
  all_goals simp [startsPlain] at hstarts

/-! ### States outside of brackets -/

/-- The state outside of brackets, where no key may have started before. -/
def outside (c : Cursor) (tokens : List Token) (indents : List Nat) (keyAllowed : Bool) : Scanner :=
  ⟨c, tokens.toArray, indents, keyAllowed, none, []⟩

/-- The tokens of a text, from some state on that the scanner comes past. -/
theorem ofText?_of_reaches {text : String} (hallowed : ∀ x ∈ text.toList, isAllowed x = true)
    (hrest : text.toList = x :: xs) (hx : x ≠ '\uFEFF')
    (hreaches : Reaches n (outside ⟨text.toList, 0, 0, 0⟩ [] [] true) s) (hn : n ≤ text.length) :
    Token.ofText? text = (s.scanAll? (text.length - n + 1)).map (·.tokens.toList) := by
  have hmark : ¬((start text).cursor.peek == '\uFEFF') = true := by
    rw [Cursor.peek_of_rest (c := (start text).cursor) hrest, beq_iff_eq]
    exact hx
  have hfuel : text.length + 1 = n + (text.length - n + 1) := by omega
  rw [Token.ofText?, if_pos (List.all_eq_true.2 hallowed)]
  dsimp only
  rw [if_neg hmark, hfuel, ← hreaches]
  rfl

theorem closeTo_outside {c : Cursor} {tokens : List Token} (closed kept : List Nat) {allowed : Bool}
    (hclosed : ∀ i ∈ closed, c.column < i) (hkept : ∀ i ∈ kept.head?, i ≤ c.column) :
    (outside c tokens (closed ++ kept) allowed).closeTo c.column =
      outside c (tokens ++ closed.map fun _ => .blockEnd) kept allowed := by
  rw [closeTo_eq closed kept rfl rfl hclosed hkept]
  simp [outside]

/-- A plain scalar that may turn out to be a key. -/
theorem scanPlain?_key {c : Cursor} {tokens : List Token} {indents : List Nat} :
    (outside c tokens indents true).scanPlain? =
      let x := plain false ((outside c tokens indents true).indent + 1) c
      some ⟨x.cursor, (tokens ++ [Token.scalar (String.ofList x.text) true]).toArray, indents,
        x.keyAllowed, some ⟨tokens.length, (outside c tokens indents true).indent == c.column,
          c.index, c.line, c.column⟩, []⟩ := by
  dsimp only
  rw [← List.push_toArray]
  rfl

/-- A plain scalar that is no key. -/
theorem scanPlain?_value {c : Cursor} {tokens : List Token} {indents : List Nat} :
    (outside c tokens indents false).scanPlain? =
      let x := plain false ((outside c tokens indents false).indent + 1) c
      some (outside x.cursor (tokens ++ [.scalar (String.ofList x.text) true]) indents
        x.keyAllowed) := by
  unfold outside
  dsimp only
  rw [← List.push_toArray]
  rfl

/-- Whether a text is a simple word, as keys are. -/
def isKeyWord (k : List Char) : Bool :=
  (k.headD ' ').isAlpha && k.all (fun y => y.isAlpha || y == '-') && decide (k.length ≤ 1024)

section Keys

variable {k : List Char}

theorem isKeyWord_cons (hk : isKeyWord k = true) : ∃ y ys, k = y :: ys ∧ y.isAlpha = true ∧
    (∀ z ∈ k, ∀ e : Char, (e.isAlpha || e == '-') = false → z ≠ e) ∧ k.length ≤ 1024 := by
  simp only [isKeyWord, Bool.and_eq_true, List.all_eq_true, decide_eq_true_eq] at hk
  cases k with
  | nil => exact absurd hk.1.1 (by decide)
  | cons y ys =>
    refine ⟨y, ys, rfl, hk.1.1, ?_, hk.2⟩
    rintro z hz _ he rfl
    rw [hk.1.2 z hz] at he
    cases he

/-- A key starts with the first character of a token, and never with a sign. -/
theorem exists_content (hk : isKeyWord k = true) (more : List Char) : ∃ x xs, k ++ more = x :: xs ∧
    isContent x = true ∧ x ≠ '-' ∧ x ≠ '.' := by
  obtain ⟨y, ys, rfl, halpha, hne, -⟩ := isKeyWord_cons hk
  have hy := hne y List.mem_cons_self
  refine ⟨y, ys ++ more, rfl, ?_, ?_, hy '.' rfl⟩
  · simp [isContent_iff, isBreak, hy _]
  · rintro rfl
    cases halpha

theorem isLineChar_of_key (hk : isKeyWord k = true) : ∀ y ∈ k, isLineChar y = true := by
  intro y hy
  obtain ⟨-, -, -, -, hne, -⟩ := isKeyWord_cons hk
  have hallowed : isAllowed y = true := by
    simp only [isKeyWord, Bool.and_eq_true, List.all_eq_true, decide_eq_true_eq] at hk
    have hletter := hk.1.2 y hy
    unfold Char.isAlpha Char.isUpper Char.isLower at hletter
    simp only [Bool.or_eq_true, Bool.and_eq_true, decide_eq_true_eq, beq_iff_eq, ge_iff_le,
      UInt32.le_iff_toNat_le] at hletter
    -- Letters lie in two ranges of the characters that are allowed, and the underscore is one of
    -- them.
    rcases hletter with (h | h) | rfl
    · have hrange : 65 ≤ y.toNat ∧ y.toNat ≤ 90 := h
      simp [isAllowed]
      omega
    · have hrange : 97 ≤ y.toNat ∧ y.toNat ≤ 122 := h
      simp [isAllowed]
      omega
    · decide
  simp [isLineChar, hallowed, isBreak, hne y hy]

theorem isPlainLine_of_key (hk : isKeyWord k = true) : isPlainLine k = true := by
  have hline := isLineChar_of_key hk
  obtain ⟨y, ys, rfl, halpha, -⟩ := isKeyWord_cons hk
  simp only [isKeyWord, Bool.and_eq_true, List.all_eq_true] at hk
  refine isPlainLine_of_isWordChar (List.cons_ne_nil y ys) ?_ fun z hz =>
    isWordChar_of_class (p := fun e => e.isAlpha || e == '-') (by decide +kernel) (hline z hz)
      (hk.1.2 z hz)
  intro hdash
  rw [(List.cons.inj hdash).1] at halpha
  cases halpha

/-- A word ends at a colon with a blank behind it. -/
theorem plainLength_key (hk : ∀ z ∈ k, ∀ e : Char, (e.isAlpha || e == '-') = false → z ≠ e)
    (hx : isBlankOrEnd x = true) : plainLength false (k ++ ':' :: x :: xs) = k.length := by
  induction k with
  | nil => simp [plainLength, plainStops, hx]
  | cons y k ih =>
    rw [List.forall_mem_cons] at hk
    have hstops : plainStops false y ((k ++ ':' :: x :: xs).headD '\x00') = false := by
      simp [plainStops, isBlankOrEnd, isSpaceOrEnd, isEnd, isBreak, hk.1 _]
    rw [List.cons_append, plainLength, hstops, if_neg Bool.false_ne_true, ih hk.2, List.length_cons]

/-- A key is read up to its colon. -/
theorem plain_key {c : Cursor} (hk : isKeyWord k = true) (hx : isBlankOrEnd x = true)
    (hrest : c.rest = k ++ ':' :: x :: xs) (indent : Int) :
    plain false indent c = ⟨k, false, c.advance k.length⟩ := by
  obtain ⟨y, ys, rfl, -, hne, -⟩ := isKeyWord_cons hk
  have hlength : plainLength false c.rest = (y :: ys).length := by
    rw [hrest, plainLength_key hne hx]
  -- No character of the key ends a line, so the cursor stays on it.
  have hbehind := Cursor.advance_word hrest fun z hz =>
    ⟨by simp [isBreak, hne z hz _], hne z hz _ rfl⟩
  -- The colon follows at once: the gap is empty, and no further word starts there.
  have hgap : gap (c.advance (y :: ys).length) = ⟨[], false, c.advance (y :: ys).length⟩ :=
    gap_spaces (show _ = [] ++ ':' :: x :: xs by rw [hbehind]; rfl) (List.forall_mem_nil _)
      (by decide) (by decide)
  rw [plain, hrest]
  change plainWords false indent ⟨[], false, c⟩ [] (_ + 1) = _
  rw [plainWords_succ hrest hlength ⟨y, ys, rfl, hne y List.mem_cons_self _ rfl⟩, hgap]
  rfl

theorem insert_append {T rest : List Token} {t : Token} {c : Cursor} {indents : List Nat}
    {allowed : Bool} {blockKey : Option PossibleKey} :
    insert ⟨c, (T ++ rest).toArray, indents, allowed, blockKey, []⟩ T.length t =
      ⟨c, (T ++ t :: rest).toArray, indents, allowed, blockKey, []⟩ := by
  have hlist : (T ++ rest).insertIdx T.length t = T ++ t :: rest := by
    induction T with
    | nil => rfl
    | cons u T ih => rw [List.cons_append, List.length_cons, List.insertIdx_succ_cons, ih]; rfl
  rw [insert]
  dsimp only
  rw [hlist]

/-- Outside of brackets, a collection is opened in front of a key that is indented further. -/
theorem opens_iff {kept : List Nat} {column : Nat} (hkept : ∀ i ∈ kept.head?, i ≤ column)
    {s : Scanner} (hindents : s.indents = kept) :
    s.opens column = true ↔ kept.head? ≠ some column := by
  rw [opens, indent, hindents, decide_eq_true_eq]
  cases kept with
  | nil =>
    simp
    omega
  | cons i kept =>
    have := hkept i rfl
    simp
    omega

/-- The colon behind a key. -/
theorem scanToken?_colon {c : Cursor} {tokens : List Token} {kept : List Nat} {key : PossibleKey}
    {t : Token} (hrest : c.rest = ':' :: x :: xs) (hx : isBlankOrEnd x = true)
    (hposition : key.position = tokens.length) (hkept : ∀ i ∈ kept.head?, i ≤ key.column) :
    scanToken? ⟨c, (tokens ++ [t]).toArray, kept, false, some key, []⟩ =
      some (outside c.next
        (tokens ++ (if kept.head? = some key.column then [] else [.blockMapping])
          ++ [.key, t, .value])
        (if kept.head? = some key.column then kept else key.column :: kept) false) := by
  -- The colon is no other sign, since a blank follows it.
  have hcolon : scanToken? ⟨c, (tokens ++ [t]).toArray, kept, false, some key, []⟩ =
      scanColon? ⟨c, (tokens ++ [t]).toArray, kept, false, some key, []⟩ := by
    have hpeek := Cursor.peek_of_rest hrest
    have hpeek' := Cursor.peekAt_one hrest
    rw [scanToken?]
    dsimp only
    rw [hpeek, hpeek', Cursor.atSeparator_eq_false hrest (by decide) (by decide)]
    simp [hx]
  -- With a possible key at hand, the sign of the key goes in front of its scalar.
  have hkey : ∀ s : Scanner, s = insert ⟨c, (tokens ++ [t]).toArray, kept, false, none, []⟩
      key.position .key → scanColon? ⟨c, (tokens ++ [t]).toArray, kept, false, some key, []⟩ =
        let s := if s.opens key.column then
          (s.open' key.column).insert key.position .blockMapping else s
        some { s.emitSign .value with keyAllowed := false } := by
    rintro _ rfl
    rfl
  have hinsert : insert ⟨c, (tokens ++ [t]).toArray, kept, false, none, []⟩ key.position .key =
      ⟨c, (tokens ++ [.key, t]).toArray, kept, false, none, []⟩ := by
    rw [hposition, insert_append]
  rw [hcolon, hkey _ rfl, hinsert]
  -- A map is opened unless the column is the one of the innermost collection.
  by_cases hopens : kept.head? = some key.column
  · rw [if_neg fun h => (opens_iff hkept rfl).1 h hopens, if_pos hopens, if_pos hopens]
    simp [emitSign, emit, outside]
  · rw [if_pos ((opens_iff hkept rfl).2 hopens), if_neg hopens, if_neg hopens, open', hposition,
      insert_append]
    simp [emitSign, emit, outside]


/-- **A key.** It closes the collections that are indented further, and it opens one unless there is
one at its column. -/
theorem reaches_key {i l : Nat} (column : Nat) (tokens : List Token) (closed kept : List Nat)
    (xs : List Char) (hk : isKeyWord k = true) (hx : isBlankOrEnd x = true)
    (hclosed : ∀ i ∈ closed, column < i)
    (hkept : ∀ i ∈ kept.head?, i ≤ column) :
    Reaches 2 (outside ⟨k ++ ':' :: x :: xs, i, l, column⟩ tokens (closed ++ kept) true)
      (outside ⟨x :: xs, i + k.length + 1, l, column + k.length + 1⟩
        (tokens ++ closed.map (fun _ => .blockEnd)
          ++ (if kept.head? = some column then [] else [.blockMapping])
          ++ [.key, .scalar (String.ofList k) true, .value])
        (if kept.head? = some column then kept else column :: kept) false) := by
  obtain ⟨y, ys, hcons, halpha, hne, hlength⟩ := isKeyWord_cons hk
  obtain ⟨T, hT⟩ : ∃ T, T = tokens ++ closed.map fun _ => Token.blockEnd := ⟨_, rfl⟩
  have hy : ∀ e : Char, (e.isAlpha || e == '-') = false → y ≠ e :=
    hne y (hcons ▸ List.mem_cons_self)
  have hdash : y ≠ '-' := by
    rintro rfl
    cases halpha
  -- The scanner notes that a key may have started, and reads a scalar.
  have hword : Reaches 1 (outside ⟨k ++ ':' :: x :: xs, i, l, column⟩ tokens (closed ++ kept) true)
      ⟨⟨':' :: x :: xs, i + k.length, l, column + k.length⟩,
        (T ++ [Token.scalar (String.ofList k) true]).toArray, kept, false,
        some ⟨T.length, (outside ⟨[], 0, 0, 0⟩ [] kept true).indent == column,
          i, l, column⟩, []⟩ := by
    refine reaches_round (show _ = y :: (ys ++ ':' :: x :: xs) by rw [hcons]; rfl) ?_ rfl
      (fun _ h => by cases h) (closeTo_outside closed kept hclosed hkept) ?_
    · simp [isContent_iff, isBreak, hy _]
    · have hstarts : startsPlain (k ++ ':' :: x :: xs) = true := by
        rw [hcons, List.cons_append, startsPlain]
        simp [isBlankOrEnd, isSpaceOrEnd, isEnd, isBreak, hy _, hdash]
      have hbehind := Cursor.advance_word (c := ⟨k ++ ':' :: x :: xs, i, l, column⟩) rfl fun z hz =>
        ⟨by simp [isBreak, hne z hz _], hne z hz '\uFEFF' rfl⟩
      rw [scanToken?_plain rfl hstarts]
      · rw [← hT, scanPlain?_key]
        dsimp only
        rw [plain_key hk hx rfl, hbehind]
        rfl
      · intro _
        have hrest : k ++ ':' :: x :: xs = y :: (ys ++ ':' :: x :: xs) := by rw [hcons]; rfl
        refine ⟨?_, Cursor.atSeparator_eq_false hrest hdash (hy '.' rfl)⟩
        change (k ++ ':' :: x :: xs).headD '\x00' ≠ '%'
        rw [hrest]
        exact hy '%' rfl
  -- At the colon it comes back to the key.
  refine hword.trans (reaches_round rfl (by decide) rfl ?_ (closeTo_same rfl
    fun i hi => (hkept i hi).trans (Nat.le_add_right _ _)) ?_)
  · rintro _ ⟨⟩
    simp [stale]
    omega
  · rw [← hT]
    exact scanToken?_colon rfl hx rfl hkept

end Keys

/-! ### Values and line ends -/

theorem reaches_spaces (ys : List Char) {i l column : Nat} {tokens : List Token}
    {indents : List Nat} {allowed : Bool} (hys : ∀ y ∈ ys, y = ' ') (hx : isContent x = true) :
    Reaches 0 (outside ⟨ys ++ x :: xs, i, l, column⟩ tokens indents allowed)
      (outside ⟨x :: xs, i + ys.length, l, column + ys.length⟩ tokens indents allowed) := by
  have hbehind := Cursor.advance_word (c := ⟨ys ++ x :: xs, i, l, column⟩) rfl fun y hy =>
    hys y hy ▸ by decide
  refine reaches_of_skipBlanks ?_
  rw [skipBlanks_spaces (show _ = ys ++ x :: xs from rfl) hys hx,
    skipBlanks_content (show _ = x :: xs from rfl) hx]
  dsimp only [outside]
  rw [hbehind]

/-- **The entries of a section** start on a new line. -/
theorem reaches_section {k more : List Char} {i l column : Nat} {tokens : List Token}
    {indents : List Nat} {allowed : Bool} (hk : isKeyWord k = true) :
    Reaches 0 (outside ⟨'\n' :: ' ' :: ' ' :: (k ++ more), i, l, column⟩ tokens indents allowed)
      (outside ⟨k ++ more, i + 3, l + 1, 2⟩ tokens indents true) := by
  obtain ⟨x, xs, hcons, hx, -⟩ := exists_content hk more
  rw [hcons]
  have hspaces : ∀ y ∈ [' ', ' '], y = ' ' := by simp
  refine reaches_of_skipBlanks ?_
  rw [skipBlanks_lineFeed (show _ = '\n' :: ' ' :: ' ' :: x :: xs from rfl),
    skipBlanks_content (s := outside ⟨x :: xs, i + 3, l + 1, 2⟩ _ _ _)
      (show _ = x :: xs from rfl) hx]
  refine (skipBlanks_spaces (show _ = [' ', ' '] ++ x :: xs from rfl) hspaces hx _).trans ?_
  cases allowed <;> rfl

/-- What stands behind a line, and the column where it stands: the gap behind a word goes so far. -/
def LineEnds (rest rest' : List Char) (column : Nat) : Prop :=
  ∀ c : Cursor, c.rest = rest → ∃ t i l, gap c = ⟨t, true, ⟨rest', i, l, column⟩⟩

theorem gapBreaks_content {c : Cursor} (h : c.rest = x :: xs) (hx : isContent x = true)
    (breaks : List Char) (fuel : Nat) : gapBreaks c breaks fuel = (breaks, false, c) := by
  obtain ⟨⟨hspace, -⟩, -, hbreak⟩ := isContent_iff.1 hx
  cases fuel with
  | zero => rfl
  | succ fuel =>
    rw [gapBreaks, Cursor.peek_of_rest h, if_neg (by simpa using hspace), if_neg (by simp [hbreak])]

/-- The gap behind a word at the end of a line. -/
theorem gap_lineFeed {c c' : Cursor} {breaks : List Char} (h : c.rest = '\n' :: xs)
    (hseparator : Cursor.atSeparator ⟨xs, c.index + 1, c.line + 1, 0⟩ = false)
    (hbreaks : gapBreaks ⟨xs, c.index + 1, c.line + 1, 0⟩ [] xs.length = (breaks, false, c')) :
    gap c = ⟨fold ['\n'] breaks, true, c'⟩ := by
  have hspan : c.span (· == ' ') = ([], c) :=
    Cursor.span_eq (show _ = [] ++ '\n' :: xs from h) (List.forall_mem_nil _) rfl
  have hbreak : c.lineBreak = (['\n'], ⟨xs, c.index + 1, c.line + 1, 0⟩) := by
    rw [Cursor.lineBreak, Cursor.peek_of_rest h, if_pos (by decide), Cursor.next, h]
    rfl
  rw [gap, hspan]
  dsimp only
  rw [Cursor.peek_of_rest h, if_pos (by decide), hbreak]
  dsimp only
  rw [hseparator, if_neg Bool.false_ne_true, hbreaks]
  rfl

/-- The next line is one of the same section. -/
theorem lineEnds_entry {k : List Char} (hk : isKeyWord k = true) (more : List Char) :
    LineEnds ('\n' :: ' ' :: ' ' :: (k ++ more)) (k ++ more) 2 := by
  obtain ⟨x, xs, hcons, hx, -⟩ := exists_content hk more
  rw [hcons]
  intro c h
  have hbreaks : gapBreaks ⟨' ' :: ' ' :: x :: xs, c.index + 1, c.line + 1, 0⟩ []
      (' ' :: ' ' :: x :: xs).length = ([], false, ⟨x :: xs, c.index + 3, c.line + 1, 2⟩) :=
    gapBreaks_content (c := ⟨x :: xs, c.index + 3, c.line + 1, 2⟩) rfl hx [] (xs.length + 1)
  exact ⟨_, _, _, gap_lineFeed h (Cursor.atSeparator_eq_false rfl (by decide) (by decide)) hbreaks⟩

/-- The next line is empty, and the one behind it starts a section. -/
theorem lineEnds_section {k : List Char} (hk : isKeyWord k = true) (more : List Char) :
    LineEnds ('\n' :: '\n' :: (k ++ more)) (k ++ more) 0 := by
  obtain ⟨x, xs, hcons, hx, hdash, hdot⟩ := exists_content hk more
  rw [hcons]
  intro c h
  have hseparator : Cursor.atSeparator ⟨x :: xs, c.index + 2, c.line + 2, 0⟩ = false :=
    Cursor.atSeparator_eq_false rfl hdash hdot
  -- One line end more, then the content of the next section stops the gap.
  have hbreaks : gapBreaks ⟨'\n' :: x :: xs, c.index + 1, c.line + 1, 0⟩ []
      ('\n' :: x :: xs).length = (['\n'], false, ⟨x :: xs, c.index + 2, c.line + 2, 0⟩) := by
    change (if Cursor.atSeparator ⟨x :: xs, c.index + 2, c.line + 2, 0⟩ then _ else
      gapBreaks ⟨x :: xs, c.index + 2, c.line + 2, 0⟩ ['\n'] (xs.length + 1)) = _
    rw [hseparator, if_neg Bool.false_ne_true]
    exact gapBreaks_content rfl hx _ _
  exact ⟨_, _, _, gap_lineFeed h (Cursor.atSeparator_eq_false rfl (by decide) (by decide)) hbreaks⟩

/-- There is no further line. -/
theorem lineEnds_last : LineEnds ['\n'] [] 0 :=
  fun _ h => ⟨_, _, _, gap_lineFeed h rfl rfl⟩

/-- **A value.** The line of a plain scalar behind a key, if the next line is not indented further
than the key. -/
theorem reaches_value {w rest rest' : List Char} {i l column column' m : Nat} (tokens : List Token)
    {kept : List Nat} (hw : isPlainLine w = true) (hkept : kept.head? = some m) (hm : m ≤ column)
    (hends : LineEnds ('\n' :: rest) rest' column') (hcolumn : column' ≤ m) :
    ∃ i' l', Reaches 1 (outside ⟨' ' :: w ++ '\n' :: rest, i, l, column⟩ tokens kept false)
      (outside ⟨rest', i', l', column'⟩ (tokens ++ [.scalar (String.ofList w) true])
        kept true) := by
  obtain ⟨x, xs, hcons, hblank, hnumber⟩ := startsPlain_cons (isPlainLine_iff.1 hw).1
  have hx : isContent x = true := by
    simp only [isBlankOrEnd, isSpaceOrEnd, isEnd, Bool.or_eq_false_iff, beq_eq_false_iff_ne]
      at hblank
    exact isContent_iff.2 ⟨⟨hblank.2.1, hnumber⟩, hblank.2.2⟩
  have hrest : w ++ '\n' :: rest = x :: (xs ++ '\n' :: rest) := by rw [hcons]; rfl
  -- The words are read up to the line end, and then the gap behind them.
  obtain ⟨_, -, hbehind⟩ := Cursor.advance_line
    (c := ⟨w ++ '\n' :: rest, i + 1, l, column + 1⟩) rfl fun y hy =>
      isBreak_of_isLineChar (isLineChar_of_mem (isPlainLine_iff.1 hw).2 y hy)
  obtain ⟨t, i', l', hgap⟩ := hends
    (Cursor.advance ⟨w ++ '\n' :: rest, i + 1, l, column + 1⟩ w.length) (by rw [hbehind])
  have hindent :
      (outside ⟨w ++ '\n' :: rest, i + 1, l, column + 1⟩ tokens kept false).indent = m := by
    rw [indent, outside, hkept]
    rfl
  have hplain := plain_line (m + 1) hw rfl (by dsimp only; omega) hgap (by dsimp only; omega)
  have hspace : Reaches 0 (outside ⟨' ' :: w ++ '\n' :: rest, i, l, column⟩ tokens kept false)
      (outside ⟨w ++ '\n' :: rest, i + 1, l, column + 1⟩ tokens kept false) := by
    rw [List.cons_append, hrest]
    exact reaches_spaces [' '] (List.forall_mem_singleton.2 rfl) hx
  refine ⟨i', l', hspace.trans (reaches_round hrest hx rfl (fun _ h => by cases h)
    (closeTo_same rfl ?_) ?_)⟩
  · rintro j hj
    rw [outside, hkept] at hj
    cases hj
    exact Nat.le_succ_of_le hm
  · rw [scanToken?_plain rfl (startsPlain_append (isPlainLine_iff.1 hw).1)
      fun h => absurd h (Nat.succ_ne_zero _), scanPlain?_value, hindent]
    dsimp only
    rw [hplain]

/-! ### Sections -/

/-- An entry of a section: a key, and the line of its value. -/
abbrev KeyedLine := List Char × List Char

/-- Whether the line of an entry can be read as it stands. -/
def KeyedLine.isPlain (e : KeyedLine) : Bool := isKeyWord e.1 && isPlainLine e.2

/-- The lines of some entries, each with the line end in front of it. -/
def linesOf (es : List KeyedLine) : List Char :=
  es.flatMap fun e => '\n' :: ' ' :: ' ' :: (e.1 ++ ':' :: ' ' :: e.2)

/-- The tokens of some entries. -/
def tokensOf (es : List KeyedLine) : List Token :=
  es.flatMap fun e =>
    [.key, .scalar (String.ofList e.1) true, .value, .scalar (String.ofList e.2) true]

/-- What holds of line feeds, and of the characters of a line, holds in some lines. -/
theorem forall_mem_linesOf {es : List KeyedLine} (hes : ∀ e ∈ es, e.isPlain = true)
    {P : Char → Prop} (hbreak : P '\n') (hline : ∀ y, isLineChar y = true → P y) :
    ∀ y ∈ linesOf es, P y := by
  intro y hy
  obtain ⟨e, he, hy⟩ := List.mem_flatMap.1 hy
  have hplain := hes e he
  rw [KeyedLine.isPlain, Bool.and_eq_true] at hplain
  simp only [List.mem_cons, List.mem_append] at hy
  rcases hy with rfl | rfl | rfl | hy | rfl | rfl | hy
  · exact hbreak
  · exact hline _ (by decide)
  · exact hline _ (by decide)
  · exact hline y (isLineChar_of_key hplain.1 y hy)
  · exact hline _ (by decide)
  · exact hline _ (by decide)
  · exact hline y (isLineChar_of_mem (isPlainLine_iff.1 hplain.2).2 y hy)

section Sections

variable {rest rest' : List Char} {column' : Nat} {es : List KeyedLine}

/-- From the value of an entry on to the end of its section. -/
theorem reaches_entries {v : List Char} {i l column : Nat} (tokens : List Token)
    (hv : isPlainLine v = true) (hes : ∀ e ∈ es, e.isPlain = true)
    (hends : LineEnds ('\n' :: rest) rest' column') (hcolumn' : column' ≤ 2)
    (hcolumn : 2 ≤ column) :
    ∃ i' l', Reaches (3 * es.length + 1)
      (outside ⟨' ' :: v ++ (linesOf es ++ '\n' :: rest), i, l, column⟩ tokens [2, 0] false)
      (outside ⟨rest', i', l', column'⟩
        (tokens ++ .scalar (String.ofList v) true :: tokensOf es) [2, 0] true) := by
  induction es generalizing v i l column tokens with
  | nil =>
    obtain ⟨i', l', h⟩ := reaches_value (i := i) (l := l) tokens hv
      (show [2, 0].head? = some 2 from rfl) hcolumn hends hcolumn'
    exact ⟨i', l', h⟩
  -- The value of this entry ends in front of the next key, then the key is read, then the rest.
  | cons e es ih =>
    rw [List.forall_mem_cons, KeyedLine.isPlain, Bool.and_eq_true] at hes
    obtain ⟨i₁, l₁, hvalue⟩ := reaches_value (i := i) (l := l) tokens hv
      (show [2, 0].head? = some 2 from rfl) hcolumn
      (lineEnds_entry hes.1.1 (':' :: ' ' :: (e.2 ++ (linesOf es ++ '\n' :: rest)))) le_rfl
    have hkey := reaches_key (i := i₁) (l := l₁) 2 (tokens ++ [.scalar (String.ofList v) true]) []
      [2, 0] (e.2 ++ (linesOf es ++ '\n' :: rest)) hes.1.1 (show isBlankOrEnd ' ' = true from rfl)
      (List.forall_mem_nil _) (by simp)
    obtain ⟨i', l', hrest⟩ := ih (i := i₁ + e.1.length + 1) (l := l₁)
      (tokens ++ [.scalar (String.ofList v) true, .key, .scalar (String.ofList e.1) true, .value])
      hes.1.2 hes.2 (show 2 ≤ 2 + e.1.length + 1 by omega)
    refine ⟨i', l', ?_⟩
    have hcount : 3 * (e :: es).length + 1 = 1 + (2 + (3 * es.length + 1)) := by
      rw [List.length_cons]
      omega
    have hlines : ' ' :: v ++ (linesOf (e :: es) ++ '\n' :: rest) =
        ' ' :: v ++ '\n' :: ' ' :: ' ' ::
          (e.1 ++ ':' :: ' ' :: (e.2 ++ (linesOf es ++ '\n' :: rest))) := by
      simp [linesOf]
    have htokens : tokens ++ .scalar (String.ofList v) true :: tokensOf (e :: es) =
        tokens ++ [.scalar (String.ofList v) true, .key, .scalar (String.ofList e.1) true, .value]
          ++ .scalar (String.ofList e.2) true :: tokensOf es := by
      simp [tokensOf]
    rw [hlines, htokens, hcount]
    refine hvalue.trans (hkey.trans ?_)
    simpa using hrest

/-- **A section.** It closes the section before it; the first one opens the map of the document. -/
theorem reaches_lines {name : List Char} {e : KeyedLine} {i l : Nat} (tokens : List Token)
    (closed kept : List Nat) (hname : isKeyWord name = true)
    (hes : ∀ e' ∈ e :: es, e'.isPlain = true) (hends : LineEnds ('\n' :: rest) rest' column')
    (hcolumn' : column' ≤ 2) (hclosed : ∀ j ∈ closed, 0 < j) (hkept : kept = [] ∨ kept = [0]) :
    ∃ i' l', Reaches (3 * es.length + 5)
      (outside ⟨name ++ ':' :: (linesOf (e :: es) ++ '\n' :: rest), i, l, 0⟩ tokens
        (closed ++ kept) true)
      (outside ⟨rest', i', l', column'⟩
        (tokens ++ closed.map (fun _ => .blockEnd)
          ++ (if kept.head? = some 0 then [] else [.blockMapping])
          ++ .key :: .scalar (String.ofList name) true :: .value :: .blockMapping
            :: tokensOf (e :: es)) [2, 0] true) := by
  rw [List.forall_mem_cons, KeyedLine.isPlain, Bool.and_eq_true] at hes
  have hlines : linesOf (e :: es) ++ '\n' :: rest =
      '\n' :: ' ' :: ' ' :: (e.1 ++ ':' :: ' ' :: (e.2 ++ (linesOf es ++ '\n' :: rest))) := by
    simp [linesOf]
  have hindents : (if kept.head? = some 0 then kept else 0 :: kept) = [0] := by
    rcases hkept with rfl | rfl <;> rfl
  -- The name of the section is a key at the margin, and its value is a map that is opened two
  -- columns in.
  have hheader := reaches_key (i := i) (l := l) 0 tokens closed kept (' ' :: ' ' ::
    (e.1 ++ ':' :: ' ' :: (e.2 ++ (linesOf es ++ '\n' :: rest)))) hname
    (show isBlankOrEnd '\n' = true from rfl) hclosed
    (show ∀ j ∈ kept.head?, j ≤ 0 by rcases hkept with rfl | rfl <;> simp)
  rw [hindents] at hheader
  obtain ⟨i', l', hrest⟩ := reaches_entries (i := i + name.length + 1 + 3 + e.1.length + 1)
    (l := l + 1) (tokens ++ closed.map (fun _ => .blockEnd)
      ++ (if kept.head? = some 0 then [] else [.blockMapping])
      ++ [.key, .scalar (String.ofList name) true, .value, .blockMapping, .key,
        .scalar (String.ofList e.1) true, .value]) hes.1.2 hes.2 hends hcolumn'
    (show 2 ≤ 2 + e.1.length + 1 by omega)
  refine ⟨i', l', ?_⟩
  rw [hlines, show 3 * es.length + 5 = 2 + (0 + (2 + (3 * es.length + 1))) by omega]
  refine hheader.trans ((reaches_section hes.1.1).trans ((reaches_key 2 _ [] [0] _ hes.1.1
    (show isBlankOrEnd ' ' = true from rfl) (List.forall_mem_nil _) (by simp)).trans ?_))
  simpa [tokensOf] using hrest

/-- The tokens of a section. -/
def sectionTokens (name : List Char) (es : List KeyedLine) : List Token :=
  .key :: .scalar (String.ofList name) true :: .value :: .blockMapping :: tokensOf es

/-- The first section. -/
theorem reaches_first {name : List Char} {e : KeyedLine} {i l : Nat} (hname : isKeyWord name = true)
    (hes : ∀ e' ∈ e :: es, e'.isPlain = true) (hends : LineEnds ('\n' :: rest) rest' column')
    (hcolumn' : column' ≤ 2) :
    ∃ i' l', Reaches (3 * es.length + 5)
      (outside ⟨name ++ ':' :: (linesOf (e :: es) ++ '\n' :: rest), i, l, 0⟩ [] [] true)
      (outside ⟨rest', i', l', column'⟩ (.blockMapping :: sectionTokens name (e :: es))
        [2, 0] true) :=
  reaches_lines [] [] [] hname hes hends hcolumn'
    (List.forall_mem_nil _) (.inl rfl)

/-- A section behind another one. -/
theorem reaches_further {name : List Char} {e : KeyedLine} {i l : Nat} (tokens : List Token)
    (hname : isKeyWord name = true) (hes : ∀ e' ∈ e :: es, e'.isPlain = true)
    (hends : LineEnds ('\n' :: rest) rest' column') (hcolumn' : column' ≤ 2) :
    ∃ i' l', Reaches (3 * es.length + 5)
      (outside ⟨name ++ ':' :: (linesOf (e :: es) ++ '\n' :: rest), i, l, 0⟩ tokens [2, 0] true)
      (outside ⟨rest', i', l', column'⟩ (tokens ++ .blockEnd :: sectionTokens name (e :: es))
        [2, 0] true) := by
  obtain ⟨i', l', h⟩ := reaches_lines (i := i) (l := l) tokens [2] [0] hname hes hends hcolumn'
    (by simp) (.inr rfl)
  refine ⟨i', l', ?_⟩
  simpa [sectionTokens] using h

/-- The end of a document closes its last section, and the map of the document. -/
theorem scanAll?_last {i l : Nat} (tokens : List Token) (allowed : Bool) (fuel : Nat) :
    (scanAll? (outside ⟨[], i, l, 0⟩ tokens [2, 0] allowed) (fuel + 1)).map (·.tokens.toList) =
      some (tokens ++ [.blockEnd, .blockEnd]) := by
  have hclose : closeTo (outside ⟨[], i, l, 0⟩ tokens [2, 0] allowed) ((0 : Nat) : Int) =
      outside ⟨[], i, l, 0⟩ (tokens ++ [.blockEnd]) [0] allowed :=
    closeTo_outside [2] [0] (by simp) (by simp)
  have hfinish : (outside ⟨[], i, l, 0⟩ (tokens ++ [.blockEnd]) [0] allowed).finish? =
      some (outside ⟨[], i, l, 0⟩ (tokens ++ [.blockEnd, .blockEnd]) [] allowed) := by
    simp [finish?, closeTo, inFlow, dropKey?, possibleKey, outside]
  have hround : scanAll? (outside ⟨[], i, l, 0⟩ tokens [2, 0] allowed) (fuel + 1) =
      (closeTo (outside ⟨[], i, l, 0⟩ tokens [2, 0] allowed) ((0 : Nat) : Int)).finish? := rfl
  rw [hround, hclose, hfinish]
  simp [outside]

end Sections

end Scanner
end Yaml
end Horn
