import Horn.Proofs.Yaml.Inside
import Horn.Proofs.Yaml.Lines
import Mathlib.Data.List.InsertIdx

/-!
# The tokens of a text inside of a document

What becomes of a text that stands in a document as it is, with ordinary lines behind it, whatever
the text is. It may be a part of a scalar, or it may open brackets, start a comment or end the
document. The scanner makes no longer text of it, and none with more ink: a scalar is a plain line,
or it is shorter than the text or has lost some of the text's signs (`Token.Fits`).

* `Within` is what holds between two tokens. `Within.scanToken` says that a token preserves it.
* `Within.scanAll`: so it holds of all tokens.

Each sign that begins something other than a plain line stands in the text itself, since there is
none behind it. The scalar that it begins has lost this sign. Plain scalars have lost the bracket
that is open around them, or the sign that has ended the document before; without one of the two
they are indented, and so they end where the text does.
-/

namespace Horn
namespace Yaml

open Cursor (Ahead Reads)

/-! ### Texts that have lost something -/

/-- Whether a character is neither a blank nor a line end. -/
def isInk (k : Char) : Bool := !isBreak k && k != ' ' && k != '\r'

/-- A text that is shorter than another one, or has less of some sign. -/
def Shrunk (x t : List Char) : Prop :=
  x.length < t.length ∨ ∃ k, isInk k = true ∧ x.count k < t.count k

/-- What the scanner may make of a text: scalars that are plain lines or have lost something, and
tags only if there is a text. -/
def Token.Fits (t : List Char) : Token → Prop
  | .scalar x _ => isPlainLine x.toList = true ∨ Shrunk x.toList t
  | .tag _ => t ≠ []
  | _ => True

/-- A position behind a sign of the text. -/
def Spent (t : List Char) (c : Cursor) : Prop := ∃ k, isInk k = true ∧ c.rest.count k < t.count k

variable {t b : List Char} {c c' : Cursor} {k : Char} {r : List Char}

theorem isInk_count (hk : isInk k = true) : IsInk (· == k) := by
  simp only [isInk, Bool.and_eq_true, Bool.not_eq_true', bne_iff_ne] at hk
  refine ⟨beq_eq_false_iff_ne.2 hk.1.2.symm, fun x hx => beq_eq_false_iff_ne.2 ?_⟩
  rintro rfl
  rw [hk.1.1] at hx
  cases hx

theorem isInk_of_isBracket (hk : isBracket k = true) : isInk k = true := by
  simp only [isInk, Bool.and_eq_true, Bool.not_eq_true', bne_iff_ne]
  refine ⟨⟨?_, ?_⟩, ?_⟩
  · rw [← Bool.not_eq_true]
    intro hbreak
    rw [isBracket_gap (.inr hbreak)] at hk
    cases hk
  · rintro rfl
    revert hk
    decide
  · rintro rfl
    revert hk
    decide

theorem Spent.ahead (h : Spent t c) (hahead : c.Ahead c') : Spent t c' := by
  obtain ⟨k, hk, hcount⟩ := h
  exact ⟨k, hk, lt_of_le_of_lt (hahead.suffix.sublist.count_le k) hcount⟩

/-- Behind a sign that does not occur at the end of the document, there is less of it. -/
theorem Inside.count_lt (h : Inside t b c) (hrest : c.rest = k :: r) (hk : k ≠ '\n') (hb : k ∉ b) :
    r.count k < t.count k := by
  obtain ⟨u, rfl, hu⟩ := h.front hrest hk hb
  have hle := hu.sublist.count_le k
  rw [List.count_cons_self] at hle
  rw [List.count_append, List.count_cons_of_ne hk.symm, List.count_cons_of_ne hk.symm,
    List.count_eq_zero.2 hb]
  omega

/-- Whether a character is a sign that does not occur between ordinary words. -/
def isSign (k : Char) : Bool := isInk k && !isOrdinary k && k != ':' && k != '\x00'

/-- A sign stands in the text, and behind it there is less of it. -/
theorem Inside.sign (h : Inside t b c) (hb : IsWords b) (hpeek : c.peek = k)
    (hk : isSign k = true) : k ∈ t ∧ k ∉ b ∧ ∀ c', c.next.Ahead c' → Spent t c' := by
  simp only [isSign, Bool.and_eq_true, Bool.not_eq_true', bne_iff_ne] at hk
  obtain ⟨⟨⟨hink, hordinary⟩, hcolon⟩, hnull⟩ := hk
  obtain ⟨r, hrest, hnext⟩ := Cursor.exists_rest_of_peek hpeek hnull
  -- A sign is ink and not ordinary, so none of the characters that `b` is made of is one.
  have hline : k ≠ '\n' := by
    rintro rfl
    revert hink
    decide
  have hnone : k ∉ b := by
    intro hmem
    rcases hb.sign k hmem with hk | rfl | rfl | rfl
    · rw [hk] at hordinary
      cases hordinary
    · exact hcolon rfl
    · revert hink
      decide
    · exact hline rfl
  -- As it is not in what follows the text, it is in the text.
  obtain ⟨u, -, hu⟩ := h.front hrest hline hnone
  refine ⟨hu.subset List.mem_cons_self, hnone, fun c' hahead => Spent.ahead ⟨k, hink, ?_⟩ hahead⟩
  rw [hnext]
  exact h.count_lt hrest hline hnone

/-- **Quoted scalars** have lost their quotation marks. -/
theorem Inside.quoted {double : Bool} {x : Scalar} (h : Inside t b c)
    (hpeek : c.peek = quotationMark double) (hb : quotationMark double ∉ b)
    (hx : Yaml.quoted double c = some x) : x.text.length < t.length ∧ c.Ahead x.cursor := by
  obtain ⟨c₁, hreads, hpeek₁, hcursor⟩ := quoted_reads hx
  -- Both marks are in the text, since neither is in what follows it.
  have hmark : quotationMark double ≠ '\x00' ∧ quotationMark double ≠ '\n' := by
    cases double <;> decide
  obtain ⟨r, hrest, hnext⟩ := Cursor.exists_rest_of_peek hpeek hmark.1
  obtain ⟨r₁, hrest₁, -⟩ := Cursor.exists_rest_of_peek hpeek₁ hmark.1
  obtain ⟨u, rfl, hu⟩ := h.front hrest hmark.2 hb
  obtain ⟨u₁, rfl, -⟩ := (h.ahead (c.ahead_next.trans hreads.ahead)).front hrest₁ hmark.2 hb
  constructor
  -- What is read comes from between the marks, so it is shorter by at least one of them.
  · have hlength := hreads.count
    have hle := hu.length_le
    rw [hrest₁, hnext] at hlength
    simp only [List.countP_true, List.length_append, List.length_cons] at hlength hle
    omega
  · rw [hcursor]
    exact (c.ahead_next.trans hreads.ahead).trans c₁.ahead_next

/-- **Block scalars** have lost the sign in front of them. -/
theorem Inside.block {folded : Bool} {outer : Int} {x : Scalar} (h : Inside t b c)
    (hpeek : c.peek = k) (hk : isInk k = true) (hnull : k ≠ '\x00') (hb : k ∉ b)
    (hx : Yaml.block folded outer c = some x) : Shrunk x.text t ∧ c.Ahead x.cursor := by
  obtain ⟨r, hrest, hnext⟩ := Cursor.exists_rest_of_peek hpeek hnull
  have hreads := block_reads (isInk_count hk) hx
  have hne : k ≠ '\n' := by
    rintro rfl
    revert hk
    decide
  refine ⟨.inr ⟨k, hk, ?_⟩, c.ahead_next.trans hreads.ahead⟩
  have hcount := hreads.count
  rw [hnext] at hcount
  -- The sign itself is passed, so there is one less of it in what is left.
  have hless := h.count_lt hrest hne hb
  simp only [List.count_eq_countP] at hless ⊢
  omega

/-! ### Possible keys -/

namespace Scanner

variable {s s' s'' : Scanner}

/-- States that differ at most in their possible keys. -/
structure Rekeyed (s s' : Scanner) : Prop where
  cursor : s'.cursor = s.cursor
  tokens : s'.tokens = s.tokens
  indents : s'.indents = s.indents
  flow : s'.inFlow = s.inFlow

theorem Rekeyed.refl (s : Scanner) : Rekeyed s s := ⟨rfl, rfl, rfl, rfl⟩

theorem Rekeyed.trans (h : Rekeyed s s') (h' : Rekeyed s' s'') : Rekeyed s s'' :=
  ⟨h'.cursor.trans h.cursor, h'.tokens.trans h.tokens, h'.indents.trans h.indents,
    h'.flow.trans h.flow⟩

theorem rekeyed_setKey (s : Scanner) (key : Option PossibleKey) : Rekeyed s (s.setKey key) := by
  obtain ⟨c, tokens, indents, allowed, blockKey, flowKeys⟩ := s
  cases flowKeys <;> exact ⟨rfl, rfl, rfl, rfl⟩

theorem rekeyed_dropKey (h : s.dropKey? = some s') : Rekeyed s s' := by
  unfold dropKey? at h
  split at h
  · split at h
    · cases h
    · cases h
      exact s.rekeyed_setKey none
  · cases h
    exact Rekeyed.refl s

theorem rekeyed_noteKey (h : s.noteKey? = some s') : Rekeyed s s' := by
  unfold noteKey? at h
  split at h
  · obtain ⟨s₁, hdrop, rfl⟩ := Option.map_eq_some_iff.1 h
    exact (rekeyed_dropKey hdrop).trans (s₁.rekeyed_setKey _)
  · cases h
    exact Rekeyed.refl s

theorem rekeyed_dropStale (h : s.dropStale? = some s') : Rekeyed s s' := by
  unfold dropStale? at h
  dsimp only at h
  split at h
  · cases h
  · cases h
    refine ⟨rfl, rfl, rfl, ?_⟩
    rw [inFlow, inFlow, List.isEmpty_map]

end Scanner

/-! ### What holds between two tokens -/

open Scanner

/-- The position is inside of the document, and the text is still around it: brackets have been
opened in it, or the collection around the whole document has not been closed. -/
structure Within (t b : List Char) (s : Scanner) : Prop where
  fits : ∀ u ∈ s.tokens.toList, u.Fits t
  inside : Inside t b s.cursor
  flow : s.inFlow = true → ∃ k ∈ t, isBracket k = true
  indents : 0 ∈ s.indents ∨ Spent t s.cursor

namespace Within

variable {s s' : Scanner} {u : Token}

theorem rekeyed (h : Within t b s) (hkey : Rekeyed s s') : Within t b s' := by
  refine ⟨?_, ?_, ?_, ?_⟩
  · rw [hkey.tokens]
    exact h.fits
  · rw [hkey.cursor]
    exact h.inside
  · rw [hkey.flow]
    exact h.flow
  · rw [hkey.indents, hkey.cursor]
    exact h.indents

theorem ahead (h : Within t b s) (hahead : s.cursor.Ahead c') :
    Within t b { s with cursor := c' } :=
  ⟨h.fits, h.inside.ahead hahead, h.flow, h.indents.imp_right fun h => h.ahead hahead⟩

theorem allow (h : Within t b s) (allowed : Bool) : Within t b { s with keyAllowed := allowed } :=
  ⟨h.fits, h.inside, h.flow, h.indents⟩

theorem emit (h : Within t b s) (hu : u.Fits t) : Within t b (s.emit u) := by
  refine ⟨fun v hv => ?_, h.inside, h.flow, h.indents⟩
  rw [Scanner.emit, Array.toList_push, List.mem_append, List.mem_singleton] at hv
  rcases hv with hv | rfl
  · exact h.fits v hv
  · exact hu

theorem emitSign (h : Within t b s) (hu : u.Fits t) : Within t b (s.emitSign u) :=
  (h.emit hu).ahead (s.cursor.ahead_next)

theorem insert (h : Within t b s) (position : Nat) (hu : u.Fits t) :
    Within t b (s.insert position u) := by
  refine ⟨fun v hv => ?_, h.inside, h.flow, h.indents⟩
  rcases List.eq_or_mem_of_mem_insertIdx (l := s.tokens.toList) hv with rfl | hv
  · exact hu
  · exact h.fits v hv

theorem open' (h : Within t b s) (column : Nat) : Within t b (s.open' column) :=
  ⟨h.fits, h.inside, h.flow, h.indents.imp_left (List.mem_cons_of_mem column)⟩

/-! ### Tokens -/

theorem mem_closeTo {column : Int} (hu : u ∈ (s.closeTo column).tokens.toList) :
    u ∈ s.tokens.toList ∨ u = .blockEnd := by
  unfold closeTo at hu
  split at hu
  · exact .inl hu
  · simp only [Array.toList_append, Array.toList_map, List.mem_append, List.mem_map] at hu
    rcases hu with hu | ⟨-, -, rfl⟩
    · exact .inl hu
    · exact .inr rfl

/-- At no column the collection around the whole document is closed. -/
theorem closeTo (h : Within t b s) (column : Nat) : Within t b (s.closeTo column) := by
  refine ⟨fun u hu => ?_, ?_, fun hflow => h.flow ?_, ?_⟩
  · rcases mem_closeTo hu with hu | rfl
    · exact h.fits u hu
    · trivial
  · rw [cursor_closeTo]
    exact h.inside
  · unfold Scanner.closeTo at hflow
    split at hflow <;> exact hflow
  · rw [cursor_closeTo]
    refine h.indents.imp_left fun hzero => ?_
    unfold Scanner.closeTo
    split
    · exact hzero
    -- What is closed lies further in than the column, and the outermost collection lies at zero.
    · have hsplit := List.prefix_iff_eq_append.1
        (List.takeWhile_prefix (fun i : Nat => decide ((column : Int) < i)) (l := s.indents))
      rw [← hsplit, List.mem_append] at hzero
      rcases hzero with hclosed | hkept
      · have hlt := List.mem_takeWhile_imp hclosed
        simp at hlt
        omega
      · exact hkept

/-- **Signs that end a document,** and directives. -/
theorem ended (h : Within t b s) (hs : (s.closeTo (-1)).dropKey? = some s') (hu : u.Fits t)
    (hspent : Spent t c') (hahead : s.cursor.Ahead c') :
    Within t b { s'.emit u with cursor := c', keyAllowed := false } := by
  have hkey := rekeyed_dropKey hs
  refine ⟨fun v hv => ?_, h.inside.ahead hahead, fun hflow => h.flow ?_, .inr hspent⟩
  · rw [Scanner.emit, Array.toList_push, List.mem_append, List.mem_singleton, hkey.tokens] at hv
    rcases hv with hv | rfl
    · rcases mem_closeTo hv with hv | rfl
      · exact h.fits v hv
      · trivial
    · exact hu
  · have hflow' : (s.closeTo (-1)).inFlow = true := hkey.flow ▸ hflow
    unfold Scanner.closeTo at hflow'
    split at hflow' <;> exact hflow'

theorem skipBlanks (h : Within t b s) (fuel : Nat) : Within t b (s.skipBlanks fuel) := by
  induction fuel generalizing s with
  | zero => exact h
  | succ fuel ih =>
    rw [Scanner.skipBlanks]
    -- Blanks and comments are passed; if a line ends there, the same holds on the next line.
    have hahead : s.cursor.Ahead (if (s.cursor.skip (· == ' ')).peek == '#'
        then (s.cursor.skip (· == ' ')).skip (!isEnd ·) else s.cursor.skip (· == ' ')) := by
      split
      · exact (s.cursor.ahead_skip _).trans (Cursor.ahead_skip _ _)
      · exact s.cursor.ahead_skip _
    generalize (if (s.cursor.skip (· == ' ')).peek == '#'
      then (s.cursor.skip (· == ' ')).skip (!isEnd ·) else s.cursor.skip (· == ' ')) = c at hahead ⊢
    split
    · exact ih ((h.ahead (hahead.trans c.ahead_lineBreak)).allow _)
    · exact h.ahead hahead

theorem scanOpening (h : Within t b s) (hbracket : ∃ k ∈ t, isBracket k = true) (hu : u.Fits t)
    (hs : s.scanOpening? u = some s') : Within t b s' := by
  obtain ⟨s₁, hkey, hs⟩ := Option.bind_eq_some_iff.1 hs
  cases hs
  have hsign := (h.rekeyed (rekeyed_noteKey hkey)).emitSign hu
  exact ⟨hsign.fits, hsign.inside, fun _ => hbracket, hsign.indents⟩

theorem scanClosing (h : Within t b s) (hu : u.Fits t) (hs : s.scanClosing? u = some s') :
    Within t b s' := by
  unfold scanClosing? at hs
  split at hs
  · cases hs
  · next hkeys =>
    cases hs
    have hsign := h.emitSign hu
    refine ⟨hsign.fits, hsign.inside, fun _ => h.flow ?_, hsign.indents⟩
    rw [inFlow, hkeys]
    rfl

theorem scanComma (h : Within t b s) (hs : s.scanComma? = some s') : Within t b s' := by
  obtain ⟨s₁, hkey, hs⟩ := Option.bind_eq_some_iff.1 hs
  cases hs
  exact ((h.rekeyed (rekeyed_dropKey hkey)).emitSign (u := .flowEntry) trivial).allow true

/-- A block collection may start in front of a token. -/
theorem opened (h : Within t b s) (p : Bool) (column : Nat) (hu : u.Fits t) :
    Within t b (if p then (s.open' column).emit u else s) := by
  cases p with
  | false => exact h
  | true => exact (h.open' column).emit hu

theorem scanDash (h : Within t b s) (hs : s.scanDash? = some s') : Within t b s' := by
  unfold scanDash? at hs
  dsimp only at hs
  by_cases hallowed : (!s.inFlow && !s.keyAllowed) = true
  · rw [if_pos hallowed] at hs
    cases hs
  · rw [if_neg hallowed] at hs
    obtain ⟨s₁, hkey, hs⟩ := Option.bind_eq_some_iff.1 hs
    cases hs
    have hopened := h.opened (!s.inFlow && s.opens s.cursor.column) s.cursor.column
      (u := .blockSequence) trivial
    exact ((hopened.rekeyed (rekeyed_dropKey hkey)).emitSign (u := .blockEntry) trivial).allow true

theorem scanQuestion (h : Within t b s) (hs : s.scanQuestion? = some s') : Within t b s' := by
  unfold scanQuestion? at hs
  dsimp only at hs
  by_cases hallowed : (!s.inFlow && !s.keyAllowed) = true
  · rw [if_pos hallowed] at hs
    cases hs
  · rw [if_neg hallowed] at hs
    obtain ⟨s₁, hkey, hs⟩ := Option.bind_eq_some_iff.1 hs
    cases hs
    have hopened := h.opened (!s.inFlow && s.opens s.cursor.column) s.cursor.column
      (u := .blockMapping) trivial
    exact ((hopened.rekeyed (rekeyed_dropKey hkey)).emitSign (u := .key) trivial).allow _

theorem scanColon (h : Within t b s) (hs : s.scanColon? = some s') : Within t b s' := by
  unfold scanColon? at hs
  split at hs
  -- There is a possible key: its sign goes in front of it, and a map may be opened there.
  · next key _ =>
    have hkey := (h.rekeyed (s.rekeyed_setKey none)).insert key.position (u := .key) trivial
    generalize (s.setKey none).insert key.position .key = s₁ at hkey hs
    cases hs
    refine Within.allow (Within.emitSign (u := .value) ?_ trivial) false
    split
    · exact (hkey.open' _).insert _ (u := .blockMapping) trivial
    · exact hkey
  -- There is none: the value may only stand where a key might.
  · dsimp only at hs
    by_cases hallowed : (!s.inFlow && !s.keyAllowed) = true
    · rw [if_pos hallowed] at hs
      cases hs
    · rw [if_neg hallowed] at hs
      cases hs
      have hopened := h.opened (!s.inFlow && s.opens s.cursor.column) s.cursor.column
        (u := .blockMapping) trivial
      exact (hopened.emitSign (u := .value) trivial).allow _

theorem scanContent {read : Cursor → Option (Token × Cursor)} (h : Within t b s)
    (hread : ∀ u c', read s.cursor = some (u, c') → u.Fits t ∧ s.cursor.Ahead c')
    (hs : s.scanContent? read = some s') : Within t b s' := by
  obtain ⟨s₁, hnote, hs⟩ := Option.bind_eq_some_iff.1 hs
  obtain ⟨⟨u, c'⟩, hu, hs⟩ := Option.bind_eq_some_iff.1 hs
  cases hs
  have hkey := rekeyed_noteKey hnote
  rw [hkey.cursor] at hu
  obtain ⟨hfits, hahead⟩ := hread u c' hu
  exact (((h.rekeyed hkey).emit hfits).ahead (hkey.cursor ▸ hahead)).allow false

theorem emitScalar {x : Scalar} {p : Bool} (h : Within t b s) (hahead : s.cursor.Ahead x.cursor)
    (hx : isPlainLine x.text = true ∨ Shrunk x.text t) : Within t b (s.emitScalar x p) := by
  refine ((h.emit ?_).ahead hahead).allow x.keyAllowed
  rw [Token.Fits, String.toList_ofList]
  exact hx

theorem scanQuoted (h : Within t b s) (double : Bool)
    (hpeek : s.cursor.peek = quotationMark double)
    (hb : quotationMark double ∉ b) (hs : s.scanQuoted? double = some s') : Within t b s' := by
  obtain ⟨s₁, hnote, hs⟩ := Option.bind_eq_some_iff.1 hs
  obtain ⟨x, hx, hs⟩ := Option.bind_eq_some_iff.1 hs
  cases hs
  have hkey := rekeyed_noteKey hnote
  have hone := h.rekeyed hkey
  obtain ⟨hlength, hahead⟩ := hone.inside.quoted (by rw [hkey.cursor, hpeek]) hb hx
  exact hone.emitScalar hahead (.inr (.inl hlength))

theorem scanBlock {folded : Bool} (h : Within t b s) (hpeek : s.cursor.peek = k)
    (hk : isInk k = true) (hnull : k ≠ '\x00') (hb : k ∉ b) (hs : s.scanBlock? folded = some s') :
    Within t b s' := by
  obtain ⟨s₁, hdrop, hs⟩ := Option.bind_eq_some_iff.1 hs
  obtain ⟨x, hx, hs⟩ := Option.bind_eq_some_iff.1 hs
  cases hs
  have hkey := rekeyed_dropKey hdrop
  have hone := h.rekeyed hkey
  obtain ⟨hshrunk, hahead⟩ := hone.inside.block (by rw [hkey.cursor, hpeek]) hk hnull hb hx
  exact hone.emitScalar hahead (.inr hshrunk)

/-- Outside of brackets the indentation is positive inside of some collection. -/
theorem one_le_indent (h : 0 ∈ s.indents) : 1 ≤ s.indent + 1 := by
  unfold indent
  cases hindents : s.indents with
  | nil =>
    rw [hindents] at h
    cases h
  | cons i is =>
    have hpos := Int.natCast_nonneg i
    change (1 : Int) ≤ (i : Int) + 1
    omega

/-- **A plain scalar.** Outside of brackets it starts at an ordinary word behind the text, or in the
text itself, and then it has to be indented unless the document has ended in the text. -/
theorem scanPlain (h : Within t b s) (ht : ∀ x ∈ t, isUnified x = true) (hb : IsWords b)
    (hhead : ∃ x xs, b = x :: xs ∧ isOrdinary x = true) (hstarts : s.plainStarts = true)
    (hs : s.scanPlain? = some s') : Within t b s' := by
  obtain ⟨s₁, hnote, hs⟩ := Option.bind_eq_some_iff.1 hs
  cases hs
  have hkey := rekeyed_noteKey hnote
  have hone := h.rekeyed hkey
  have hstarts' : s₁.plainStarts = true := by
    rw [← hstarts, plainStarts, plainStarts, hkey.cursor, hkey.flow]
  have hreads := fun k (hk : isInk k = true) =>
    plain_reads s₁.inFlow (s₁.indent + 1) s₁.cursor (isInk_count hk)
  refine hone.emitScalar (hreads 'a' (by decide)).ahead ?_
  cases hflow : s₁.inFlow with
  | true =>
    -- A bracket is open, and there is none in the scalar.
    obtain ⟨k, hk, hbracket⟩ := hone.flow hflow
    have hnone := plain_flow (s₁.indent + 1) s₁.cursor
    refine .inr (.inr ⟨k, isInk_of_isBracket hbracket, ?_⟩)
    rw [List.count_eq_zero.2 fun hmem => by simp [hnone k hmem] at hbracket]
    exact List.count_pos_iff.2 hk
  | false =>
    rcases hone.indents with hzero | ⟨k, hk, hspent⟩
    · rw [plainStarts_eq hflow] at hstarts'
      exact (hone.inside.plain ht hb hhead (one_le_indent hzero) hstarts').imp_right .inl
    · have hcount := (hreads k hk).count
      rw [hflow] at hcount
      refine .inr (.inr ⟨k, hk, lt_of_le_of_lt ?_ hspent⟩)
      simp only [List.count_eq_countP]
      omega

theorem peek_of_atSeparator {c : Cursor} (h : c.atSeparator = true) :
    c.peek = '-' ∨ c.peek = '.' := by
  unfold Cursor.atSeparator at h
  unfold Cursor.peek
  cases hrest : c.rest with
  | nil => simp [hrest] at h
  | cons x xs =>
    simp only [hrest, Bool.and_eq_true, Bool.or_eq_true, beq_iff_eq, List.take_succ_cons,
      List.cons.injEq] at h
    rw [List.headD_cons]
    exact h.1.imp And.left And.left

/-- **Tokens.** What holds between two tokens holds behind each token again. -/
theorem scanToken (h : Within t b s) (ht : ∀ x ∈ t, isUnified x = true) (hb : IsWords b)
    (hhead : ∃ x xs, b = x :: xs ∧ isOrdinary x = true) (hs : s.scanToken? = some s') :
    Within t b s' := by
  have hsign := fun k (hpeek : s.cursor.peek = k) (hk : isSign k = true) =>
    h.inside.sign hb hpeek hk
  unfold scanToken? at hs
  dsimp only at hs
  split at hs
  -- A directive, at the margin.
  · next hdirective =>
    rw [Bool.and_eq_true, beq_iff_eq, beq_iff_eq] at hdirective
    obtain ⟨-, -, hspent⟩ := hsign '%' hdirective.2 (by decide)
    obtain ⟨s₁, hdrop, hs⟩ := Option.bind_eq_some_iff.1 hs
    obtain ⟨⟨d, c'⟩, hread, hs⟩ := Option.bind_eq_some_iff.1 hs
    cases hs
    have hcursor : s₁.cursor = s.cursor := by rw [(rekeyed_dropKey hdrop).cursor, cursor_closeTo]
    have hahead := hcursor ▸ ahead_directive hread
    exact h.ended hdrop (u := .directive d) trivial (hspent _ hahead)
      (s.cursor.ahead_next.trans hahead)
  · split at hs
    -- Three characters that separate documents; the first of them is a sign.
    · next hseparator =>
      rw [Bool.and_eq_true] at hseparator
      obtain ⟨s₁, hdrop, hs⟩ := Option.bind_eq_some_iff.1 hs
      cases hs
      have hcursor : s₁.cursor = s.cursor := by rw [(rekeyed_dropKey hdrop).cursor, cursor_closeTo]
      have hahead : s.cursor.next.Ahead (s₁.cursor.advance 3) :=
        hcursor ▸ s.cursor.next.ahead_advance 2
      have hspent : Spent t (s₁.cursor.advance 3) := by
        rcases peek_of_atSeparator hseparator.2 with hpeek | hpeek
        · exact (hsign _ hpeek (by decide)).2.2 _ hahead
        · exact (hsign _ hpeek (by decide)).2.2 _ hahead
      refine h.ended hdrop ?_ hspent (s.cursor.ahead_next.trans hahead)
      split <;> trivial
    · split at hs
      -- The signs that open and close collections in brackets.
      · next hpeek =>
        exact h.scanOpening ⟨_, (hsign _ hpeek (by decide)).1, by decide⟩ (u := .flowSequence)
          trivial hs
      · next hpeek =>
        exact h.scanOpening ⟨_, (hsign _ hpeek (by decide)).1, by decide⟩ (u := .flowMapping)
          trivial hs
      · exact h.scanClosing (u := .flowSequenceEnd) trivial hs
      · exact h.scanClosing (u := .flowMappingEnd) trivial hs
      -- A comma.
      · exact h.scanComma hs
      -- Anchors and aliases.
      · refine h.scanContent (fun u c' hread => ?_) hs
        obtain ⟨⟨name, c₁⟩, hname, heq⟩ := Option.map_eq_some_iff.1 hread
        cases heq
        exact ⟨trivial, ahead_anchorName hname⟩
      · refine h.scanContent (fun u c' hread => ?_) hs
        obtain ⟨⟨name, c₁⟩, hname, heq⟩ := Option.map_eq_some_iff.1 hread
        cases heq
        exact ⟨trivial, ahead_anchorName hname⟩
      -- Tags.
      · next hpeek =>
        refine h.scanContent (fun u c' hread => ?_) hs
        obtain ⟨⟨tag, c₁⟩, htag, heq⟩ := Option.map_eq_some_iff.1 hread
        cases heq
        exact ⟨List.ne_nil_of_mem (hsign _ hpeek (by decide)).1, ahead_tag htag⟩
      -- Quoted scalars.
      · next hpeek =>
        exact h.scanQuoted false hpeek (hsign _ hpeek (by decide)).2.1 hs
      · next hpeek =>
        exact h.scanQuoted true hpeek (hsign _ hpeek (by decide)).2.1 hs
      -- A dash, a question mark or a colon that a blank follows.
      · split at hs
        · exact h.scanDash hs
        · split at hs
          · exact h.scanQuestion hs
          · split at hs
            · exact h.scanColon hs
            -- Block scalars, literal and folded.
            · split at hs
              · next hblock =>
                rw [Bool.and_eq_true, beq_iff_eq] at hblock
                exact h.scanBlock hblock.1 (by decide) (by decide)
                  (hsign _ hblock.1 (by decide)).2.1 hs
              · split at hs
                · next hblock =>
                  rw [Bool.and_eq_true, beq_iff_eq] at hblock
                  exact h.scanBlock hblock.1 (by decide) (by decide)
                    (hsign _ hblock.1 (by decide)).2.1 hs
                -- What is left has to be a plain scalar.
                · split at hs
                  · next hstarts => exact h.scanPlain ht hb hhead hstarts hs
                  · cases hs

/-- **All tokens.** Whatever the scanner makes of a text inside of a document, it is a plain line or
has lost something. -/
theorem scanAll {fuel : Nat} (h : Within t b (s.skipBlanks (s.cursor.rest.length + 1)))
    (ht : ∀ x ∈ t, isUnified x = true) (hb : IsWords b)
    (hhead : ∃ x xs, b = x :: xs ∧ isOrdinary x = true) (hs : s.scanAll? fuel = some s') :
    ∀ u ∈ s'.tokens.toList, u.Fits t := by
  induction fuel generalizing s with
  | zero => cases hs
  | succ fuel ih =>
    rw [scanAll?] at hs
    obtain ⟨s₁, hstale, hs⟩ := Option.bind_eq_some_iff.1 hs
    have hclosed := (h.rekeyed (rekeyed_dropStale hstale)).closeTo s₁.cursor.column
    dsimp only at hs
    split at hs
    -- The end of the text: only collections are closed.
    · intro u hu
      rw [(rekeyed_dropKey hs).tokens] at hu
      rcases mem_closeTo hu with hu | rfl
      · exact hclosed.fits u hu
      · trivial
    -- A token more, and the blanks behind it.
    · obtain ⟨s₂, htoken, hs⟩ := Option.bind_eq_some_iff.1 hs
      exact ih ((hclosed.scanToken ht hb hhead htoken).skipBlanks _) hs

end Within

end Yaml
end Horn
