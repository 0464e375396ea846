import Horn.Proofs.Yaml.Sections
import Horn.Proofs.Yaml.Texts
import Horn.Proofs.Yaml.Within

/-!
# Values that are no plain lines

A text that is pasted into a document of sections as a value (`Slot.document`), whatever the text
is. The scanner comes to it (`Slot.ofText?_before`), and every text that is read from the document
is a plain line or has lost something of the one that was pasted (`Slot.fits_ofText?`). So a text
that is no plain line never stands for itself (`Slot.texts_document`).
-/

namespace Horn

/-! ### Line ends -/

namespace Text

variable {xs ys : List Char}

theorem unifyLineEnds_append (h : '\r' ∉ xs) :
    unifyLineEnds (xs ++ ys) = xs ++ unifyLineEnds ys := by
  induction xs with
  | nil => rfl
  | cons x xs ih =>
    rw [List.mem_cons, not_or] at h
    have hx : x ≠ '\r' := Ne.symm h.1
    rw [List.cons_append, unifyLineEnds, ih h.2, beq_eq_false_iff_ne.2 hx]
    · rfl
    · exact fun _ h => absurd h hx

/-- In front of a line feed, a text has no more characters than before, and none that it did not
have, except for line feeds. -/
theorem exists_unifyLineEnds (xs ys : List Char) : ∃ t, '\r' ∉ t ∧
    unifyLineEnds (xs ++ '\n' :: ys) = t ++ '\n' :: unifyLineEnds ys ∧ t.length ≤ xs.length ∧
      ∀ k, k ≠ '\n' → t.count k ≤ xs.count k := by
  fun_induction unifyLineEnds xs with
  | case1 => exact ⟨[], by simp, by simp [unifyLineEnds], le_rfl, fun _ _ => le_rfl⟩
  -- A carriage return with a line feed behind it: both become one line feed.
  | case2 cs ih =>
    obtain ⟨t, hreturn, heq, hlength, hcount⟩ := ih
    refine ⟨'\n' :: t, by simpa using hreturn, ?_, ?_, fun k hk => ?_⟩
    · rw [List.cons_append, List.cons_append, unifyLineEnds, heq]
      rfl
    · simp only [List.length_cons]
      omega
    · rw [List.count_cons_of_ne hk.symm, List.count_cons, List.count_cons_of_ne hk.symm]
      exact le_trans (hcount k hk) (Nat.le_add_right _ _)
  | case3 c cs hne ih =>
    obtain ⟨t, hreturn, heq, hlength, hcount⟩ := ih
    -- A carriage return alone. If it is the last character, it goes with the line feed behind the
    -- text.
    by_cases hc : c = '\r'
    · subst hc
      cases cs with
      | nil => exact ⟨[], by simp, by simp [unifyLineEnds], Nat.zero_le _, fun _ _ => Nat.zero_le _⟩
      | cons x cs =>
        refine ⟨'\n' :: t, by simpa using hreturn, ?_, by simpa using hlength, fun k hk => ?_⟩
        · rw [List.cons_append, unifyLineEnds, heq]
          · rfl
          · rintro cs' - h
            exact hne cs rfl (by rw [(List.cons.inj h).1])
        · rw [List.count_cons_of_ne hk.symm]
          exact le_trans (hcount k hk) (List.count_le_count_cons ..)
    · refine ⟨c :: t, ?_, ?_, by simpa using hlength, fun k hk => ?_⟩
      · rw [List.mem_cons, not_or]
        exact ⟨Ne.symm hc, hreturn⟩
      · rw [List.cons_append, unifyLineEnds, heq, beq_eq_false_iff_ne.2 hc]
        · rfl
        · exact fun _ h => absurd h hc
      · rw [List.count_cons, List.count_cons]
        exact Nat.add_le_add_right (hcount k hk) _

end Text

namespace Yaml

open Node (Section)
open Scanner

/-! ### Tokens -/

variable {t : List Char}

theorem fits_scalar {w : List Char} (hw : isPlainLine w = true) (isPlain : Bool) :
    (Token.scalar (String.ofList w) isPlain).Fits t :=
  .inl (by rw [String.toList_ofList]; exact hw)

theorem fits_sectionTokens {k : List Char} {es : List KeyedLine} (hk : isKeyWord k = true)
    (hes : ∀ e ∈ es, e.isPlain = true) : ∀ u ∈ sectionTokens k es, u.Fits t := by
  have hentries : ∀ u ∈ tokensOf es, u.Fits t := by
    intro u hu
    obtain ⟨e, he, hu⟩ := List.mem_flatMap.1 hu
    have hplain := hes e he
    rw [KeyedLine.isPlain, Bool.and_eq_true] at hplain
    simp only [List.mem_cons, List.not_mem_nil, or_false] at hu
    rcases hu with rfl | rfl | rfl | rfl
    · trivial
    · exact fits_scalar (isPlainLine_of_key hplain.1) true
    · trivial
    · exact fits_scalar hplain.2 true
  intro u hu
  -- The four tokens in front of the entries: two signs, the name of the section and the map.
  rw [sectionTokens] at hu
  simp only [List.mem_cons] at hu
  rcases hu with rfl | rfl | rfl | rfl | hu
  · trivial
  · exact fits_scalar (isPlainLine_of_key hk) true
  · trivial
  · trivial
  · exact hentries u hu

theorem fits_topTokens {ss : List Section} (hss : ∀ s ∈ ss, s.isPlain = true) :
    ∀ u ∈ topTokens ss, u.Fits t := by
  have hsection : ∀ s ∈ ss, ∀ u ∈ sectionTokens s.1 s.2, Token.Fits t u := by
    intro s hs
    obtain ⟨hname, e, es, hcons, hes⟩ := exists_entry (hss s hs)
    exact fits_sectionTokens hname (hcons ▸ hes)
  cases ss with
  | nil => exact List.forall_mem_nil _
  | cons s ss =>
    rw [List.forall_mem_cons] at hsection
    refine List.forall_mem_append.2 ⟨List.forall_mem_cons.2 ⟨trivial, hsection.1⟩, fun u hu => ?_⟩
    obtain ⟨s', hs', hu⟩ := List.mem_flatMap.1 hu
    exact List.forall_mem_cons.2 ⟨trivial, hsection.2 s' hs'⟩ u hu

/-- A section with one entry consists of words, if its name, its key and its value are words. -/
theorem isWords_section {name k v : List Char} (hname : ∀ x ∈ name, isOrdinary x = true)
    (hk : ∀ x ∈ k, isOrdinary x = true) (hv : ∀ x ∈ v, isOrdinary x = true) :
    IsWords (name ++ ':' :: (linesOf [(k, v)] ++ ['\n'])) := by
  have hlines : linesOf [(k, v)] ++ ['\n'] =
      '\n' :: ' ' :: ' ' :: (k ++ ':' :: ' ' :: (v ++ ['\n'])) := by simp [linesOf]
  have hlast : IsWords (v ++ ['\n']) := (IsWords.nil.blank (.inr rfl)).append hv rfl
  have hentry := ((hlast.blank (.inl rfl)).cons_colon rfl).append hk rfl
  rw [hlines]
  exact ((((hentry.blank (.inl rfl)).blank (.inl rfl)).blank (.inr rfl)).cons_colon rfl).append
    hname rfl

/-- A blank in front of a position is skipped. -/
theorem Scanner.skipBlanks_blank (s : Scanner) {r : List Char} (h : s.cursor.rest = ' ' :: r)
    (fuel : Nat) : s.skipBlanks (fuel + 1) =
      Scanner.skipBlanks { s with cursor := s.cursor.next } (fuel + 1) := by
  have hskip : s.cursor.skip (· == ' ') = s.cursor.next.skip (· == ' ') := by
    rw [Cursor.skip, Cursor.skip, Cursor.span, Cursor.span, Cursor.rest_next, h]
    rfl
  rw [skipBlanks, skipBlanks, hskip]
  rfl

/-- What may be read where a text has been pasted. -/
def Lost (t : List Char) (x : String) : Prop := isPlainLine x.toList = true ∨ Shrunk x.toList t

theorem gives_lost (t : List Char) : Node.Gives (Token.Fits t) (Lost t) where
  scalar _ _ h := h
  tag _ h := .inr (.inl (List.length_pos_of_ne_nil h))

/-! ### Documents -/

/-- The place of a value in a document of sections. It is neither in the first section nor in the
last one, and there are other entries in front of it. -/
structure Slot where
  comment : List Char
  front : List Section
  name : List Char
  entries : List KeyedLine
  key : List Char
  last : List Char × KeyedLine

namespace Slot

/-- Whether everything around the value can be read as it stands. The last section consists of
ordinary words. -/
structure IsPlain (d : Slot) : Prop where
  comment : ∀ x ∈ d.comment, isCommentChar x = true
  front : d.front ≠ []
  sections : ∀ s ∈ d.front ++ [(d.name, d.entries), (d.last.1, [d.last.2])],
    Section.isPlain s = true
  key : isKeyWord d.key = true
  last : ∀ x ∈ d.last.1 ++ d.last.2.1 ++ d.last.2.2, isOrdinary x = true

/-- The sections with a value. -/
def sections (d : Slot) (value : List Char) : List Section :=
  d.front ++ [(d.name, d.entries ++ [(d.key, value)]), (d.last.1, [d.last.2])]

/-- The document with a value, which is pasted into it as it is. -/
def document (d : Slot) (value : String) : String := documentOf d.comment (d.sections value.toList)

/-- What stands in front of the value. -/
def before (d : Slot) (more : List Char) : List Char :=
  '#' :: d.comment ++ '\n' :: '\n' :: linesOfSections d.front
    (d.name ++ ':' :: (linesOf d.entries ++ '\n' :: ' ' :: ' ' :: (d.key ++ ':' :: ' ' :: more)))

/-- What stands behind the value and two line ends. -/
def behind (d : Slot) : List Char := d.last.1 ++ ':' :: (linesOf [d.last.2] ++ ['\n'])

/-- The tokens in front of the value. -/
def tokensBefore (d : Slot) : List Token :=
  topTokens d.front ++ .blockEnd :: sectionTokens d.name d.entries ++
    [.key, .scalar (String.ofList d.key) true, .value]

variable {d : Slot}

theorem IsPlain.front_isPlain (h : d.IsPlain) : ∀ s ∈ d.front, s.isPlain = true :=
  fun s hs => h.sections s (List.mem_append_left _ hs)

/-- There is an entry in front of the value. -/
theorem IsPlain.exists_entry (h : d.IsPlain) : isKeyWord d.name = true ∧
    ∃ e es, d.entries = e :: es ∧ ∀ e' ∈ e :: es, e'.isPlain = true :=
  Yaml.exists_entry (h.sections (d.name, d.entries) (by simp))

/-- The last section. -/
theorem IsPlain.isPlain_last (h : d.IsPlain) :
    isKeyWord d.last.1 = true ∧ ∀ e ∈ [d.last.2], e.isPlain = true := by
  have hlast := h.sections (d.last.1, [d.last.2]) (by simp)
  simpa [Section.isPlain] using hlast

/-- With a plain line as its value, the document can be read as it stands. -/
theorem IsPlain.isPlain_sections (h : d.IsPlain) {value : List Char}
    (hvalue : isPlainLine value = true) : ∀ s ∈ d.sections value, s.isPlain = true := by
  obtain ⟨hname, e, es, hentries, hes⟩ := h.exists_entry
  obtain ⟨hlast, hentry⟩ := h.isPlain_last
  have hline : KeyedLine.isPlain (d.key, value) = true := by
    rw [KeyedLine.isPlain, h.key, hvalue]
    rfl
  refine List.forall_mem_append.2 ⟨h.front_isPlain, List.forall_mem_cons.2
    ⟨isPlain_section hname (by simp) (List.forall_mem_append.2 ⟨hentries ▸ hes, ?_⟩),
      List.forall_mem_singleton.2 (isPlain_section hlast (by simp) hentry)⟩⟩
  exact List.forall_mem_singleton.2 hline

theorem toList_document (d : Slot) (value : String) :
    (d.document value).toList = d.before (value.toList ++ '\n' :: '\n' :: d.behind) := by
  rw [document, documentOf, String.toList_ofList, sections, linesOfSections_append]
  simp [before, behind, linesOfSections, linesOf]

theorem before_append (d : Slot) (more : List Char) : d.before more = d.before [] ++ more := by
  have hlines := linesOfSections_more d.front (d.name ++ ':' :: (linesOf d.entries ++
    '\n' :: ' ' :: ' ' :: (d.key ++ [':', ' ']))) more (by simp)
  simp only [List.append_assoc, List.cons_append, List.nil_append] at hlines
  simp [before, hlines]

/-! ### Characters -/

section Characters

variable {P : Char → Prop}

theorem forall_mem_before (hd : d.IsPlain) (hbreak : P '\n')
    (hline : ∀ x, isLineChar x = true → P x) : ∀ x ∈ d.before [], P x := by
  obtain ⟨hname, e, es, hentries, hes⟩ := hd.exists_entry
  have hword : ∀ {k : List Char}, isKeyWord k = true → ∀ x ∈ k, P x :=
    fun hk x hx => hline x (isLineChar_of_key hk x hx)
  refine List.forall_mem_append.2 ⟨List.forall_mem_cons.2 ⟨hline _ (by decide), fun x hx =>
    hline x (Bool.and_eq_true_iff.1 (hd.comment x hx)).1⟩, List.forall_mem_cons.2 ⟨hbreak,
      List.forall_mem_cons.2 ⟨hbreak, forall_mem_linesOfSections hd.front_isPlain hbreak hline ?_⟩⟩⟩
  -- The name of the section, its entries, and the key.
  refine List.forall_mem_append.2 ⟨hword hname, List.forall_mem_cons.2 ⟨hline _ (by decide),
    List.forall_mem_append.2 ⟨?_, List.forall_mem_cons.2 ⟨hbreak, ?_⟩⟩⟩⟩
  · exact hentries ▸ forall_mem_linesOf hes hbreak hline
  · exact List.forall_mem_cons.2 ⟨hline _ (by decide), List.forall_mem_cons.2 ⟨hline _ (by decide),
      List.forall_mem_append.2 ⟨hword hd.key, List.forall_mem_cons.2 ⟨hline _ (by decide),
        List.forall_mem_singleton.2 (hline _ (by decide))⟩⟩⟩⟩

theorem forall_mem_behind (hd : d.IsPlain) (hbreak : P '\n')
    (hline : ∀ x, isLineChar x = true → P x) : ∀ x ∈ d.behind, P x := by
  obtain ⟨hname, hentry⟩ := hd.isPlain_last
  refine List.forall_mem_append.2 ⟨fun x hx => hline x (isLineChar_of_key hname x hx),
    List.forall_mem_cons.2 ⟨hline _ (by decide), ?_⟩⟩
  exact List.forall_mem_append.2 ⟨forall_mem_linesOf hentry hbreak hline,
    List.forall_mem_singleton.2 hbreak⟩

end Characters

/-! ### Scanning -/

/-- **The scanner comes to the value,** whatever the value is. -/
theorem reaches_value (hd : d.IsPlain) (more : List Char) : ∃ i l,
    Reaches (roundsOf d.front + 3 * d.entries.length + 4)
      (outside ⟨d.before more, 0, 0, 0⟩ [] [] true)
      (outside ⟨' ' :: more, i, l, 2 + d.key.length + 1⟩ d.tokensBefore [2, 0] false) := by
  obtain ⟨hname, e, es, hentries, hes⟩ := hd.exists_entry
  -- The sections in front of the value, then its own one up to the key.
  obtain ⟨i₁, l₁, h₁⟩ := reaches_top hd.comment hd.front hd.front_isPlain
    (.inr ⟨d.name, ':' :: (linesOf d.entries ++ '\n' :: ' ' :: ' ' ::
      (d.key ++ ':' :: ' ' :: more)), hname, rfl⟩)
  obtain ⟨i₂, l₂, h₂⟩ := reaches_further (i := i₁) (l := l₁) (topTokens d.front) hname hes
    (lineEnds_entry hd.key (':' :: ' ' :: more)) le_rfl
  have h₃ := reaches_key (i := i₂) (l := l₂) 2
    (topTokens d.front ++ .blockEnd :: sectionTokens d.name (e :: es)) [] [2, 0] more hd.key
    (show isBlankOrEnd ' ' = true from rfl) (List.forall_mem_nil _) (by simp)
  rw [← hentries] at h₂ h₃
  have hrounds : roundsOf d.front + 3 * d.entries.length + 4 =
      roundsOf d.front + (3 * es.length + 5 + 2) := by
    rw [hentries, List.length_cons]
    omega
  refine ⟨i₂ + d.key.length + 1, l₂, ?_⟩
  rw [hrounds]
  refine h₁.trans (h₂.trans ?_)
  simpa [tokensBefore] using h₃

/-- In front of the value there are more characters than tokens in all. -/
theorem rounds_le_before (d : Slot) (more : List Char) :
    roundsOf d.front + 3 * d.entries.length + 4 ≤ (d.before more).length := by
  have hfront := rounds_le d.front
    (d.name ++ ':' :: (linesOf d.entries ++ '\n' :: ' ' :: ' ' :: (d.key ++ ':' :: ' ' :: more)))
  have hentries := length_le_linesOf d.entries
  simp only [before, List.length_append, List.length_cons] at hfront ⊢
  omega

/-- **The scanner comes to the value,** and goes on from there. -/
theorem ofText?_before (hd : d.IsPlain) {text : String} {more : List Char}
    (htext : text.toList = d.before more) (hallowed : ∀ x ∈ text.toList, isAllowed x = true) :
    ∃ i l column fuel, Token.ofText? text =
      (scanAll? (outside ⟨' ' :: more, i, l, column⟩ d.tokensBefore [2, 0] false) fuel).map
        (·.tokens.toList) := by
  obtain ⟨i, l, hreaches⟩ := d.reaches_value hd more
  have hrounds := d.rounds_le_before more
  rw [← htext] at hreaches hrounds
  rw [String.length_toList] at hrounds
  have hcons : text.toList = '#' :: (d.comment ++ _) := htext
  exact ⟨i, l, _, _, ofText?_of_reaches hallowed hcons (by decide) hreaches hrounds⟩

/-! ### Tokens of documents -/

theorem fits_tokensBefore (hd : d.IsPlain) (t : List Char) : ∀ u ∈ d.tokensBefore, u.Fits t := by
  obtain ⟨hname, e, es, hentries, hes⟩ := hd.exists_entry
  refine List.forall_mem_append.2 ⟨List.forall_mem_append.2 ⟨fits_topTokens hd.front_isPlain,
    List.forall_mem_cons.2 ⟨trivial, fits_sectionTokens hname (hentries ▸ hes)⟩⟩, ?_⟩
  exact List.forall_mem_cons.2 ⟨trivial, List.forall_mem_cons.2
    ⟨fits_scalar (isPlainLine_of_key hd.key) true, List.forall_mem_singleton.2 trivial⟩⟩

/-- Behind the value there are ordinary words. -/
theorem isWords_behind (hd : d.IsPlain) :
    IsWords d.behind ∧ ∃ x xs, d.behind = x :: xs ∧ isOrdinary x = true := by
  have hlast := hd.last
  rw [List.forall_mem_append, List.forall_mem_append] at hlast
  obtain ⟨x, xs, hcons, -⟩ := isKeyWord_cons hd.isPlain_last.1
  refine ⟨isWords_section hlast.1.1 hlast.1.2 hlast.2, x, _, by rw [behind, hcons]; rfl, ?_⟩
  exact hlast.1.1 x (hcons ▸ List.mem_cons_self)

/-- **The tokens of a document,** whatever its value is. -/
theorem fits_ofText? (hd : d.IsPlain) {text : String} {ts : List Token}
    (htext : text.toList = d.before (t ++ '\n' :: '\n' :: d.behind)) (hreturn : '\r' ∉ t)
    (h : Token.ofText? text = some ts) : ∀ u ∈ ts, u.Fits t := by
  have hallowed : ∀ x ∈ text.toList, isAllowed x = true := by
    unfold Token.ofText? at h
    split at h
    · next hall => exact List.all_eq_true.1 hall
    · cases h
  have ht : ∀ x ∈ t, isUnified x = true := by
    intro x hx
    rw [isUnified, Bool.and_eq_true, bne_iff_ne]
    refine ⟨hallowed x ?_, fun heq => hreturn (heq ▸ hx)⟩
    rw [htext, before_append]
    exact List.mem_append_right _ (List.mem_append_left _ hx)
  obtain ⟨i, l, column, fuel, htokens⟩ := ofText?_before hd htext hallowed
  obtain ⟨hwords, hhead⟩ := isWords_behind hd
  rw [htokens] at h
  obtain ⟨s, hs, rfl⟩ := Option.map_eq_some_iff.1 h
  refine Within.scanAll ?_ ht hwords hhead hs
  rw [skipBlanks_blank _ rfl]
  refine Within.skipBlanks ⟨fits_tokensBefore hd t, ⟨?_, fun hrest => ?_⟩,
    fun hflow => ?_, .inl ?_⟩ _
  · exact List.suffix_rfl
  · -- The section at the end does not start here.
    have hlength := congrArg List.length hrest
    change (t ++ '\n' :: '\n' :: d.behind).length = d.behind.length at hlength
    rw [List.length_append, List.length_cons, List.length_cons] at hlength
    omega
  · cases hflow
  · exact List.mem_cons_of_mem _ List.mem_cons_self

/-! ### Values -/

/-- **A value that is no plain line** is not read from the document that it is pasted into. -/
theorem texts_document (hd : d.IsPlain) {value : String} {v : Datum}
    (h : Datum.ofBytes (d.document value).toUTF8 = .ok v) :
    v.Texts fun x => isPlainLine x.toList = true ∨ x ≠ value := by
  -- What stands around the value has no carriage return, so only the value itself is unified.
  have hreturn : '\r' ∉ d.before [] := fun hmem => forall_mem_before (P := (· ≠ '\r')) hd
    (by decide) (fun _ => ne_return_of_isLineChar) _ hmem rfl
  have hbehind : '\r' ∉ d.behind := fun hmem => forall_mem_behind (P := (· ≠ '\r')) hd
    (by decide) (fun _ => ne_return_of_isLineChar) _ hmem rfl
  obtain ⟨t, ht, hunified, hlength, hcount⟩ :=
    Text.exists_unifyLineEnds value.toList ('\n' :: d.behind)
  have htext : Text.unifyLineEnds (d.document value).toList =
      d.before (t ++ '\n' :: '\n' :: d.behind) := by
    rw [d.toList_document, before_append, Text.unifyLineEnds_append hreturn, hunified,
      Text.unifyLineEnds_of_not_mem (by simpa using hbehind), ← before_append]
  rw [Datum.ofBytes_toUTF8, htext] at h
  have htexts := Datum.texts_ofText (gives_lost t)
    (fun ts hts => fits_ofText? hd (String.toList_ofList) ht hts) h
  refine htexts.mono fun x hlost => ?_
  -- What is read is a plain line, or shorter than the value, or it has lost a character.
  rcases hlost with hline | hshort | ⟨k, hk, hless⟩
  · exact .inl hline
  · right
    rintro rfl
    omega
  · right
    rintro rfl
    refine absurd (hcount k ?_) (Nat.not_le.2 hless)
    rintro rfl
    revert hk
    decide

end Slot
end Yaml
end Horn
