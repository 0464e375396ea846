import Horn.Proofs.Act
import Horn.Proofs.Yaml.Entries

/-!
# Documents of sections

A document of sections is a comment with some sections of plain entries behind it, which are kept
apart by empty lines (`documentOf`). Whatever the sections are, the tokens of the document are
theirs (`ofText?_documentOf`), and its value is the map of their values (`ofBytes_documentOf`).

The scanner is followed through the sections with the rest of the document behind them, whatever the
rest is (`reaches_top`).
-/

namespace Horn
namespace Yaml

open Node (Section tokensOfSections)
open Scanner

/-! ### Text -/

/-- Whether the lines of a section can be read as they stand. A section has at least one entry. -/
def Node.Section.isPlain (s : Section) : Bool :=
  isKeyWord s.1 && !s.2.isEmpty && s.2.all KeyedLine.isPlain

theorem isPlain_section {k : List Char} {es : List KeyedLine} (hk : isKeyWord k = true)
    (hne : es ≠ []) (hes : ∀ e ∈ es, e.isPlain = true) : Section.isPlain (k, es) = true := by
  simp [Section.isPlain, hk, hne, List.all_eq_true.2 hes]

theorem exists_entry {s : Section} (h : s.isPlain = true) : isKeyWord s.1 = true ∧
    ∃ e es, s.2 = e :: es ∧ ∀ e' ∈ e :: es, e'.isPlain = true := by
  simp only [Section.isPlain, Bool.and_eq_true, Bool.not_eq_true', List.all_eq_true] at h
  obtain ⟨⟨hname, hne⟩, hes⟩ := h
  obtain ⟨e, es, hcons⟩ := List.exists_cons_of_ne_nil (by simpa using hne : s.2 ≠ [])
  exact ⟨hname, e, es, hcons, hcons ▸ hes⟩

/-- The lines of sections with the rest of a document behind them, and an empty line between two
parts. -/
def linesOfSections : List Section → List Char → List Char
  | [], more => more
  | s :: ss, more => s.1 ++ ':' :: (linesOf s.2 ++ '\n' ::
      (if ss.isEmpty && more.isEmpty then [] else '\n' :: linesOfSections ss more))

/-- The document of some sections. -/
def documentOf (comment : List Char) (ss : List Section) : String :=
  String.ofList ('#' :: comment ++ '\n' :: '\n' :: linesOfSections ss [])

theorem isEmpty_linesOfSections (ss : List Section) (more : List Char) :
    (linesOfSections ss more).isEmpty = (ss.isEmpty && more.isEmpty) := by
  cases ss <;> simp [linesOfSections]

/-- The last ones of some sections are the rest behind the others. -/
theorem linesOfSections_append (ss ss' : List Section) (more : List Char) :
    linesOfSections (ss ++ ss') more = linesOfSections ss (linesOfSections ss' more) := by
  induction ss with
  | nil => rfl
  | cons s ss ih => simp [linesOfSections, ih, isEmpty_linesOfSections, and_assoc]

/-- The rest of a document stands behind the sections as it is. -/
theorem linesOfSections_more (ss : List Section) (more xs : List Char) (hne : more ≠ []) :
    linesOfSections ss (more ++ xs) = linesOfSections ss more ++ xs := by
  induction ss with
  | nil => rfl
  | cons s ss ih => simp [linesOfSections, ih, hne]

/-- Whether a character may stand in a comment. -/
def isCommentChar (x : Char) : Bool := isLineChar x && x != '\uFEFF'

section Characters

variable {P : Char → Prop} {ss : List Section} {more : List Char}

theorem forall_mem_linesOfSections (hss : ∀ s ∈ ss, s.isPlain = true) (hbreak : P '\n')
    (hline : ∀ x, isLineChar x = true → P x) (hmore : ∀ x ∈ more, P x) :
    ∀ x ∈ linesOfSections ss more, P x := by
  induction ss with
  | nil => exact hmore
  | cons s ss ih =>
    rw [List.forall_mem_cons] at hss
    obtain ⟨hname, e, es, hcons, hes⟩ := exists_entry hss.1
    have hrest : ∀ x ∈ (if ss.isEmpty && more.isEmpty then [] else
        '\n' :: linesOfSections ss more), P x := by
      split
      · exact List.forall_mem_nil _
      · exact List.forall_mem_cons.2 ⟨hbreak, ih hss.2⟩
    rw [linesOfSections]
    refine List.forall_mem_append.2 ⟨fun x hx => hline x (isLineChar_of_key hname x hx),
      List.forall_mem_cons.2 ⟨hline _ (by decide), List.forall_mem_append.2 ⟨?_,
        List.forall_mem_cons.2 ⟨hbreak, hrest⟩⟩⟩⟩
    rw [hcons]
    exact forall_mem_linesOf hes hbreak hline

/-- What holds of line feeds and of the characters of a line holds in a document. -/
theorem forall_mem_documentOf {comment : List Char}
    (hcomment : ∀ x ∈ comment, isCommentChar x = true) (hss : ∀ s ∈ ss, s.isPlain = true)
    (hbreak : P '\n') (hline : ∀ x, isLineChar x = true → P x) :
    ∀ x ∈ (documentOf comment ss).toList, P x := by
  rw [documentOf, String.toList_ofList]
  refine List.forall_mem_append.2 ⟨List.forall_mem_cons.2 ⟨hline _ (by decide), fun x hx =>
    hline x (Bool.and_eq_true_iff.1 (hcomment x hx)).1⟩, List.forall_mem_cons.2 ⟨hbreak,
      List.forall_mem_cons.2 ⟨hbreak,
        forall_mem_linesOfSections hss hbreak hline (List.forall_mem_nil _)⟩⟩⟩

end Characters

/-! ### Tokens -/

namespace Scanner

variable {ss : List Section} {comment : List Char}

/-- The scanner skips the comment on top. -/
theorem reaches_comment {k : List Char}
    (hcomment : ∀ x ∈ comment, isCommentChar x = true) (hk : isKeyWord k = true)
    (more : List Char) : ∃ i l,
      Reaches 0 (outside ⟨'#' :: comment ++ '\n' :: '\n' :: (k ++ more), 0, 0, 0⟩ [] [] true)
        (outside ⟨k ++ more, i, l, 0⟩ [] [] true) := by
  obtain ⟨x, xs, hcons, hx, -⟩ := exists_content hk more
  have hline : ∀ y ∈ comment, isEnd y = false ∧ y ≠ '\uFEFF' := by
    intro y hy
    have hchar := hcomment y hy
    simp only [isCommentChar, isLineChar, Bool.and_eq_true, Bool.not_eq_true', bne_iff_ne] at hchar
    refine ⟨Bool.or_eq_false_iff.2 ⟨beq_eq_false_iff_ne.2 ?_, hchar.1.1.1.2⟩, hchar.2⟩
    rintro rfl
    exact absurd hchar.1.1.1.1 (by decide)
  rw [hcons]
  refine ⟨0 + comment.length + 3, 2, reaches_of_skipBlanks ?_⟩
  -- The comment with its line end, then an empty line.
  rw [skipBlanks_comment rfl hline, skipBlanks_content (show _ = x :: xs from rfl) hx]
  dsimp only [outside]
  rw [List.length_append, List.length_cons, List.length_cons, List.length_cons]
  refine (skipBlanks_lineFeed rfl _).trans ?_
  exact skipBlanks_content (show _ = x :: xs from rfl) hx _

/-- What may stand behind sections: nothing, or something that starts with the name of a section. -/
def StartsSection (more : List Char) : Prop :=
  more = [] ∨ ∃ k xs, isKeyWord k = true ∧ more = k ++ xs

variable {more : List Char}

/-- Behind a section there is the next one, or the end. -/
theorem lineEnds_sections (hss : ∀ s ∈ ss, s.isPlain = true) (hmore : StartsSection more) :
    LineEnds ('\n' :: if ss.isEmpty && more.isEmpty then [] else '\n' :: linesOfSections ss more)
      (linesOfSections ss more) 0 := by
  cases ss with
  | nil =>
    obtain rfl | ⟨k, xs, hk, rfl⟩ := hmore
    · exact lineEnds_last
    · obtain ⟨x, ys, hcons, -⟩ := exists_content hk xs
      rw [linesOfSections, if_neg (by simp [hcons])]
      exact lineEnds_section hk xs
  | cons s ss => exact lineEnds_section (exists_entry (hss s List.mem_cons_self)).1 _

/-- How many rounds of the scanner the sections take. -/
def roundsOf : List Section → Nat
  | [] => 0
  | s :: ss => 3 * s.2.length + 2 + roundsOf ss

/-- **Sections** behind another one. -/
theorem reaches_sections (hss : ∀ s ∈ ss, s.isPlain = true) (hmore : StartsSection more) (i l : Nat)
    (tokens : List Token) : ∃ i' l', Reaches (roundsOf ss)
      (outside ⟨linesOfSections ss more, i, l, 0⟩ tokens [2, 0] true)
      (outside ⟨more, i', l', 0⟩
        (tokens ++ ss.flatMap fun s => .blockEnd :: sectionTokens s.1 s.2) [2, 0] true) := by
  induction ss generalizing i l tokens with
  | nil => exact ⟨i, l, fun fuel => by simp [linesOfSections, roundsOf]⟩
  | cons s ss ih =>
    rw [List.forall_mem_cons] at hss
    obtain ⟨hname, e, es, hcons, hes⟩ := exists_entry hss.1
    obtain ⟨i₁, l₁, hsection⟩ := reaches_further (i := i) (l := l) tokens hname hes
      (lineEnds_sections hss.2 hmore) (Nat.zero_le 2)
    obtain ⟨i₂, l₂, hrest⟩ := ih hss.2 i₁ l₁ (tokens ++ .blockEnd :: sectionTokens s.1 s.2)
    refine ⟨i₂, l₂, ?_⟩
    rw [hcons] at hrest
    rw [linesOfSections, roundsOf, List.flatMap_cons, hcons, ← List.append_assoc]
    exact hsection.trans hrest

/-- The tokens of the first sections of a document, but for the end of the last one of them. -/
def topTokens : List Section → List Token
  | [] => []
  | s :: ss => .blockMapping :: sectionTokens s.1 s.2 ++
      ss.flatMap fun s => .blockEnd :: sectionTokens s.1 s.2

/-- **The top of a document:** the comment and some sections, whatever the rest is. -/
theorem reaches_top (hcomment : ∀ x ∈ comment, isCommentChar x = true) (hne : ss ≠ [])
    (hss : ∀ s ∈ ss, s.isPlain = true) (hmore : StartsSection more) : ∃ i l, Reaches (roundsOf ss)
      (outside ⟨'#' :: comment ++ '\n' :: '\n' :: linesOfSections ss more, 0, 0, 0⟩ [] [] true)
      (outside ⟨more, i, l, 0⟩ (topTokens ss) [2, 0] true) := by
  obtain ⟨s, ss, rfl⟩ := List.exists_cons_of_ne_nil hne
  rw [List.forall_mem_cons] at hss
  obtain ⟨hname, e, es, hcons, hes⟩ := exists_entry hss.1
  -- The comment, the first section, then the other ones.
  obtain ⟨i₁, l₁, hstart⟩ := reaches_comment hcomment hname (':' :: (linesOf s.2 ++ '\n' ::
    (if ss.isEmpty && more.isEmpty then [] else '\n' :: linesOfSections ss more)))
  obtain ⟨i₂, l₂, hfirst⟩ := reaches_first (i := i₁) (l := l₁) hname hes
    (lineEnds_sections hss.2 hmore) (Nat.zero_le 2)
  obtain ⟨i₃, l₃, hrest⟩ := reaches_sections hss.2 hmore i₂ l₂
    (.blockMapping :: sectionTokens s.1 s.2)
  rw [← hcons] at hfirst
  refine ⟨i₃, l₃, ?_⟩
  have hcount : roundsOf (s :: ss) = 0 + (3 * es.length + 5 + roundsOf ss) := by
    rw [roundsOf, hcons, List.length_cons]
    omega
  rw [hcount]
  exact hstart.trans (hfirst.trans hrest)

/-- Each line of an entry has six characters that are neither in its key nor in its value. -/
theorem length_le_linesOf (es : List KeyedLine) : 3 * es.length ≤ (linesOf es).length := by
  induction es with
  | nil => exact Nat.zero_le _
  | cons e es ih =>
    simp only [linesOf, List.flatMap_cons, List.length_append, List.length_cons] at ih ⊢
    omega

theorem rounds_le (ss : List Section) (more : List Char) :
    roundsOf ss + more.length ≤ (linesOfSections ss more).length := by
  induction ss with
  | nil => exact Nat.le_of_eq (Nat.zero_add _)
  | cons s ss ih =>
    have hsection := length_le_linesOf s.2
    rw [linesOfSections, roundsOf]
    split
    · next hnil =>
      simp only [Bool.and_eq_true, List.isEmpty_iff] at hnil
      obtain ⟨rfl, rfl⟩ := hnil
      simp only [roundsOf, List.length_append, List.length_cons, List.length_nil]
      omega
    · simp only [List.length_append, List.length_cons]
      omega

end Scanner

variable {comment : List Char} {ss : List Section}

/-- The tokens of sections, with the end of each section in front of the next one. -/
theorem tokensOfSections_cons (s : Section) (ss : List Section) : tokensOfSections (s :: ss) =
    sectionTokens s.1 s.2 ++ (ss.flatMap fun s => .blockEnd :: sectionTokens s.1 s.2)
      ++ [.blockEnd] := by
  induction ss generalizing s with
  | nil => simp [tokensOfSections]
  | cons s' ss ih =>
    have htail : tokensOfSections (s :: s' :: ss) =
        sectionTokens s.1 s.2 ++ [.blockEnd] ++ tokensOfSections (s' :: ss) := by
      simp [tokensOfSections]
    rw [htail, ih, List.flatMap_cons]
    simp

/-- **The tokens of a document of sections.** -/
theorem ofText?_documentOf (hcomment : ∀ x ∈ comment, isCommentChar x = true) (hne : ss ≠ [])
    (hss : ∀ s ∈ ss, s.isPlain = true) : Token.ofText? (documentOf comment ss) =
      some (.blockMapping :: tokensOfSections ss ++ [.blockEnd]) := by
  have hallowed : ∀ x ∈ (documentOf comment ss).toList, isAllowed x = true :=
    forall_mem_documentOf hcomment hss (by decide) fun _ => isAllowed_of_isLineChar
  have htext : (documentOf comment ss).toList =
      '#' :: (comment ++ '\n' :: '\n' :: linesOfSections ss []) := by
    rw [documentOf, String.toList_ofList]
    rfl
  obtain ⟨i, l, hreaches⟩ := reaches_top hcomment hne hss (.inl rfl)
  have hrounds := rounds_le ss []
  have hlength : (documentOf comment ss).length =
      comment.length + (linesOfSections ss []).length + 3 := by
    rw [← String.length_toList, htext]
    simp only [List.length_append, List.length_cons]
    omega
  obtain ⟨s, ss, rfl⟩ := List.exists_cons_of_ne_nil hne
  rw [ofText?_of_reaches hallowed htext (by decide) (by rw [htext]; exact hreaches)
    (by rw [List.length_nil] at hrounds; omega), scanAll?_last, topTokens, tokensOfSections_cons]
  simp

/-! ### Values -/

namespace Datum

/-- Only the kind of texts gives a text. -/
theorem kind_of_ofPlain {s t : String} (h : ofPlain s = .ok (.text t)) :
    Kind.ofPlain s = .text := by
  unfold ofPlain ofScalar at h
  split at h
  · cases h
  · split at h <;> cases h
  · obtain ⟨n, -, h⟩ := map_eq_ok.1 h
    cases h
  · obtain ⟨x, -, h⟩ := map_eq_ok.1 h
    cases h
  · obtain ⟨m, -, h⟩ := map_eq_ok.1 h
    cases h
  · next hkind => exact hkind
  · cases h

/-- The value of what has been written with line ends of any kind. -/
theorem ofBytes_toUTF8 (text : String) :
    ofBytes text.toUTF8 = ofText (String.ofList (Text.unifyLineEnds text.toList)) := by
  unfold ofBytes Text.ofBytes String.fromUTF8?
  rw [dif_pos (show text.toUTF8.IsValidUTF8 from text.isValidUTF8)]
  rfl

/-- **The value of a document of sections** is the map of their values. -/
theorem ofBytes_documentOf (hcomment : ∀ x ∈ comment, isCommentChar x = true) (hne : ss ≠ [])
    (hss : ∀ s ∈ ss, s.isPlain = true)
    (hkeys : ∀ s ∈ ss, ofPlain (String.ofList s.1) = .ok (.text (String.ofList s.1)) ∧
      ∀ e ∈ s.2, ofPlain (String.ofList e.1) = .ok (.text (String.ofList e.1))) :
    ofBytes (documentOf comment ss).toUTF8 = ofSections ofPlain ss := by
  have hreturn : '\r' ∉ (documentOf comment ss).toList := fun hmem =>
    forall_mem_documentOf (P := (· ≠ '\r')) hcomment hss (by decide)
      (fun _ => ne_return_of_isLineChar) _ hmem rfl
  rw [ofBytes_toUTF8, Text.unifyLineEnds_of_not_mem hreturn, String.ofList_toList, ofText,
    Node.ofText?_sections (ofText?_documentOf hcomment hne hss)]
  exact ofNode_nodesOfSections fun s hs => ⟨kind_of_ofPlain (hkeys s hs).1, fun e he =>
    kind_of_ofPlain ((hkeys s hs).2 e he)⟩

end Datum

end Yaml
end Horn
