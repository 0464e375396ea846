import Horn.Proofs.Config.Faults
import Horn.Proofs.Yaml.Rules

/-!
# Settings as a document

What becomes of settings that are written as a document and read again. The document consists of
three sections, and all of its values but one are plain lines whatever the settings are: flags, an
integer and the name of a level. The exception is the name of the oracle, which is pasted into the
line behind its key as it is (`text_eq_document`).

Nothing is assumed of the reader but that it follows the rules of documents
(`Yaml.Reader.FollowsYaml`).

* `ofBytes_text`: if the name is a plain line, the settings are read back, but for the name, which
  is what its line denotes.
* `texts_ofBytes`: whatever the name is, what is read as the name occurs in the document.
-/

namespace Horn

/-! ### Levels -/

namespace Level

open Yaml

/-- Whether a character is a letter in the name of a level. -/
def isLetter (c : Char) : Bool := (upper c).isUpper

/-- The letters of ASCII, and two more. -/
theorem toNat_of_isLetter {c : Char} (h : isLetter c = true) :
    (65 ≤ c.toNat ∧ c.toNat ≤ 122) ∨ c = 'ı' ∨ c = 'ſ' := by
  unfold isLetter upper at h
  split at h
  -- The dotless i and the long s are letters too, since `upper` makes ASCII letters of them.
  · next hc => exact .inr (.inl (beq_iff_eq.1 hc))
  · split at h
    · next hc => exact .inr (.inr (beq_iff_eq.1 hc))
    · left
      -- The upper case is a letter from A to Z: the letter is one itself, or a lower case of one.
      unfold Char.toUpper at h
      split at h
      · next hc =>
        have hlow := UInt32.le_iff_toNat_le.1 hc.1
        have hhigh := UInt32.le_iff_toNat_le.1 hc.2
        exact ⟨le_trans (by decide) hlow, hhigh⟩
      · unfold Char.isUpper at h
        rw [decide_eq_true_eq] at h
        have hlow := UInt32.le_iff_toNat_le.1 h.1
        have hhigh := UInt32.le_iff_toNat_le.1 h.2
        exact ⟨hlow, le_trans hhigh (by decide)⟩

theorem isOrdinary_of_isLetter {c : Char} (h : isLetter c = true) : isOrdinary c = true := by
  -- The range of the letters is allowed as a whole.
  have hallowed : isAllowed c = true := by
    rcases toNat_of_isLetter h with hrange | rfl | rfl
    · simp only [isAllowed, Bool.or_eq_true, Bool.and_eq_true, decide_eq_true_eq, beq_iff_eq]
      omega
    · decide
    · decide
  have hne := fun e he => ne_of_class h (y := e) he
  have hline : isLineChar c = true := by
    simp only [isLineChar, hallowed, isBreak, Bool.and_eq_true, Bool.not_eq_true', bne_iff_ne,
      Bool.or_eq_false_iff, beq_eq_false_iff_ne, true_and]
    exact ⟨⟨⟨⟨⟨hne _ (by decide), hne _ (by decide)⟩, hne _ (by decide)⟩, hne _ (by decide)⟩,
      hne _ (by decide)⟩, hne _ (by decide)⟩
  simp only [isOrdinary, isWordChar_of_class (by decide) hline h, Bool.true_and,
    Bool.and_eq_true, bne_iff_ne]
  exact ⟨hne _ (by decide), hne _ (by decide)⟩

/-- The names of levels, in capitals. -/
theorem mem_of_number {name : String} {n : Nat} (h : number name = .ok n) :
    name.map upper ∈ table.map (·.1) := by
  unfold number at h
  split at h
  · next m hm =>
    obtain ⟨before, behind, htable, -⟩ := List.lookup_eq_some_iff.1 hm
    rw [htable, List.map_append]
    exact List.mem_append_right _ List.mem_cons_self
  · cases h

/-- The name of a level is a word. -/
theorem isLetter_of_number {name : String} {n : Nat} (h : number name = .ok n) :
    name.toList ≠ [] ∧ ∀ c ∈ name.toList, isLetter c = true := by
  have hmem := mem_of_number h
  have hletters : ∀ t ∈ table.map (·.1), t.toList.all Char.isUpper = true := by decide
  refine ⟨fun hnil => ?_, fun c hc => List.all_eq_true.1 (hletters _ hmem) _ ?_⟩
  · have hempty : name = "" := by rw [← String.ofList_toList (s := name), hnil]
    have hnone : "".map upper ∉ table.map (·.1) := by decide +kernel
    exact hnone (hempty ▸ hmem)
  · rw [String.toList_map]
    exact List.mem_map_of_mem hc

/-- **A level** is written as a word that denotes itself. -/
theorem isPlainWord_of_number {name : String} {n : Nat} (h : number name = .ok n) :
    isPlainWord name = true := by
  have hmem := mem_of_number h
  obtain ⟨hne, hall⟩ := isLetter_of_number h
  -- The capitals of the words that denote something else are no names.
  have hwords : ∀ t ∈ reserved, t.map upper ∉ table.map (·.1) := by decide +kernel
  refine isPlainWord_iff.2 ⟨⟨⟨isPlainLine_of_isOrdinary hne fun c hc =>
    isOrdinary_of_isLetter (hall c hc), fun c hc => ?_⟩, fun c hc => ?_⟩,
    fun hreserved => hwords _ hreserved hmem⟩
  · have hletter := hall c (List.mem_of_mem_head? hc)
    refine ⟨?_, ne_of_class hletter (by decide), ne_of_class hletter (by decide)⟩
    rw [← Bool.not_eq_true, Char.isDigit_iff_toNat]
    rcases toNat_of_isLetter hletter with hrange | rfl | rfl
    · exact fun hdigit => absurd (le_trans hrange.1 hdigit.2) (by decide)
    · decide
    · decide
  · exact ⟨ne_of_class (hall c hc) (by decide), ne_of_class (hall c hc) (by decide)⟩

end Level

/-! ### Settings -/

namespace Config

open Yaml Yaml.Scanner

/-- The entries of the section for splitting. -/
def splitEntries (c : SplitConfig) : List KeyedLine := [
  ("enabled".toList, (flagText c.enabled).toList), ("sort".toList, (flagText c.sort).toList),
  ("infer".toList, (flagText c.infer).toList), ("step".toList, (flagText c.step).toList)]

/-- The text of the comment on top. -/
def title : List Char := " .chcsplit.yml".toList

theorem isCommentChar_title : ∀ x ∈ title, isCommentChar x = true :=
  List.all_eq_true.1 (by decide)

/-- The sections of settings. -/
def sections (c : Config) : List Node.Section := [
  ("split".toList, splitEntries c.split),
  ("reconstruction".toList, [("timeout-ms".toList, (toString c.timeout).toList),
    ("solver-name".toList, c.solverName.toText.toList)]),
  ("logging".toList, [("level".toList, c.level.toList)])]

/-- The place of the name in the document of settings. -/
def slot (c : Config) : Slot where
  comment := title
  front := [("split".toList, splitEntries c.split)]
  name := "reconstruction".toList
  entries := [("timeout-ms".toList, (toString c.timeout).toList)]
  key := "solver-name".toList
  last := ("logging".toList, ("level".toList, c.level.toList))

/-- The names of the sections of settings, and the keys in them. -/
def keyWords : List String := ["split", "enabled", "sort", "infer", "step", "reconstruction",
  "timeout-ms", "solver-name", "logging", "level"]

theorem isPlainWord_keyWords : ∀ k ∈ keyWords, isPlainWord k = true := by decide +kernel

theorem isPlainLine_flagText (b : Bool) : isPlainLine (flagText b).toList = true := by
  cases b <;> decide

theorem isPlain_splitEntries (c : SplitConfig) : ∀ e ∈ splitEntries c, e.isPlain = true := by
  have hflag := isPlainLine_flagText
  simp [splitEntries, KeyedLine.isPlain, hflag, isKeyWord]

theorem isPlain_timeout (n : Int) :
    ∀ e ∈ [("timeout-ms".toList, (toString n).toList)], KeyedLine.isPlain e = true := by
  have hkey : isKeyWord "timeout-ms".toList = true := by decide
  rw [List.forall_mem_singleton, KeyedLine.isPlain, (ofScalar_toString n).1, hkey]
  rfl

theorem isPlain_level {c : Config} {n : Nat} (hlevel : Level.number c.level = .ok n) :
    ∀ e ∈ [("level".toList, c.level.toList)], KeyedLine.isPlain e = true := by
  have hkey : isKeyWord "level".toList = true := by decide
  rw [List.forall_mem_singleton, KeyedLine.isPlain,
    isPlainLine_of_isPlainWord (Level.isPlainWord_of_number hlevel), hkey]
  rfl

/-- Everything around the name can be read as it stands. -/
theorem isPlain_slot {c : Config} {n : Nat} (hlevel : Level.number c.level = .ok n) :
    c.slot.IsPlain := by
  have hsplit : isKeyWord "split".toList = true := by decide
  have hreconstruction : isKeyWord "reconstruction".toList = true := by decide
  have hlogging : isKeyWord "logging".toList = true := by decide
  have hkey : isKeyWord "solver-name".toList = true := by decide
  have hlast : ∀ x ∈ "logging".toList ++ "level".toList, isOrdinary x = true :=
    List.all_eq_true.1 (by decide)
  refine ⟨isCommentChar_title, List.cons_ne_nil _ _, ?_, hkey, ?_⟩
  · refine List.forall_mem_cons.2 ⟨isPlain_section hsplit (by simp [splitEntries])
      (isPlain_splitEntries c.split), List.forall_mem_cons.2 ⟨isPlain_section hreconstruction
        (List.cons_ne_nil _ _) (isPlain_timeout c.timeout), ?_⟩⟩
    exact List.forall_mem_singleton.2
      (isPlain_section hlogging (List.cons_ne_nil _ _) (isPlain_level hlevel))
  -- The level is made of letters, and so are its key and the name of its section.
  · exact List.forall_mem_append.2 ⟨hlast, fun x hx =>
      Level.isOrdinary_of_isLetter ((Level.isLetter_of_number hlevel).2 x hx)⟩

/-- **Settings** are a document with the name pasted into its place. -/
theorem text_eq_document (c : Config) : c.text = c.slot.document c.solverName.toText := by
  have htitle : "# .chcsplit.yml\n\n".toList = '#' :: title ++ ['\n', '\n'] := by decide
  have htop : ∀ more : List Char,
      '#' :: title ++ '\n' :: '\n' :: more = "# .chcsplit.yml\n\n".toList ++ more := by
    intro more
    rw [htitle]
    simp
  have hlist : c.text.toList = (c.slot.document c.solverName.toText).toList := by
    rw [Slot.toList_document]
    unfold Slot.before Slot.behind slot
    dsimp only
    -- The comment on top and the first section, then the lines as they are.
    rw [htop]
    unfold linesOfSections linesOfSections
    dsimp only [List.isEmpty_nil, Bool.true_and]
    simp [text, lines, String.intercalate_cons_cons, linesOf, splitEntries]
  exact String.toList_inj.1 hlist

theorem text_eq_documentOf (c : Config) : c.text = documentOf title c.sections :=
  c.text_eq_document

/-! ### Reading back -/

variable {read : Reader} {resolve : String → Except Fault Datum} {c : Config} {n : Nat}

theorem ofEntry_flag (hread : read.FollowsYaml resolve) (k : List Char) (b : Bool) :
    Datum.ofEntry resolve (k, (flagText b).toList) = .ok (.text (String.ofList k), .bool b) := by
  rw [Datum.ofEntry, String.ofList_toList]
  cases b with
  | false => exact congrArg _ hread.truth.2
  | true => exact congrArg _ hread.truth.1

/-- The map of settings that have been written, with a value as the name. -/
def mapWritten (c : Config) (name : Datum) : List (Datum × Datum) := [
  (.text "split", .map [
    (.text "enabled", .bool c.split.enabled), (.text "sort", .bool c.split.sort),
    (.text "infer", .bool c.split.infer), (.text "step", .bool c.split.step)]),
  (.text "reconstruction", .map [
    (.text "timeout-ms", .int c.timeout), (.text "solver-name", name)]),
  (.text "logging", .map [(.text "level", .text c.level)])]

theorem ofSection_split (hread : read.FollowsYaml resolve) (c : SplitConfig) :
    Datum.ofSection resolve ("split".toList, splitEntries c) =
      .ok (.text "split", .map [(.text "enabled", .bool c.enabled), (.text "sort", .bool c.sort),
        (.text "infer", .bool c.infer), (.text "step", .bool c.step)]) := by
  rw [Datum.ofSection, splitEntries]
  simp only [List.mapM_cons, List.mapM_nil, ofEntry_flag hread, String.ofList_toList]
  rfl

theorem ofSection_logging (hread : read.FollowsYaml resolve) {name : String}
    (h : Level.number name = .ok n) :
    Datum.ofSection resolve ("logging".toList, [("level".toList, name.toList)]) =
      .ok (.text "logging", .map [(.text "level", .text name)]) := by
  rw [Datum.ofSection]
  simp only [List.mapM_cons, List.mapM_nil, Datum.ofEntry, String.ofList_toList,
    hread.word name (Level.isPlainWord_of_number h)]
  rfl

theorem ofSection_reconstruction (hread : read.FollowsYaml resolve)
    (hshort : Text.isShort c.timeout = true) : Datum.ofSection resolve ("reconstruction".toList,
    [("timeout-ms".toList, (toString c.timeout).toList),
      ("solver-name".toList, c.solverName.toText.toList)]) =
    (resolve c.solverName.toText).map fun name => (.text "reconstruction",
      .map [(.text "timeout-ms", .int c.timeout), (.text "solver-name", name)]) := by
  rw [Datum.ofSection]
  simp only [List.mapM_cons, List.mapM_nil, Datum.ofEntry, String.ofList_toList,
    hread.integer c.timeout hshort]
  cases resolve c.solverName.toText <;> rfl

/-- The keys of settings are key words. -/
theorem mem_keyWords (c : Config) : ∀ s ∈ c.sections, String.ofList s.1 ∈ keyWords ∧
    ∀ e ∈ s.2, String.ofList e.1 ∈ keyWords := by
  have hall : c.sections.flatMap (fun s => s.1 :: s.2.map (·.1)) = keyWords.map String.toList := rfl
  have hmem : ∀ k ∈ keyWords.map String.toList, String.ofList k ∈ keyWords := by
    rw [List.forall_mem_map]
    intro k hk
    rwa [String.ofList_toList]
  rw [← hall] at hmem
  intro s hs
  refine ⟨hmem _ (List.mem_flatMap.2 ⟨s, hs, List.mem_cons_self⟩), fun e he => hmem _ ?_⟩
  exact List.mem_flatMap.2 ⟨s, hs, List.mem_cons_of_mem _ (List.mem_map_of_mem he)⟩

/-- **The document of settings** with a name that is a plain line is read as the map of the
settings, in which the name is what it is read as. -/
theorem read_text (hread : read.FollowsYaml resolve) (hlevel : Level.number c.level = .ok n)
    (hshort : Text.isShort c.timeout = true)
    (hname : isPlainLine c.solverName.toText.toList = true) (v : Datum) :
    read c.text.toUTF8 = .ok v ↔
      ∃ name, resolve c.solverName.toText = .ok name ∧ .map (c.mapWritten name) = v := by
  have hkeys : ∀ s ∈ c.sections, resolve (String.ofList s.1) = .ok (.text (String.ofList s.1)) ∧
      ∀ e ∈ s.2, resolve (String.ofList e.1) = .ok (.text (String.ofList e.1)) := fun s hs =>
    ⟨hread.word _ (isPlainWord_keyWords _ (c.mem_keyWords s hs).1), fun e he =>
      hread.word _ (isPlainWord_keyWords _ ((c.mem_keyWords s hs).2 e he))⟩
  have hsections : Datum.ofSections resolve c.sections =
      (resolve c.solverName.toText).map fun name => .map (c.mapWritten name) := by
    rw [Datum.ofSections, sections]
    simp only [List.mapM_cons, List.mapM_nil, ofSection_split hread,
      ofSection_reconstruction hread hshort, ofSection_logging hread hlevel]
    cases resolve c.solverName.toText <;> rfl
  rw [text_eq_documentOf, hread.sections title c.sections isCommentChar_title (by simp [sections])
    ((isPlain_slot hlevel).isPlain_sections hname) hkeys, hsections]
  exact map_eq_ok

/-- The map that has been written is read as the settings, with another name. -/
theorem ofMap_mapWritten (hlevel : Level.number c.level = .ok n) (name : Datum) :
    ofMap (c.mapWritten name) = .ok { c with solverName := name } := by
  -- The fields of the map are looked up by their names, which are all different.
  have hsplit : fields (c.mapWritten name) "split" = .ok [(.text "enabled", .bool c.split.enabled),
      (.text "sort", .bool c.split.sort), (.text "infer", .bool c.split.infer),
      (.text "step", .bool c.split.step)] := by
    simp [fields, mapWritten, Datum.field?, Datum.sameAtom, Datum.isTrue]
  have hreconstruction : fields (c.mapWritten name) "reconstruction" =
      .ok [(.text "timeout-ms", .int c.timeout), (.text "solver-name", name)] := by
    simp [fields, mapWritten, Datum.field?, Datum.sameAtom, Datum.isTrue]
  have hlogging : fields (c.mapWritten name) "logging" = .ok [(.text "level", .text c.level)] := by
    simp [fields, mapWritten, Datum.field?, Datum.sameAtom, Datum.isTrue]
  have htimeout : timeoutOf [(.text "timeout-ms", .int c.timeout), (.text "solver-name", name)] =
      .ok c.timeout := by
    simp [timeoutOf, first?, Datum.field?, Datum.sameAtom, integer]
  have hlevelRead : levelOf [(.text "level", .text c.level)] = .ok c.level := by
    simp [levelOf, first?, Datum.field?, Datum.sameAtom, Datum.written, Datum.isWritable,
      Datum.toText]
  -- The level has a number, so the check of the level passes.
  have hnumber : (discard (Level.number c.level) : Except Fault Unit) = .ok () := by
    rw [hlevel]
    rfl
  rw [ofMap, hsplit, hreconstruction, hlogging]
  dsimp only [bind]
  rw [ok_bind, ok_bind, htimeout, ok_bind, ok_bind, hlevelRead, ok_bind, hnumber, ok_bind]
  simp [first?, flag, Datum.field?, Datum.sameAtom, Datum.isTrue]
  rfl

/-- **Settings are read back,** but for the name, which is what its plain line denotes. -/
theorem ofBytes_text {c' : Config} (hread : read.FollowsYaml resolve)
    (hlevel : Level.number c.level = .ok n) (hshort : Text.isShort c.timeout = true)
    (hname : isPlainLine c.solverName.toText.toList = true) (path : String) :
    ofBytes path c.text.toUTF8 read = .ok c' ↔
      ∃ name, resolve c.solverName.toText = .ok name ∧ { c with solverName := name } = c' := by
  have htext := read_text hread hlevel hshort hname
  have hmap := ofMap_mapWritten (c := c) hlevel
  have hbytes : ∀ {document : List (Datum × Datum)}, document ≠ [] →
      read c.text.toUTF8 = .ok (.map document) →
        ofBytes path c.text.toUTF8 read = ofMap document := by
    intro document hne hv
    rw [ofBytes, hv]
    dsimp only
    rw [if_neg (by simpa [Datum.isTrue] using hne)]
  constructor
  · intro h
    obtain ⟨v, hv, -⟩ := ofBytes_eq_ok h
    obtain ⟨name, hname, rfl⟩ := (htext v).1 hv
    rw [hbytes (by simp [mapWritten]) hv, hmap] at h
    exact ⟨name, hname, Except.ok.inj h⟩
  · rintro ⟨name, hname, rfl⟩
    rw [hbytes (by simp [mapWritten]) ((htext _).2 ⟨name, hname, rfl⟩), hmap]

section Names

variable {G : String → Prop} {m es : List (Datum × Datum)} {d : Datum}

theorem texts_field {name : String} (hm : Datum.EntriesTexts G m)
    (h : Datum.field? m name = some d) : d.Texts G := by
  obtain ⟨e, he, rfl⟩ := Option.map_eq_some_iff.1 h
  exact hm.values e (List.mem_of_find?_eq_some he)

theorem texts_fields {name : String} (hm : Datum.EntriesTexts G m) (h : fields m name = .ok es) :
    Datum.EntriesTexts G es := by
  unfold fields at h
  split at h
  · cases h
    exact .nil
  -- A section that is left out or counts as false is empty.
  · next hfield =>
    split at h
    · cases h
      exact .nil
    · split at h
      · cases h
        cases texts_field hm hfield with
        | map hkeys hvalues => exact ⟨hkeys, hvalues⟩
      · cases h

/-- The name of settings is one of the values in their map, or the standard name. -/
theorem texts_ofMap (hm : Datum.EntriesTexts G m) (hdefault : G "proof_reconstruction")
    {c : Config} (h : ofMap m = .ok c) : c.solverName.Texts G := by
  unfold ofMap at h
  obtain ⟨split, -, h⟩ := bind_eq_ok.1 h
  obtain ⟨reconstruction, hreconstruction, h⟩ := bind_eq_ok.1 h
  obtain ⟨timeout, -, h⟩ := bind_eq_ok.1 h
  obtain ⟨logging, -, h⟩ := bind_eq_ok.1 h
  obtain ⟨level, -, h⟩ := bind_eq_ok.1 h
  obtain ⟨_, -, h⟩ := bind_eq_ok.1 h
  cases h
  dsimp only
  cases hname : first? reconstruction ["solver-name", "solver_name"] with
  -- Without a name the standard one is taken.
  | none => exact .text hdefault
  | some d =>
    obtain ⟨key, -, hfield⟩ := List.exists_of_findSome?_eq_some hname
    exact texts_field (texts_fields hm hreconstruction) hfield

/-- What holds of the texts in a document holds of those in the name. -/
theorem texts_ofBytes {path : String} {bytes : ByteArray}
    (hread : ∀ v, read bytes = .ok v → v.Texts G) (hdefault : G "proof_reconstruction")
    {c : Config} (h : ofBytes path bytes read = .ok c) : c.solverName.Texts G := by
  obtain ⟨v, hv, h | ⟨document, rfl, h⟩⟩ := ofBytes_eq_ok h
  · exact texts_ofMap .nil hdefault h
  · cases hread _ hv with
    | map hkeys hvalues => exact texts_ofMap ⟨hkeys, hvalues⟩ hdefault h

end Names

end Config
end Horn
