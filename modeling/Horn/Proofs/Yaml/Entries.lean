import Horn.Proofs.Yaml.Lines
import Horn.Yaml.Datum

/-!
# Reading sections with entries

The tokens of a section with plain entries (`Scanner.sectionTokens`) are read as a mapping from its
keys to its values, and the value of this node is a map. The parts are `blockEntries_tokensOf` for
the nodes and `ofEntries_nodesOf` for the values.
-/

namespace Horn
namespace Yaml

open Scanner (KeyedLine tokensOf sectionTokens)

namespace Node

variable {α β : Type} {t : Token} {text : String} {isPlain : Bool} {rest : List Token}
  {anchors : List (String × Node)} {handles : List (String × String)}

/-! ### Readers -/

/-- A sequence of readers, the first of which succeeds. -/
theorem bind_of_some {x : Reader α} {f : α → Reader β} {s s' : State} {a : α}
    (h : x s = some (a, s')) : (x >>= f) s = f a s' := by
  change (x s >>= fun p => f p.1 p.2) = _
  rw [h]
  rfl

theorem takes_self : takes t ⟨t :: rest, anchors, handles⟩ =
    some (true, ⟨rest, anchors, handles⟩) := by
  have h : (some t == some t) = true := by simp
  rw [takes, bind_of_some (show peek ⟨t :: rest, anchors, handles⟩ =
    some (some t, ⟨t :: rest, anchors, handles⟩) from rfl), h]
  rfl

/-- A scalar without a tag is a node. -/
theorem node_scalar (block indentless : Bool) (fuel : Nat) :
    node block indentless (fuel + 1) ⟨.scalar text isPlain :: rest, anchors, handles⟩ =
      some (.scalar (scalarKind isPlain text none) text, ⟨rest, anchors, handles⟩) := rfl

/-- A place is not empty if something comes next that may start a node. -/
theorem place_of_not_mem {stops : List Token} (hstops : t ∉ stops) (block indentless : Bool)
    (fuel : Nat) : place stops block indentless (fuel + 1) ⟨t :: rest, anchors, handles⟩ =
      node block indentless fuel ⟨t :: rest, anchors, handles⟩ := by
  have hcontains : stops.contains t = false := by
    rw [← Bool.not_eq_true, List.contains_iff_mem]
    exact hstops
  have h : atAny stops ⟨t :: rest, anchors, handles⟩ =
      some (false, ⟨t :: rest, anchors, handles⟩) := by
    rw [← hcontains]
    rfl
  rw [place, bind_of_some h]
  rfl

/-! ### Entries -/

/-- The nodes of some entries. -/
def nodesOf (es : List KeyedLine) : List (Node × Node) :=
  es.map fun e => (.scalar (Kind.ofPlain (String.ofList e.1)) (String.ofList e.1),
    .scalar (Kind.ofPlain (String.ofList e.2)) (String.ofList e.2))

/-- **Entries** are read up to the end of their section. -/
theorem blockEntries_tokensOf (es : List KeyedLine) {fuel : Nat} (hfuel : es.length + 3 ≤ fuel) :
    blockEntries fuel ⟨tokensOf es ++ .blockEnd :: rest, anchors, handles⟩ =
      some (nodesOf es, ⟨rest, anchors, handles⟩) := by
  induction es generalizing fuel with
  | nil =>
    obtain ⟨fuel, rfl⟩ : ∃ n, fuel = n + 1 := ⟨fuel - 1, by simp at hfuel; omega⟩
    rw [blockEntries]
    rfl
  | cons e es ih =>
    -- A key and its value take three rounds of the reader: the entry, its place and the node in it.
    obtain ⟨fuel, rfl⟩ : ∃ n, fuel = n + 3 := ⟨fuel - 3, by omega⟩
    rw [List.length_cons] at hfuel
    -- A scalar stands where a node may be empty, and it is not one of the tokens that say so.
    have hscalar : ∀ (text : String) (rest : List Token),
        place [.key, .value, .blockEnd] true true (fuel + 2)
          ⟨.scalar text true :: rest, anchors, handles⟩ =
            some (.scalar (Kind.ofPlain text) text, ⟨rest, anchors, handles⟩) := fun text rest =>
      (place_of_not_mem (by simp) true true (fuel + 1)).trans (node_scalar true true fuel)
    have htokens : tokensOf (e :: es) ++ .blockEnd :: rest =
        .key :: .scalar (String.ofList e.1) true ::
        .value :: .scalar (String.ofList e.2) true :: (tokensOf es ++ .blockEnd :: rest) := rfl
    rw [htokens, blockEntries]
    dsimp only
    rw [bind_of_some takes_self, if_pos rfl, bind_of_some (hscalar _ _), bind_of_some takes_self,
      if_pos rfl, bind_of_some (hscalar _ _), bind_of_some (ih (by omega))]
    rfl

/-! ### Sections -/

/-- A section of a document: its name, and its entries. -/
abbrev Section := List Char × List KeyedLine

/-- The tokens of some sections. -/
def tokensOfSections (ss : List Section) : List Token :=
  ss.flatMap fun s => sectionTokens s.1 s.2 ++ [.blockEnd]

/-- The nodes of some sections. -/
def nodesOfSections (ss : List Section) : List (Node × Node) :=
  ss.map fun s => (.scalar (Kind.ofPlain (String.ofList s.1)) (String.ofList s.1),
    .mapping .mapping (nodesOf s.2))

/-- A block mapping is a node. -/
theorem node_blockMapping {fuel : Nat} {entries : List (Node × Node)} {s' : State}
    (indentless : Bool) (h : blockEntries fuel ⟨rest, anchors, handles⟩ = some (entries, s')) :
    node true indentless (fuel + 1) ⟨.blockMapping :: rest, anchors, handles⟩ =
      some (.mapping .mapping entries, s') := by
  have hmapping : (Node.mapping .mapping <$> blockEntries fuel) ⟨rest, anchors, handles⟩ =
      some (.mapping .mapping entries, s') := by
    change (blockEntries fuel ⟨rest, anchors, handles⟩ >>= fun p =>
      pure (Node.mapping .mapping p.1, p.2)) = _
    rw [h]
    rfl
  change ((Node.mapping .mapping <$> blockEntries fuel) >>= fun n => remember none n)
    ⟨rest, anchors, handles⟩ = _
  rw [bind_of_some hmapping]
  rfl

/-- **Sections** are read up to the end of the document. -/
theorem blockEntries_tokensOfSections (ss : List Section) {fuel : Nat} (rest : List Token)
    (anchors : List (String × Node)) (handles : List (String × String))
    (hfuel : ss.length + 1 ≤ fuel) (hentries : ∀ s ∈ ss, s.2.length + ss.length + 5 ≤ fuel) :
    blockEntries fuel ⟨tokensOfSections ss ++ .blockEnd :: rest, anchors, handles⟩ =
      some (nodesOfSections ss, ⟨rest, anchors, handles⟩) := by
  induction ss generalizing fuel with
  | nil =>
    obtain ⟨fuel, rfl⟩ : ∃ n, fuel = n + 1 := ⟨fuel - 1, by simp at hfuel; omega⟩
    rw [blockEntries]
    rfl
  | cons s ss ih =>
    rw [List.forall_mem_cons, List.length_cons] at hentries
    rw [List.length_cons] at hfuel
    -- As for entries: the key is a scalar, and its value is the section, which is read one level
    -- below.
    obtain ⟨fuel, rfl⟩ : ∃ n, fuel = n + 3 := ⟨fuel - 3, by omega⟩
    have htokens : tokensOfSections (s :: ss) ++ .blockEnd :: rest =
        .key :: .scalar (String.ofList s.1) true :: .value :: .blockMapping ::
          (tokensOf s.2 ++ .blockEnd :: (tokensOfSections ss ++ .blockEnd :: rest)) := by
      simp [tokensOfSections, sectionTokens]
    have hname : ∀ (text : String) (rest : List Token),
        place [.key, .value, .blockEnd] true true (fuel + 2)
          ⟨.scalar text true :: rest, anchors, handles⟩ =
            some (.scalar (Kind.ofPlain text) text, ⟨rest, anchors, handles⟩) := fun text rest =>
      (place_of_not_mem (by simp) true true (fuel + 1)).trans (node_scalar true true fuel)
    have hsection : place [.key, .value, .blockEnd] true true (fuel + 2)
        ⟨.blockMapping ::
            (tokensOf s.2 ++ .blockEnd :: (tokensOfSections ss ++ .blockEnd :: rest)),
          anchors, handles⟩ =
          some (.mapping .mapping (nodesOf s.2),
            ⟨tokensOfSections ss ++ .blockEnd :: rest, anchors, handles⟩) :=
      (place_of_not_mem (by simp) true true (fuel + 1)).trans
        (node_blockMapping true (blockEntries_tokensOf s.2 (by omega)))
    rw [htokens, blockEntries]
    dsimp only
    rw [bind_of_some takes_self, if_pos rfl, bind_of_some (hname _ _), bind_of_some takes_self,
      if_pos rfl, bind_of_some hsection, bind_of_some (ih (by omega) fun s' hs' => by
        have := hentries.2 s' hs'
        omega)]
    rfl

/-- There are more tokens than entries and sections. -/
theorem length_tokensOfSections (ss : List Section) : ss.length ≤ (tokensOfSections ss).length ∧
    ∀ s ∈ ss, s.2.length + ss.length ≤ (tokensOfSections ss).length := by
  -- An entry takes four tokens: two signs and two scalars.
  have hentries : ∀ es : List KeyedLine, (tokensOf es).length = 4 * es.length := by
    intro es
    simp [tokensOf, List.length_flatMap, Nat.mul_comm]
  induction ss with
  | nil => simp
  | cons s ss ih =>
    have hcons : (tokensOfSections (s :: ss)).length =
        4 * s.2.length + 5 + (tokensOfSections ss).length := by
      simp only [tokensOfSections, List.flatMap_cons, List.length_append, sectionTokens,
        List.length_cons, hentries, List.length_nil]
    rw [hcons, List.length_cons, List.forall_mem_cons]
    refine ⟨by omega, by omega, fun s' hs' => ?_⟩
    have := ih.2 s' hs'
    omega

/-- **A document of sections** is read as a mapping. -/
theorem ofText?_sections {source : String} {ss : List Section}
    (h : Token.ofText? source = some (.blockMapping :: tokensOfSections ss ++ [.blockEnd])) :
    ofText? source = some (some (.mapping .mapping (nodesOfSections ss))) := by
  have hlength := length_tokensOfSections ss
  -- The reader gets fuel for three rounds a token, which is enough for what the sections take.
  have hentries : blockEntries
      (3 * (Token.blockMapping :: tokensOfSections ss ++ [Token.blockEnd]).length + 2)
      ⟨tokensOfSections ss ++ [.blockEnd], [], standardHandles⟩ =
        some (nodesOfSections ss, ⟨[], [], standardHandles⟩) :=
    blockEntries_tokensOfSections ss [] [] standardHandles
      (by simp only [List.length_append, List.length_cons]; omega)
    (fun s hs => by
      have := hlength.2 s hs
      simp only [List.length_append, List.length_cons]
      omega)
  have hnode : node true false (fuel (.blockMapping :: tokensOfSections ss ++ [.blockEnd]))
      ⟨.blockMapping :: tokensOfSections ss ++ [.blockEnd], [], standardHandles⟩ =
        some (.mapping .mapping (nodesOfSections ss), ⟨[], [], standardHandles⟩) :=
    node_blockMapping false hentries
  rw [ofText?, h]
  change (node true false (fuel (.blockMapping :: tokensOfSections ss ++ [.blockEnd]))
    ⟨.blockMapping :: tokensOfSections ss ++ [.blockEnd], [], standardHandles⟩ >>= fun p =>
      if (skipEnds p.2.tokens).isEmpty then some (some p.1) else none) = _
  rw [hnode]
  rfl

end Node

namespace Datum

/-! ### Values -/

/-- What a plain scalar denotes. -/
def ofPlain (text : String) : Except Fault Datum := ofScalar text (Kind.ofPlain text)

/-- The value of an entry, given what plain scalars denote. -/
def ofEntry (resolve : String → Except Fault Datum) (e : KeyedLine) :
    Except Fault (Datum × Datum) :=
  (resolve (String.ofList e.2)).map fun v => (.text (String.ofList e.1), v)

/-- **Entries** with texts as keys have no others merged into them. -/
theorem ofEntries_nodesOf {es : List KeyedLine}
    (hkeys : ∀ e ∈ es, Kind.ofPlain (String.ofList e.1) = .text) :
    ofEntries (Node.nodesOf es) = (es.mapM (ofEntry ofPlain)).map fun own => ([], own) := by
  induction es with
  | nil => rfl
  | cons e es ih =>
    rw [List.forall_mem_cons] at hkeys
    rw [Node.nodesOf, List.map_cons, hkeys.1, List.mapM_cons]
    change (ofScalar (String.ofList e.2) (Kind.ofPlain (String.ofList e.2)) >>= fun v =>
      ofEntries (Node.nodesOf es) >>= fun p =>
        pure (p.1, (.text (String.ofList e.1), v) :: p.2)) = _
    rw [ih hkeys.2, ofEntry, ofPlain]
    cases ofScalar (String.ofList e.2) (Kind.ofPlain (String.ofList e.2)) with
    | error f => rfl
    | ok v => cases es.mapM (ofEntry ofPlain) <;> rfl

/-- The map with some entries. -/
def mapOf (entries : List (Datum × Datum)) : List (Datum × Datum) :=
  entries.foldl (fun es (k, v) => insert es k v) []

/-- The value of a section, given what plain scalars denote. -/
def ofSection (resolve : String → Except Fault Datum) (s : Node.Section) :
    Except Fault (Datum × Datum) :=
  (s.2.mapM (ofEntry resolve)).map fun own => (.text (String.ofList s.1), .map (mapOf own))

/-- The value of some sections, given what plain scalars denote. -/
def ofSections (resolve : String → Except Fault Datum) (ss : List Node.Section) :
    Except Fault Datum :=
  (ss.mapM (ofSection resolve)).map fun own => .map (mapOf own)

/-- **Sections** are entries whose values are maps. -/
theorem ofNode_nodesOfSections {ss : List Node.Section}
    (hnames : ∀ s ∈ ss, Kind.ofPlain (String.ofList s.1) = .text ∧
      ∀ e ∈ s.2, Kind.ofPlain (String.ofList e.1) = .text) :
    ofNode (.mapping .mapping (Node.nodesOfSections ss)) = ofSections ofPlain ss := by
  have hmapping : ∀ entries, ofNode (.mapping .mapping entries) =
      ofEntries entries >>= fun p => pure (.map (mapOf (p.1 ++ p.2))) := fun entries => by
    rw [ofNode]
    rfl
  have hentries : ofEntries (Node.nodesOfSections ss) =
      (ss.mapM (ofSection ofPlain)).map fun own => ([], own) := by
    induction ss with
    | nil => rfl
    | cons s ss ih =>
      rw [List.forall_mem_cons] at hnames
      have hnode : ofNode (.mapping .mapping (Node.nodesOf s.2)) =
          (s.2.mapM (ofEntry ofPlain)).map fun own => .map (mapOf own) := by
        rw [hmapping, ofEntries_nodesOf hnames.1.2]
        cases s.2.mapM (ofEntry ofPlain) <;> rfl
      rw [Node.nodesOfSections, List.map_cons, hnames.1.1, List.mapM_cons]
      change (ofNode (.mapping .mapping (Node.nodesOf s.2)) >>= fun v =>
        ofEntries (Node.nodesOfSections ss) >>= fun p =>
          pure (p.1, (.text (String.ofList s.1), v) :: p.2)) = _
      rw [ih hnames.2, hnode, ofSection]
      cases s.2.mapM (ofEntry ofPlain) with
      | error f => rfl
      | ok own => cases ss.mapM (ofSection ofPlain) <;> rfl
  rw [hmapping, hentries, ofSections]
  cases ss.mapM (ofSection ofPlain) <;> rfl

end Datum

end Yaml
end Horn
