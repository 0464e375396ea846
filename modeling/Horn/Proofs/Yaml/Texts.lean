import Horn.Proofs.Act
import Horn.Yaml.Datum

/-!
# The texts in a document

Where the texts in the data of a document come from: each of them is the text of a scalar token, or
the empty text in a place that has nothing but a tag.

A property of tokens gives a property of nodes (`Node.Texts`), since every reader keeps it
(`Node.Yields`), and one of nodes gives a property of data (`Datum.Texts`), since reading a tree
makes no texts of its own.
-/

namespace Horn
namespace Yaml

/-! ### Nodes -/

namespace Node

/-- All texts in a node are of some kind. The texts of null values do not matter. -/
inductive Texts (G : String → Prop) : Node → Prop
  | scalar {kind : Kind} {text : String} (h : kind = .null ∨ G text) : Texts G (.scalar kind text)
  | sequence {kind : Kind} {items : List Node} (h : ∀ n ∈ items, Texts G n) :
      Texts G (.sequence kind items)
  | mapping {kind : Kind} {entries : List (Node × Node)} (hkeys : ∀ e ∈ entries, Texts G e.1)
      (hvalues : ∀ e ∈ entries, Texts G e.2) : Texts G (.mapping kind entries)

/-- What is known about the tokens, and the texts that it gives. -/
structure Gives (F : Token → Prop) (G : String → Prop) : Prop where
  scalar : ∀ text plain, F (.scalar text plain) → G text
  tag : ∀ t, F (.tag t) → G ""

/-- What is known about the tokens to come, and about the nodes with anchors. -/
structure State.Holds (F : Token → Prop) (G : String → Prop) (s : State) : Prop where
  tokens : ∀ t ∈ s.tokens, F t
  anchors : ∀ e ∈ s.anchors, Texts G e.2

/-- A reader keeps what is known, and gives results with a property. -/
def Yields (F : Token → Prop) (G : String → Prop) {α : Type} (r : Reader α) (Q : α → Prop) : Prop :=
  ∀ s a s', State.Holds F G s → r s = some (a, s') → s'.Holds F G ∧ Q a

variable {F : Token → Prop} {G : String → Prop} {α β : Type}

theorem Yields.pure {Q : α → Prop} {a : α} (h : Q a) : Yields F G (Pure.pure a) Q := by
  intro s b s' hs hr
  cases hr
  exact ⟨hs, h⟩

theorem Yields.failure (Q : α → Prop) : Yields F G (failure : Reader α) Q := by
  intro s a s' hs hr
  cases hr

theorem Yields.bind {x : Reader α} {f : α → Reader β} {Q : α → Prop} {R : β → Prop}
    (hx : Yields F G x Q) (hf : ∀ a, Q a → Yields F G (f a) R) : Yields F G (x >>= f) R := by
  intro s b s' hs hr
  obtain ⟨⟨a, s₁⟩, hxs, hr⟩ := Option.bind_eq_some_iff.1 hr
  obtain ⟨hs₁, ha⟩ := hx s a s₁ hs hxs
  exact hf a ha s₁ b s' hs₁ hr

theorem Yields.failure_bind (f : α → Reader β) (R : β → Prop) :
    Yields F G ((Alternative.failure : Reader α) >>= f) R :=
  (Yields.failure fun _ => False).bind fun _ h => h.elim

theorem Yields.map {x : Reader α} {f : α → β} {Q : α → Prop} {R : β → Prop} (hx : Yields F G x Q)
    (h : ∀ a, Q a → R (f a)) : Yields F G (f <$> x) R := by
  intro s b s' hs hr
  obtain ⟨⟨a, s₁⟩, hxs, hr⟩ := Option.bind_eq_some_iff.1 hr
  cases hr
  obtain ⟨hs', ha⟩ := hx s a s' hs hxs
  exact ⟨hs', h a ha⟩

theorem Yields.get : Yields F G (get : Reader State) (State.Holds F G) := by
  intro s a s' hs hr
  cases hr
  exact ⟨hs, hs⟩

theorem Yields.set {s : State} (h : s.Holds F G) : Yields F G (set s : Reader PUnit)
    fun _ => True := by
  intro s₀ a s' hs hr
  cases hr
  exact ⟨h, trivial⟩

theorem Yields.modify {f : State → State} (h : ∀ s, State.Holds F G s → (f s).Holds F G) :
    Yields F G (modify f : Reader PUnit) fun _ => True := by
  intro s a s' hs hr
  cases hr
  exact ⟨h s hs, trivial⟩

/-! ### Readers -/

theorem yields_peek : Yields F G peek fun o => ∀ t, o = some t → F t := by
  refine Yields.get.bind fun s hs => Yields.pure fun t ht => hs.tokens t ?_
  exact List.mem_of_head? ht

theorem yields_drop : Yields F G drop fun _ => True :=
  Yields.modify fun _ hs => ⟨fun t ht => hs.tokens t (List.mem_of_mem_drop ht), hs.anchors⟩

theorem yields_takes (t : Token) : Yields F G (takes t) fun _ => True := by
  refine yields_peek.bind fun o _ => ?_
  split
  · exact yields_drop.bind fun _ _ => Yields.pure trivial
  · exact Yields.pure trivial

theorem yields_expect (t : Token) : Yields F G (expect t) fun _ => True := by
  refine (yields_takes t).bind fun taken _ => ?_
  split
  · exact Yields.pure trivial
  · exact Yields.failure _

theorem yields_atAny (ts : List Token) : Yields F G (atAny ts) fun _ => True := by
  refine yields_peek.bind fun o _ => ?_
  split <;> exact Yields.pure trivial

theorem yields_fullTag (t : RawTag) : Yields F G (fullTag t) fun _ => True := by
  unfold fullTag
  split
  · exact Yields.pure trivial
  · refine Yields.get.bind fun s _ => ?_
    split
    · exact Yields.pure trivial
    · exact Yields.failure _

/-- A tag gives the empty text. -/
theorem yields_properties (hFG : Gives F G) :
    Yields F G properties fun q => q.2.isSome = true → G "" := by
  unfold properties
  refine yields_peek.bind fun o ho => ?_
  -- The two properties come in either order, and each may be missing.
  split
  · refine yields_drop.bind fun _ _ => yields_peek.bind fun o ho => ?_
    split
    · next t =>
      exact yields_drop.bind fun _ _ => (yields_fullTag t).bind fun _ _ =>
        Yields.pure fun _ => hFG.tag t (ho _ rfl)
    · exact Yields.pure nofun
  · next t =>
    have htag := hFG.tag t (ho _ rfl)
    refine yields_drop.bind fun _ _ => yields_peek.bind fun o _ => ?_
    split
    · exact yields_drop.bind fun _ _ => (yields_fullTag t).bind fun _ _ =>
        Yields.pure fun _ => htag
    · exact (yields_fullTag t).bind fun _ _ => Yields.pure fun _ => htag
  · exact Yields.pure nofun

theorem yields_remember (anchor : Option String) {n : Node} (hn : Texts G n) :
    Yields F G (remember anchor n) (Texts G) := by
  unfold remember
  split
  · exact Yields.pure hn
  · refine Yields.get.bind fun s hs => ?_
    dsimp only
    split
    · exact Yields.failure_bind _ _
    · next name _ =>
      have hanchors : ∀ e ∈ (name, n) :: s.anchors, Texts G e.2 :=
        List.forall_mem_cons.2 ⟨hn, hs.anchors⟩
      exact (Yields.set (s := ⟨s.tokens, (name, n) :: s.anchors, s.handles⟩)
        ⟨hs.tokens, hanchors⟩).bind fun _ _ => Yields.pure hn

/-! ### Nodes and their parts -/

/-- Each entry consists of nodes with the property. -/
def EntriesTexts (G : String → Prop) (es : List (Node × Node)) : Prop :=
  (∀ e ∈ es, Texts G e.1) ∧ ∀ e ∈ es, Texts G e.2

/-- What the readers of nodes and of their parts give, if the depth of their calls is bounded. -/
structure Readers (F : Token → Prop) (G : String → Prop) (fuel : Nat) : Prop where
  node : ∀ block indentless, Yields F G (node block indentless fuel) (Texts G)
  place : ∀ stops block indentless, Yields F G (place stops block indentless fuel) (Texts G)
  blockItems : Yields F G (blockItems fuel) fun ns => ∀ n ∈ ns, Texts G n
  indentlessItems : Yields F G (indentlessItems fuel) fun ns => ∀ n ∈ ns, Texts G n
  blockEntries : Yields F G (blockEntries fuel) (EntriesTexts G)
  flowItems : ∀ first, Yields F G (flowItems first fuel) fun ns => ∀ n ∈ ns, Texts G n
  flowEntries : ∀ first, Yields F G (flowEntries first fuel) (EntriesTexts G)

variable {fuel : Nat}

theorem texts_empty : Texts G empty := .scalar (.inl rfl)

theorem EntriesTexts.nil : EntriesTexts G [] := ⟨List.forall_mem_nil _, List.forall_mem_nil _⟩

theorem EntriesTexts.cons {k v : Node} {es : List (Node × Node)} (hk : Texts G k) (hv : Texts G v)
    (hes : EntriesTexts G es) : EntriesTexts G ((k, v) :: es) :=
  ⟨List.forall_mem_cons.2 ⟨hk, hes.1⟩, List.forall_mem_cons.2 ⟨hv, hes.2⟩⟩

/-- The text of an empty place with an anchor or a tag. -/
theorem texts_bare {tag : Option String} (h : tag.isSome = true → G "") :
    Texts G (.scalar (scalarKind true "" tag) "") := by
  cases tag with
  | none => exact .scalar (.inl (by decide +kernel))
  | some tag => exact .scalar (.inr (h rfl))

theorem Readers.succ_node (hFG : Gives F G) (h : Readers F G fuel) (block indentless : Bool) :
    Yields F G (Node.node block indentless (fuel + 1)) (Texts G) := by
  rw [Node.node]
  refine yields_peek.bind fun o _ => ?_
  dsimp only
  split
  -- An alias is a node that has been remembered.
  · next name _ =>
    refine yields_drop.bind fun _ _ => Yields.get.bind fun s hs => ?_
    split
    · next n hlookup =>
      obtain ⟨l₁, l₂, hanchors, -⟩ := List.lookup_eq_some_iff.1 hlookup
      exact Yields.pure (hs.anchors (name, n) (by rw [hanchors]; simp))
    · exact Yields.failure_bind _ _
  -- Behind its properties, a node is told by its first token: a list, a scalar, or one of the
  -- collections.
  · refine (yields_properties hFG).bind fun ⟨anchor, tag⟩ htag => yields_peek.bind fun o ho => ?_
    dsimp only
    split
    · split
      · exact (h.indentlessItems.map fun ns hns => Texts.sequence hns).bind fun _ hn =>
          yields_remember anchor hn
      · split
        · exact yields_remember anchor (texts_bare htag)
        · exact Yields.failure_bind _ _
    · next text plain =>
      exact yields_drop.bind fun _ _ =>
        yields_remember anchor (.scalar (.inr (hFG.scalar text plain (ho _ rfl))))
    · exact yields_drop.bind fun _ _ => ((h.flowItems true).map fun ns hns =>
        Texts.sequence hns).bind fun _ hn => yields_remember anchor hn
    · exact yields_drop.bind fun _ _ => ((h.flowEntries true).map fun es hes =>
        Texts.mapping hes.1 hes.2).bind fun _ hn => yields_remember anchor hn
    · split
      · exact yields_drop.bind fun _ _ => (h.blockItems.map fun ns hns =>
          Texts.sequence hns).bind fun _ hn => yields_remember anchor hn
      · split
        · exact yields_drop.bind fun _ _ => (h.blockEntries.map fun es hes =>
            Texts.mapping hes.1 hes.2).bind fun _ hn => yields_remember anchor hn
        -- Nothing follows: a node without content stands for the empty text, if it has properties.
        · split
          · exact yields_remember anchor (texts_bare htag)
          · exact Yields.failure_bind _ _

theorem Readers.succ_place (h : Readers F G fuel) (stops : List Token) (block indentless : Bool) :
    Yields F G (Node.place stops block indentless (fuel + 1)) (Texts G) := by
  rw [Node.place]
  refine (yields_atAny stops).bind fun _ _ => ?_
  split
  · exact Yields.pure texts_empty
  · exact h.node block indentless

theorem Readers.succ_blockItems (h : Readers F G fuel) :
    Yields F G (Node.blockItems (fuel + 1)) fun ns => ∀ n ∈ ns, Texts G n := by
  rw [Node.blockItems]
  refine (yields_takes _).bind fun _ _ => ?_
  split
  · exact (h.place _ _ _).bind fun _ hn => h.blockItems.bind fun _ hns =>
      Yields.pure (List.forall_mem_cons.2 ⟨hn, hns⟩)
  · exact (yields_expect _).bind fun _ _ => Yields.pure (List.forall_mem_nil _)

theorem Readers.succ_indentlessItems (h : Readers F G fuel) :
    Yields F G (Node.indentlessItems (fuel + 1)) fun ns => ∀ n ∈ ns, Texts G n := by
  rw [Node.indentlessItems]
  refine (yields_takes _).bind fun _ _ => ?_
  split
  · exact (h.place _ _ _).bind fun _ hn => h.indentlessItems.bind fun _ hns =>
      Yields.pure (List.forall_mem_cons.2 ⟨hn, hns⟩)
  · exact Yields.pure (List.forall_mem_nil _)

/-- What follows a key: a value, or nothing. -/
theorem Readers.value (h : Readers F G fuel) (stops : List Token) (block indentless : Bool)
    {R : β → Prop} {f : Node → Reader β} (hf : ∀ v, Texts G v → Yields F G (f v) R) :
    Yields F G (do
      let taken ← takes .value
      if taken then do
        let v ← Node.place stops block indentless fuel
        f v
      else do
        let v ← Pure.pure empty
        f v) R := by
  refine (yields_takes _).bind fun _ _ => ?_
  split
  · exact (h.place stops block indentless).bind hf
  · exact hf _ texts_empty

theorem Readers.succ_blockEntries (h : Readers F G fuel) :
    Yields F G (Node.blockEntries (fuel + 1)) (EntriesTexts G) := by
  rw [Node.blockEntries]
  dsimp only
  refine (yields_takes _).bind fun _ _ => ?_
  split
  · exact (h.place _ _ _).bind fun k hk => h.value _ _ _ fun v hv =>
      h.blockEntries.bind fun _ hes => Yields.pure (hes.cons hk hv)
  · exact (yields_expect _).bind fun _ _ => Yields.pure EntriesTexts.nil

/-- Behind the parts that have been read there is the end of a collection, or a comma and more. -/
theorem yields_further (first : Bool) (close : Token) {more : Reader (List α)} {Q : List α → Prop}
    (hnil : Q []) (hmore : Yields F G more Q) : Yields F G (do
      if ← takes close then return []
      if !first then expect .flowEntry
      if ← takes close then return []
      more) Q := by
  -- Behind a comma the collection may end all the same.
  have hrest : Yields F G (do
      if ← takes close then return []
      more) Q := by
    refine (yields_takes close).bind fun _ _ => ?_
    split
    · exact Yields.pure hnil
    · exact hmore
  refine (yields_takes close).bind fun _ _ => ?_
  split
  · exact Yields.pure hnil
  · dsimp only
    split
    · exact (yields_expect _).bind fun _ _ => hrest
    · exact hrest

theorem Readers.succ_flowItems (h : Readers F G fuel) (first : Bool) :
    Yields F G (Node.flowItems first (fuel + 1)) fun ns => ∀ n ∈ ns, Texts G n := by
  have hmore : ∀ n, Texts G n → Yields F G (do
      let ns ← Node.flowItems false fuel
      Pure.pure (n :: ns)) fun ns => ∀ n ∈ ns, Texts G n := fun n hn =>
    (h.flowItems false).bind fun _ hns => Yields.pure (List.forall_mem_cons.2 ⟨hn, hns⟩)
  rw [Node.flowItems]
  refine yields_further first _ (List.forall_mem_nil _) ((yields_takes _).bind fun _ _ => ?_)
  dsimp only
  split
  · exact (h.place _ _ _).bind fun k hk => h.value _ _ _ fun v hv =>
      hmore _ (.mapping (List.forall_mem_singleton.2 hk) (List.forall_mem_singleton.2 hv))
  · exact (h.node _ _).bind hmore

theorem Readers.succ_flowEntries (h : Readers F G fuel) (first : Bool) :
    Yields F G (Node.flowEntries first (fuel + 1)) (EntriesTexts G) := by
  have hmore : ∀ k v, Texts G k → Texts G v → Yields F G (do
      let es ← Node.flowEntries false fuel
      Pure.pure ((k, v) :: es)) (EntriesTexts G) := fun k v hk hv =>
    (h.flowEntries false).bind fun _ hes => Yields.pure (hes.cons hk hv)
  rw [Node.flowEntries]
  refine yields_further first _ EntriesTexts.nil ((yields_takes _).bind fun _ _ => ?_)
  dsimp only
  split
  · exact (h.place _ _ _).bind fun k hk => h.value _ _ _ fun v hv => hmore k v hk hv
  · exact (h.node _ _).bind fun k hk => hmore k _ hk texts_empty

/-- **Readers of nodes** keep what is known about the tokens. -/
theorem readers (hFG : Gives F G) (fuel : Nat) : Readers F G fuel := by
  induction fuel with
  | zero =>
    exact ⟨fun _ _ => Yields.failure _, fun _ _ _ => Yields.failure _, Yields.failure _,
      Yields.failure _, Yields.failure _, fun _ => Yields.failure _, fun _ => Yields.failure _⟩
  | succ fuel ih =>
    exact ⟨ih.succ_node hFG, ih.succ_place, ih.succ_blockItems, ih.succ_indentlessItems,
      ih.succ_blockEntries, ih.succ_flowItems, ih.succ_flowEntries⟩

/-! ### Documents -/

theorem yields_directives (versioned : Bool) {ts : List Token} (hts : ∀ t ∈ ts, F t) :
    Yields F G (directives versioned ts) fun _ => True := by
  fun_induction directives versioned ts with
  | case1 => exact Yields.failure_bind _ _
  | case2 versioned rest major jp hversion ih => exact ih (List.forall_mem_cons.1 hts).2
  -- A handle is added to those that are known; neither tokens nor anchors change.
  | case3 versioned rest handle uri ih =>
    refine Yields.get.bind fun s hs => ?_
    dsimp only
    split
    · exact Yields.failure_bind _ _
    · exact (Yields.set (s := ⟨s.tokens, s.anchors, (handle, uri) :: s.handles⟩)
        ⟨hs.tokens, hs.anchors⟩).bind fun _ _ => ih (List.forall_mem_cons.1 hts).2
  | case4 versioned rest ih => exact ih (List.forall_mem_cons.1 hts).2
  | case5 => exact Yields.modify fun _ hs => ⟨hts, hs.anchors⟩

theorem yields_handles (f : State → List (String × String)) :
    Yields F G (modify fun s => { s with handles := f s } : Reader PUnit) fun _ => True :=
  Yields.modify fun _ hs => ⟨hs.tokens, hs.anchors⟩

theorem yields_document (hFG : Gives F G) : Yields F G document (Texts G) := by
  have hnode := fun ts => (readers hFG (fuel ts)).node true false
  unfold document
  refine Yields.get.bind fun s hs => ?_
  dsimp only
  split
  case h_3 => exact (yields_handles fun _ => standardHandles).bind fun _ _ => hnode _
  -- Directives or the sign that starts a document stand in front of it.
  all_goals
    refine (yields_directives false hs.tokens).bind fun _ _ => (yields_expect _).bind fun _ _ =>
      (yields_handles fun s => s.handles ++ standardHandles).bind fun _ _ =>
        yields_peek.bind fun o _ => ?_
    split
    all_goals first | exact Yields.pure texts_empty | exact hnode _

/-- **The texts in a document.** What scalar tokens and tags give holds of all texts. -/
theorem texts_ofText {text : String} {n : Node} (hFG : Gives F G)
    (htokens : ∀ ts, Token.ofText? text = some ts → ∀ t ∈ ts, F t)
    (h : ofText? text = some (some n)) : Texts G n := by
  unfold ofText? at h
  obtain ⟨ts, hts, h⟩ := Option.bind_eq_some_iff.1 h
  split at h
  · cases h
  · obtain ⟨⟨m, s⟩, hdocument, h⟩ := Option.bind_eq_some_iff.1 h
    dsimp only at h
    split at h
    · cases h
      exact (yields_document hFG ⟨ts, [], []⟩ n s ⟨htokens ts hts, List.forall_mem_nil _⟩
        hdocument).2
    · cases h

end Node

/-! ### Data -/

namespace Datum

/-- All texts in a value are of some kind, and so are those of foreign values in it. -/
inductive Texts (G : String → Prop) : Datum → Prop
  | null : Texts G .null
  | bool {b : Bool} : Texts G (.bool b)
  | int {n : Int} : Texts G (.int n)
  | float {x : Decimal.Double} : Texts G (.float x)
  | moment {m : Moment} : Texts G (.moment m)
  | text {s : String} (h : G s) : Texts G (.text s)
  | foreign {v : Foreign} (h : G v.text) : Texts G (.foreign v)
  | list {items : List Datum} (h : ∀ d ∈ items, Texts G d) : Texts G (.list items)
  | map {entries : List (Datum × Datum)} (hkeys : ∀ e ∈ entries, Texts G e.1)
      (hvalues : ∀ e ∈ entries, Texts G e.2) : Texts G (.map entries)

theorem Texts.mono {G H : String → Prop} (hGH : ∀ s, G s → H s) {d : Datum} (h : d.Texts G) :
    d.Texts H := by
  induction h with
  | null => exact .null
  | bool => exact .bool
  | int => exact .int
  | float => exact .float
  | moment => exact .moment
  | text h => exact .text (hGH _ h)
  | foreign h => exact .foreign (hGH _ h)
  | list _ ih => exact .list ih
  | map _ _ hkeys hvalues => exact .map hkeys hvalues

/-- Each entry consists of values with the property. -/
structure EntriesTexts (G : String → Prop) (es : List (Datum × Datum)) : Prop where
  keys : ∀ e ∈ es, Texts G e.1
  values : ∀ e ∈ es, Texts G e.2

variable {G : String → Prop} {es fs : List (Datum × Datum)} {k v : Datum}

theorem EntriesTexts.nil : EntriesTexts G [] := ⟨List.forall_mem_nil _, List.forall_mem_nil _⟩

theorem EntriesTexts.cons (hk : Texts G k) (hv : Texts G v) (hes : EntriesTexts G es) :
    EntriesTexts G ((k, v) :: es) :=
  ⟨List.forall_mem_cons.2 ⟨hk, hes.keys⟩, List.forall_mem_cons.2 ⟨hv, hes.values⟩⟩

theorem EntriesTexts.append (hes : EntriesTexts G es) (hfs : EntriesTexts G fs) :
    EntriesTexts G (es ++ fs) :=
  ⟨List.forall_mem_append.2 ⟨hes.keys, hfs.keys⟩, List.forall_mem_append.2 ⟨hes.values, hfs.values⟩⟩

theorem EntriesTexts.insert (hes : EntriesTexts G es) (hk : Texts G k) (hv : Texts G v) :
    EntriesTexts G (insert es k v) := by
  unfold Datum.insert
  -- The key is known: its value is replaced in place.
  split
  · constructor
    · intro e he
      obtain ⟨e', he', rfl⟩ := List.mem_map.1 he
      split
      · exact hes.keys e' he'
      · exact hes.keys e' he'
    · intro e he
      obtain ⟨e', he', rfl⟩ := List.mem_map.1 he
      split
      · exact hv
      · exact hes.values e' he'
  -- The key is new, and stands at the end.
  · exact hes.append (EntriesTexts.nil.cons hk hv)

theorem EntriesTexts.foldl_insert (hes : EntriesTexts G es) (hfs : EntriesTexts G fs) :
    EntriesTexts G (fs.foldl (fun es (k, v) => Datum.insert es k v) es) := by
  induction fs generalizing es with
  | nil => exact hes
  | cons e fs ih =>
    exact ih (hes.insert (hfs.keys e List.mem_cons_self) (hfs.values e List.mem_cons_self))
      ⟨(List.forall_mem_cons.1 hfs.keys).2, (List.forall_mem_cons.1 hfs.values).2⟩

theorem texts_ofScalar {kind : Kind} {s : String} {d : Datum} (h : kind = .null ∨ G s)
    (hd : ofScalar s kind = .ok d) : d.Texts G := by
  unfold ofScalar at hd
  -- Of all kinds only that of texts gives a text.
  split at hd
  · cases hd
    exact .null
  · split at hd
    · cases hd
      exact .bool
    · cases hd
  · obtain ⟨n, -, rfl⟩ := map_eq_ok.1 hd
    exact .int
  · obtain ⟨x, -, rfl⟩ := map_eq_ok.1 hd
    exact .float
  · obtain ⟨m, -, rfl⟩ := map_eq_ok.1 hd
    exact .moment
  · cases hd
    exact .text (h.resolve_left nofun)
  · cases hd

mutual

theorem texts_ofNode : ∀ {n : Node} {d : Datum}, n.Texts G → ofNode n = .ok d → d.Texts G
  | .scalar kind s, d, h, hd => by
    cases h with
    | scalar h => exact texts_ofScalar h hd
  | .sequence kind items, d, h, hd => by
    cases h with
    | sequence h =>
      unfold ofNode at hd
      split at hd
      · obtain ⟨ds, hds, rfl⟩ := map_eq_ok.1 hd
        exact .list (texts_ofItems h hds)
      · cases hd
  | .mapping kind entries, d, h, hd => by
    cases h with
    | mapping hkeys hvalues =>
      unfold ofNode at hd
      split at hd
      · obtain ⟨⟨merged, own⟩, hes, hd⟩ := bind_eq_ok.1 hd
        cases hd
        obtain ⟨hmerged, hown⟩ := texts_ofEntries hkeys hvalues hes
        have hall := EntriesTexts.nil.foldl_insert (hmerged.append hown)
        exact .map hall.keys hall.values
      · cases hd

theorem texts_ofItems : ∀ {ns : List Node} {ds : List Datum}, (∀ n ∈ ns, n.Texts G) →
    ofItems ns = .ok ds → ∀ d ∈ ds, d.Texts G
  | [], ds, h, hds => by
    cases hds
    exact List.forall_mem_nil _
  | n :: ns, ds, h, hds => by
    rw [List.forall_mem_cons] at h
    obtain ⟨d, hd, hds⟩ := bind_eq_ok.1 hds
    obtain ⟨ds', hds', hds⟩ := bind_eq_ok.1 hds
    cases hds
    exact List.forall_mem_cons.2 ⟨texts_ofNode h.1 hd, texts_ofItems h.2 hds'⟩

theorem texts_ofEntries : ∀ {es : List (Node × Node)}
    {p : List (Datum × Datum) × List (Datum × Datum)},
    (∀ e ∈ es, e.1.Texts G) → (∀ e ∈ es, e.2.Texts G) → ofEntries es = .ok p →
      EntriesTexts G p.1 ∧ EntriesTexts G p.2
  | [], p, hkeys, hvalues, hp => by
    cases hp
    exact ⟨EntriesTexts.nil, EntriesTexts.nil⟩
  | (k, v) :: rest, p, hkeys, hvalues, hp => by
    rw [List.forall_mem_cons] at hkeys hvalues
    unfold ofEntries at hp
    split at hp
    · obtain ⟨taken, htaken, hp⟩ := bind_eq_ok.1 hp
      obtain ⟨⟨merged, own⟩, hrest, hp⟩ := bind_eq_ok.1 hp
      cases hp
      obtain ⟨hmerged, hown⟩ := texts_ofEntries hkeys.2 hvalues.2 hrest
      exact ⟨(texts_merge hvalues.1 htaken).append hmerged, hown⟩
    · -- A key is read before its value.
      have hvalue : ∀ {key : Datum}, key.Texts G → (do
          if key.isCollection then throw Fault.badDocument
          let v ← ofNode v
          let (merged, own) ← ofEntries rest
          pure (merged, (key, v) :: own)) = .ok p → EntriesTexts G p.1 ∧ EntriesTexts G p.2 := by
        intro key hkey hp
        dsimp only at hp
        split at hp
        · cases hp
        · obtain ⟨d, hd, hp⟩ := bind_eq_ok.1 hp
          obtain ⟨⟨merged, own⟩, hrest, hp⟩ := bind_eq_ok.1 hp
          cases hp
          obtain ⟨hmerged, hown⟩ := texts_ofEntries hkeys.2 hvalues.2 hrest
          exact ⟨hmerged, hown.cons hkey (texts_ofNode hvalues.1 hd)⟩
      have hk := hkeys.1
      dsimp only at hvalue hp hk
      split at hp
      · cases hk with
        | scalar h => exact hvalue (.text (h.resolve_left nofun)) hp
      · obtain ⟨key, hkey, hp⟩ := bind_eq_ok.1 hp
        exact hvalue (texts_ofNode hk hkey) hp

theorem texts_merge : ∀ {n : Node} {es : List (Datum × Datum)}, n.Texts G → merge n = .ok es →
    EntriesTexts G es
  | .mapping kind entries, es, h, hes => by
    cases h with
    | mapping hkeys hvalues =>
      obtain ⟨⟨merged, own⟩, hentries, hes⟩ := bind_eq_ok.1 hes
      cases hes
      obtain ⟨hmerged, hown⟩ := texts_ofEntries hkeys hvalues hentries
      exact hmerged.append hown
  | .sequence kind items, es, h, hes => by
    cases h with
    | sequence h => exact texts_mergeItems h hes
  | .scalar kind s, es, h, hes => by cases hes

theorem texts_mergeItems : ∀ {ns : List Node} {es : List (Datum × Datum)}, (∀ n ∈ ns, n.Texts G) →
    mergeItems ns = .ok es → EntriesTexts G es
  | [], es, h, hes => by
    cases hes
    exact EntriesTexts.nil
  | .mapping kind entries :: rest, es, h, hes => by
    rw [List.forall_mem_cons] at h
    obtain ⟨h, hrest⟩ := h
    cases h with
    | mapping hkeys hvalues =>
      obtain ⟨⟨merged, own⟩, hentries, hes⟩ := bind_eq_ok.1 hes
      obtain ⟨later, hlater, hes⟩ := bind_eq_ok.1 hes
      cases hes
      obtain ⟨hmerged, hown⟩ := texts_ofEntries hkeys hvalues hentries
      exact ((texts_mergeItems hrest hlater).append hmerged).append hown
  | .scalar kind s :: rest, es, h, hes => by cases hes
  | .sequence kind items :: rest, es, h, hes => by cases hes

end

/-- **The texts in the value of a document.** -/
theorem texts_ofText {F : Token → Prop} {text : String} {d : Datum} (hFG : Node.Gives F G)
    (htokens : ∀ ts, Token.ofText? text = some ts → ∀ t ∈ ts, F t) (h : ofText text = .ok d) :
    d.Texts G := by
  unfold ofText at h
  split at h
  · cases h
  · cases h
    exact .null
  · next hnode => exact texts_ofNode (Node.texts_ofText hFG htokens hnode) h

end Datum

end Yaml
end Horn
