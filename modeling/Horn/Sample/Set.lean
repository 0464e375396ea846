import Horn.Sample.Basic

/-!
# Sets and maps of samples

`SampleMap α` keeps one entry for each key, in ascending order of the samples; the sample that
was entered first represents its key. `SampleSet` is a map without values. Both are lists, so
iteration order is the order of samples.
-/

namespace Horn

/-- A finite map from samples, ascending in its keys. -/
abbrev SampleMap (α : Type) := List (Sample × α)

namespace SampleMap

variable {α : Type}

/-- The value at a sample. -/
def get? (m : SampleMap α) (s : Sample) : Option α :=
  (m.find? (·.1.same s)).map (·.2)

/-- Sets the value at a sample. -/
def insert (s : Sample) (a : α) : SampleMap α → SampleMap α
  | [] => [(s, a)]
  | (t, b) :: rest =>
    match s.compare t with
    | .lt => (s, a) :: (t, b) :: rest
    | .eq => (t, a) :: rest
    | .gt => (t, b) :: insert s a rest

end SampleMap

/-- A finite set of samples, ascending and without repetition. -/
abbrev SampleSet := List Sample

namespace SampleSet

/-- Membership by key. -/
def has (m : SampleSet) (s : Sample) : Bool := m.any (·.same s)

/-- Adds a sample, unless one with the same key is present. -/
def insert (s : Sample) : SampleSet → SampleSet
  | [] => [s]
  | t :: rest =>
    match s.compare t with
    | .lt => s :: t :: rest
    | .eq => t :: rest
    | .gt => t :: insert s rest

/-- The set of the samples in a list. -/
def ofList (samples : List Sample) : SampleSet := samples.foldl (fun m s => insert s m) []

/-- The union of two sets. -/
def union (m n : SampleSet) : SampleSet := n.foldl (fun m s => insert s m) m

/-- Whether two sets have the same keys. -/
def same (m n : SampleSet) : Bool :=
  m.length == n.length && (m.zip n).all fun (s, t) => s.same t

end SampleSet

end Horn
