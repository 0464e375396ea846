import Horn.Sample.Set
import Horn.Sample.Signature

/-!
# The entry point registry

While an instance is being solved, positive samples are found: some are *real*, they hold by a
fact, the others are derived from samples found before. The registry keeps for every derived
sample the real samples behind it, so that a contradiction can be traced back to them.

A dependency on a sample that is neither real nor derived is refused and changes nothing.
-/

namespace Horn

/-- Real samples, and the real samples behind each derived one. -/
structure Registry where
  real : SampleSet
  derived : SampleMap SampleSet
  deriving Inhabited

namespace Registry

/-- The registry that knows no sample. -/
def empty : Registry := ⟨[], []⟩

/-- Refuses a sample without a place in the order. -/
def comparable (s : Sample) : Except Fault Unit :=
  match s.unsupported? with
  | some v => .error (.unsupportedValue v)
  | none => .ok ()

/-- Registers a real sample. -/
def register (r : Registry) (s : Sample) : Except Fault Registry := do
  comparable s
  pure { r with real := SampleSet.insert s r.real }

/-- Whether a sample is real. -/
def isReal (r : Registry) (s : Sample) : Except Fault Bool := do
  comparable s
  pure (SampleSet.has r.real s)

/-- The real samples behind a sample: itself if it is real, or those registered for it. -/
def behind? (r : Registry) (s : Sample) : Option SampleSet :=
  if SampleSet.has r.real s then some [s] else SampleMap.get? r.derived s

/-- Registers that `s` depends on `dep`: the real samples behind `dep` are added to those behind
`s`. -/
def dependency (s dep : Sample) : Act Registry Unit := do
  let r ← get
  Act.ofExcept (comparable dep)
  match r.behind? dep with
  | none => throw (Fault.unknownSample "register dependency to" dep)
  | some deps =>
    Act.ofExcept (comparable s)
    match SampleMap.get? r.derived s with
    | none => set { r with derived := SampleMap.insert s deps r.derived }
    | some old =>
      Act.debug .entryPoints ("adding dependencies to " ++ s.text)
      set { r with derived := SampleMap.insert s (SampleSet.union old deps) r.derived }

/-- The entry points of a sample: the real samples behind it. -/
def entryPoints (r : Registry) (s : Sample) : Except Fault SampleSet := do
  comparable s
  match r.behind? s with
  | some deps => pure deps
  | none => throw (Fault.unknownSample "recover entry points for" s)

/-- A listing of the registry, line by line. -/
def lines (inst : Instance) (r : Registry) : Except Fault (List String) := do
  let real ← r.real.mapM fun s => do pure ("  " ++ (← s.textIn inst))
  let derived ← r.derived.mapM fun (s, deps) => do
    let head ← s.textIn inst
    let deps ← deps.mapM fun d => do pure ("  -> " ++ (← d.textIn inst))
    pure (("  " ++ head) :: deps)
  pure ("real_pos_samples:" :: real ++ "pos_sample_map:" :: derived.flatten)

end Registry

end Horn
