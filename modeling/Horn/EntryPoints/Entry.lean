import Horn.EntryPoints.Reconstruction
import Horn.Oracle.Pool

/-!
# Entry points

The entry points of a contradiction are a set of positive samples. They can be rewritten in terms
of the original signatures, and reconstructed in terms of the original instance.
-/

namespace Horn

/-- How the oracle of a reconstruction is set up. -/
structure OracleConfig where
  timeout : Int
  solverName : String
  deriving DecidableEq, Inhabited

/-- The set-up that holds unless another one is given. -/
def OracleConfig.default : OracleConfig := ⟨10000, "proof_reconstruction"⟩

/-- Positive samples that lead to a contradiction. -/
abbrev Entry := SampleSet

namespace Entry

/-- The entry points in a list of samples. -/
def ofList (samples : List Sample) : Except Fault Entry :=
  match Sample.firstUnsupported? samples with
  | some v => .error (.unsupportedValue v)
  | none => .ok (SampleSet.ofList samples)

/-- The text of entry points. -/
def text (e : Entry) : String := "Entry(" ++ ", ".intercalate (e.map Sample.text) ++ ")"

/-- The entry points in terms of the original signatures of an instance. -/
def rewrite (inst : Instance) (e : Entry) : Except Fault (List Sample) :=
  e.mapM fun s => do s.toOriginal (← inst.pred s.pred)

/-- The entry points in terms of the original instance, found with a session of the pool. -/
def reconstructIn (engine : Engine) (working original : Instance) (solverName : String)
    (samples : List Sample) : Act Pool Entry :=
  Pool.session solverName fun i => do
    let p ← get
    let session := (p.get? i).getD (Session.create solverName p.timeout)
    let (r, log) ← Act.ofExcept (Reconstruction.create original working samples session)
    log.forM Act.write
    Act.zoom (fun _ => r)
      (fun (p : Pool) r => { p with sessions := p.sessions.set i r.session })
      (Reconstruction.run engine)

/-- The entry points in terms of the original instance. Without a pool a new one is used, with
the time limit of the configuration. -/
def reconstruct (engine : Engine) (working original : Instance) (shared : Bool)
    (config : OracleConfig) (e : Entry) : Act Pool Entry := do
  let samples ← Act.ofExcept (e.rewrite working)
  Act.debug .entryPoints ("reconstructing " ++ toString samples.length ++ " sample(s)")
  let act := reconstructIn engine working original config.solverName samples
  if shared then act
  else Act.zoom (fun _ => Pool.empty (some config.timeout)) (fun p _ => p) act

end Entry

end Horn
