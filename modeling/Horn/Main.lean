import Horn.CommandLine.Report
import Horn.Decision.Check
import Horn.Fixpoint.Solver

/-!
# The program

`main` takes a snapshot of the files that the arguments name, and prints the report on it.
-/

namespace Horn
namespace Main

/-- The paths whose files a run may read. -/
def paths (arguments : List String) : List String :=
  match CommandLine.Request.ofArguments arguments with
  | .error _ => []
  | .ok r =>
    let named := r.target :: r.config.toList
    named ++ named.flatMap Path.above ++ Config.fileNames

/-- What lies at a path. -/
def look (path : String) : IO (Option FileNode) := do
  try
    pure (some (.file (← IO.FS.readBinFile path)))
  catch
    | .inappropriateType _ 21 _ => pure (some .directory)
    | _ => pure none

/-- A snapshot of what lies at some paths. -/
def snapshot (paths : List String) : IO Files := do
  let entries ← paths.mapM fun path => do pure (path, ← look path)
  pure fun path => (entries.lookup path).join

/-- A number of milliseconds. -/
def elapsedText (ms : Nat) : String := toString ms ++ ".0ms"

end Main
end Horn

open Horn in
/-- Runs the program. -/
def main (arguments : List String) : IO UInt32 := do
  let start ← IO.monoMsNow
  let files ← Main.snapshot (Main.paths arguments)
  let engine := Engine.standard
  let report := CommandLine.Report.ofArguments engine (RuleSolver.ofEngine engine) files arguments
  for line in report.output do
    IO.println line
  let elapsed := Main.elapsedText ((← IO.monoMsNow) - start)
  for line in report.errors elapsed (fun _ => none) do
    IO.eprintln line
  pure report.exitCode.toUInt32
