import Horn.Smt.Scope

/-!
# Scripts

A script is a sequence of commands that declare, define and assert. What reads a script
(`Smt.Reader`) answers with the formulas that are asserted at its end. `Script.assertions?` is the
reader of the command line: it runs the commands one after the other.

`push` remembers what has been declared and asserted, and `pop` goes back to it. Commands that do
neither, such as queries and options, have no effect.
-/

namespace Horn
namespace Smt

/-- What reads the text of a script, with the formulas that are asserted; none for a text that is
no script. -/
abbrev Reader := String → Option (List Term)

/-- What a script has reached: the scope and the formulas asserted so far. -/
structure Context where
  scope : Scope
  assertions : List Term
  deriving Inhabited

namespace Context

/-- Where a script starts. -/
def initial : Context := ⟨.empty, []⟩

/-- Asserts a formula. A formula that is given a name can be used under it. -/
def assert? (c : Context) (e : SExpr) : Option Context := do
  let t ← c.scope.term? [] e
  let c := { c with assertions := c.assertions ++ [t] }
  if !t.isBool then none
  else match e with
    | .list [.atom (.symbol "!"), _, .atom (.keyword "named"), .atom (.symbol name)] =>
      (c.scope.addAbbreviation? ⟨name, [], t⟩).map fun scope => { c with scope }
    | _ => some c

/-- Runs a command other than those that go back to earlier contexts. Its first part is the name
of the command. -/
def run? (c : Context) : String → List SExpr → Option Context
  | "declare-fun", args =>
    match args with
    | [.atom (.symbol f), .list domain, range] => do
      let domain ← domain.mapM c.scope.sort?
      let range ← c.scope.sort? range
      (c.scope.addFunction? ⟨f, domain, range⟩).map fun scope => { c with scope }
    | _ => none
  | "declare-const", args =>
    match args with
    | [.atom (.symbol f), range] => do
      let range ← c.scope.sort? range
      (c.scope.addFunction? ⟨f, [], range⟩).map fun scope => { c with scope }
    | _ => none
  | "declare-sort", args =>
    match args with
    | [.atom (.symbol s)] | [.atom (.symbol s), .atom (.numeral 0)] =>
      (c.scope.addSort? s).map fun scope => { c with scope }
    | _ => none
  | "define-fun", args =>
    match args with
    | [.atom (.symbol f), .list params, range, body] => do
      let params ← params.mapM c.scope.declared?
      let range ← c.scope.sort? range
      let body ← c.scope.bodyOf? params range body
      (c.scope.addAbbreviation? ⟨f, params, body⟩).map fun scope => { c with scope }
    | _ => none
  | "define-const", args =>
    match args with
    | [.atom (.symbol f), range, body] => do
      let range ← c.scope.sort? range
      let body ← c.scope.bodyOf? [] range body
      (c.scope.addAbbreviation? ⟨f, [], body⟩).map fun scope => { c with scope }
    | _ => none
  | "assert", args =>
    match args with
    | [e] => c.assert? e
    | _ => none
  | _, _ => some c

end Context

/-- The number that a command for several levels is given; one level without a number. -/
def levels? : List SExpr → Option Nat
  | [] => some 1
  | [.atom (.numeral n)] => if 0 ≤ n then some n.toNat else none
  | _ => none

/-- Runs commands in a context. `saved` holds the contexts to go back to, the latest first. -/
def runAll? (c : Context) (saved : List Context) : List SExpr → Option Context
  | [] => some c
  | .list (.atom (.symbol name) :: args) :: rest =>
    match name with
    | "exit" => some c
    | "push" => (levels? args).bind fun n => runAll? c (List.replicate n c ++ saved) rest
    | "pop" => (levels? args).bind fun n =>
      match n with
      | 0 => runAll? c saved rest
      | n + 1 => (saved[n]?).bind fun c => runAll? c (saved.drop (n + 1)) rest
    | _ => (c.run? name args).bind fun c => runAll? c saved rest
  | _ :: _ => none

/-- The formulas that are asserted at the end of a script. -/
def Script.assertions? (text : String) : Option (List Term) :=
  (SExpr.read? text).bind fun commands => (runAll? .initial [] commands).map (·.assertions)

end Smt
end Horn
