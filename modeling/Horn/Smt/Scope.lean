import Horn.Smt.Operator
import Horn.Smt.SExpr

/-!
# Scopes

A scope holds what has been declared: sorts, functions, and abbreviations that are written out
where they are used. Two functions may share a name if their domains differ; which one an
application means is decided by its arguments.

`Scope.term?` reads a formula or a term. Bound variables are kept by position: a local name stands
for a term over the variables that are bound around it, and moves up when a quantifier is entered.
-/

namespace Horn
namespace Smt

/-- A name for a term over parameters. The parameters are the outermost bound variables of the
body, the last of them counted first. -/
structure Abbreviation where
  name : String
  params : List Constant
  body : Term

/-- What has been declared. -/
structure Scope where
  sorts : List String
  functions : List Symbol
  abbreviations : List Abbreviation
  deriving Inhabited

/-- What the names that are bound around a term stand for. -/
abbrev Locals := List (String × Term)

/-- The terms of a list, each of them for the name at its position in front of the locals. -/
def Locals.bind (locals : Locals) (xs : List Constant) : Locals :=
  (xs.reverse.zipIdx.map fun (x, i) => (x.name, Term.bound i x.sort))
    ++ locals.map fun (name, t) => (name, t.lift xs.length 0)

namespace Abbreviation

/-- The body with arguments in place of the parameters, if they fit. -/
def expand? (a : Abbreviation) (args : List Term) : Option Term :=
  (convertAll? (a.params.map (·.sort)) args).map fun args => a.body.instantiateAt args.reverse 0

end Abbreviation

namespace Scope

/-- The scope without declarations. -/
def empty : Scope := ⟨[], [], []⟩

/-! ### Sorts -/

/-- The sort that an S-expression names. -/
def sort? (scope : Scope) : SExpr → Option TermSort
  | .atom (.symbol "Bool") => some .bool
  | .atom (.symbol "Int") => some .int
  | .atom (.symbol "Real") => some .real
  | .atom (.symbol name) => if name ∈ scope.sorts then some (.free name) else none
  | .list [.atom (.symbol "_"), .atom (.symbol "BitVec"), .atom (.numeral n)] =>
    if 0 < n then some (.bitVec n.toNat) else none
  | .list [.atom (.symbol "Array"), i, e] => do
    let i ← sort? scope i
    let e ← sort? scope e
    some (.array i e)
  | _ => none

/-- The variable that a pair of a name and a sort declares. -/
def declared? (scope : Scope) : SExpr → Option Constant
  | .list [.atom (.symbol x), s] => (scope.sort? s).map (⟨x, ·⟩)
  | _ => none

/-! ### Applications -/

/-- The meaning of a name that stands alone. -/
def reference? (scope : Scope) (locals : Locals) (name : String) : Option Term :=
  match locals.lookup name with
  | some t => some t
  | none =>
    if name == "true" then some .verum
    else if name == "false" then some .falsum
    else match scope.abbreviations.find? fun a => a.name == name && a.params.isEmpty with
      | some a => some a.body
      | none =>
        match scope.functions.filter (·.name == name) with
        | [f] => if f.domain.isEmpty then some (.fn f []) else none
        | _ => none

/-- The application of a declared function. Where several have the name, one whose domain the
arguments have as they are is preferred to one for which they have to be converted. -/
def call? (scope : Scope) (name : String) (args : List Term) : Option Term :=
  let functions := scope.functions.filter (·.name == name)
  match functions.find? (·.domain == args.map Term.sort) with
  | some f => some (.fn f args)
  | none => functions.findSome? fun f => (convertAll? f.domain args).map (.fn f)

/-- The application of a name. A local name can only stand for an array. -/
def app? (scope : Scope) (locals : Locals) (name : String) (args : List Term) : Option Term :=
  if args.isEmpty then none
  else match locals.lookup name with
    | some t => args.foldlM (fun a i => Operands.lookup.fit? [a, i] |>.map (.op .select)) t
    | none =>
      match (scope.abbreviations.filter (·.name == name)).findSome? (·.expand? args) with
      | some t => some t
      | none =>
        match scope.call? name args with
        | some t => some t
        | none => (Operator.named? name).bind (·.app? args)

/-- The bit string `_ bv5 8`. -/
def bits? (name : String) (width : Int) : Option Term :=
  match name.toList with
  | 'b' :: 'v' :: digits =>
    if 0 < width ∧ digits.all Char.isDigit ∧ !digits.isEmpty then
      some (.bitVec width.toNat (digitsValue 10 digits))
    else none
  | _ => none

/-! ### Terms -/

mutual

/-- The term that an S-expression denotes. -/
def term? (scope : Scope) (locals : Locals) : SExpr → Option Term
  | .atom (.numeral n) => some (.int n)
  | .atom (.decimal q) => some (.real q)
  | .atom (.bits w n) => some (.bitVec w n)
  | .atom (.symbol x) => scope.reference? locals x
  | .atom _ => none
  | .list [.atom (.symbol "let"), .list bindings, body] => do
    let bound ← bindings? scope locals bindings
    term? scope (bound.reverse ++ locals) body
  | .list [.atom (.symbol "forall"), .list vars, body] => do
    let xs ← vars.mapM scope.declared?
    let body ← term? scope (locals.bind xs) body
    if body.isBool ∧ !xs.isEmpty then some (.quant .all xs body) else none
  | .list [.atom (.symbol "exists"), .list vars, body] => do
    let xs ← vars.mapM scope.declared?
    let body ← term? scope (locals.bind xs) body
    if body.isBool ∧ !xs.isEmpty then some (.quant .some xs body) else none
  | .list (.atom (.symbol "!") :: t :: _) => term? scope locals t
  | .list [.atom (.symbol "_"), .atom (.symbol name), .atom (.numeral w)] => bits? name w
  | .list (.atom (.symbol f) :: args) => do
    let args ← terms? scope locals args
    scope.app? locals f args
  | .list _ => none

/-- The terms that a list of S-expressions denotes. -/
def terms? (scope : Scope) (locals : Locals) : List SExpr → Option (List Term)
  | [] => some []
  | e :: es => do
    let t ← term? scope locals e
    let ts ← terms? scope locals es
    some (t :: ts)

/-- The names and terms of parallel bindings. -/
def bindings? (scope : Scope) (locals : Locals) : List SExpr → Option Locals
  | [] => some []
  | .list [.atom (.symbol x), e] :: rest => do
    let t ← term? scope locals e
    let bound ← bindings? scope locals rest
    some ((x, t) :: bound)
  | _ :: _ => none

end

/-- The formula that an S-expression denotes, over parameters. -/
def bodyOf? (scope : Scope) (params : List Constant) (range : TermSort) (e : SExpr) :
    Option Term :=
  (scope.term? (Locals.bind [] params) e).bind (convert? range)

/-- Whether a name is taken: with the same domain, or by the notation itself. -/
def taken (scope : Scope) (name : String) (domain : List TermSort) : Bool :=
  scope.functions.any (fun f => f.name == name && f.domain == domain)
    || scope.abbreviations.any (fun a => a.name == name && a.params.map (·.sort) == domain)
    || (Operator.named? name).isSome || name == "true" || name == "false"

/-- Declares a sort by its name. -/
def addSort? (scope : Scope) (name : String) : Option Scope :=
  if (scope.sort? (.atom (.symbol name))).isSome then none
  else some { scope with sorts := name :: scope.sorts }

/-- Declares a function. -/
def addFunction? (scope : Scope) (f : Symbol) : Option Scope :=
  if scope.taken f.name f.domain then none
  else some { scope with functions := scope.functions ++ [f] }

/-- Introduces an abbreviation. -/
def addAbbreviation? (scope : Scope) (a : Abbreviation) : Option Scope :=
  if scope.taken a.name (a.params.map (·.sort)) then none
  else some { scope with abbreviations := scope.abbreviations ++ [a] }

end Scope

end Smt
end Horn
