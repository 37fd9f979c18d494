import UnitCompiler.Proofs.Machine.IntegerOperations
import UnitCompiler.Proofs.Source.Statement

/-!
# Units with one function

A unit of integer variables and one function: what a call of the function gives, what it leaves in the
variables, and which nodes of a tree the unit is.
-/

namespace UnitCompiler
open Machine

/-- Variables of the unit and a function with a body.  A function without a kind of result gives
nothing. -/
structure IntUnit where
  globals : List (String × Scalar)
  params : List (String × Scalar)
  ret : Option Scalar
  body : Body

namespace IntUnit

/-- The variables of the unit are numbered behind the parameters. -/
def globalNames (u : IntUnit) : List (String × Nat) :=
  (u.globals.map (·.1)).zipIdx u.params.length

/-- What is visible at the start of the body.  The last parameter is the innermost name. -/
def env (u : IntUnit) : Env where
  names := (u.params.map (·.1)).zipIdx.reverse ++ u.globalNames
  next := u.params.length + u.globals.length

/-- The store at the start of a call. -/
def start (args globals : List IntValue) : Store where
  value n := (args ++ globals)[n]?
  reached _ := false

/-- A call: the body runs, then the deferred assignments that it has reached. -/
def call (u : IntUnit) (fuel : Nat) (args globals : List IntValue) : Outcome :=
  (u.body.exec fuel u.env (start args globals)).bind fun signal s =>
    (Outcome.ofStore (runDefers (u.body.defers u.env) s)).bind fun _ s' => .done signal s'

/-- The value of a call.  The end of the body gives zero, and `isMain` tells whether a function without
a result gives zero too. -/
def returned (u : IntUnit) (isMain : Bool) (signal : Signal) : Value :=
  match u.ret, signal with
  | some k, .ret (some x) => (x.convert k).word
  | some k, _ => (IntValue.mk k 0).word
  | none, _ => if isMain then (IntValue.mk .int 0).word else .void

/-- The values that the variables of the unit have in a store. -/
def globalValues (u : IntUnit) (s : Store) : List IntValue :=
  u.globals.map fun g => s.get u.globalNames g.1

/-- The variables of the unit have the values in a session. -/
def Shows (u : IntUnit) (session : Session) (values : List IntValue) : Prop :=
  List.Forall₂ (fun g x => x.kind = g.2 ∧ x.WellFormed ∧
    session.readGlobal (LinkName.global g.1) = .ok x.word) u.globals values

/-- The arguments fit the parameters. -/
def Accepts (u : IntUnit) (args : List IntValue) : Prop :=
  List.Forall₂ (fun p x => x.kind = p.2 ∧ x.WellFormed) u.params args

/-- The type of the result. -/
def retType (u : IntUnit) : SourceType := u.ret.elim .void .scalar

end IntUnit

/-- The node declares an integer variable of a unit, whose initial value is closed. -/
def GlobalAt (t : Tree) (g : String × Scalar) (id : NodeId) : Prop :=
  g.2.isInteger = true ∧ ∃ init isConst,
    t.HasKind id (.variable ⟨g.1, some (.scalar g.2), init, isConst⟩) ∧
      ∀ node, init = some node → ∃ e : IntExpr, e.vars = [] ∧ e.At t node

/-- The declaration is that of the unit's function. -/
structure IntUnit.Declares (u : IntUnit) (t : Tree) (decl : FunctionDecl) : Prop where
  params : decl.params = u.params.map fun p => ⟨p.1, .scalar p.2⟩
  kinds : ∀ p ∈ u.params, p.2.isInteger = true
  ret : decl.ret = u.retType
  retKind : ∀ k, u.ret = some k → k.isInteger = true
  plain : decl.isTemplate = false
  body : ∃ id, decl.body = some id ∧ BlockOf t (u.body.At t u.env) id

/-- The roots are the unit: its function among its variables, which have different names. -/
def IntUnit.At (u : IntUnit) (t : Tree) (decl : FunctionDecl) (roots : List NodeId) : Prop :=
  u.Declares t decl ∧ (u.globals.map (·.1)).Nodup ∧ ∃ before id after,
    roots = before ++ id :: after ∧ t.HasKind id (.function decl) ∧
      List.Forall₂ (GlobalAt t) u.globals (before ++ after)

/-- The name that the function of a unit is called by. -/
def IntUnit.linkName (u : IntUnit) (decl : FunctionDecl) : String :=
  decl.linkNameFor (functionKey decl.name (u.params.map fun p => .scalar p.2)) none true

end UnitCompiler
