import UnitCompiler.Proofs.Source.Expression

/-!
# Statements on integers

Structured statements: what they do to the variables, how they end, and which nodes of a tree they are.
Every declaration and every deferred assignment of a body is known by its number in the text; a
variable is the one thing that its declaration names, wherever and however often it is reached.
-/

namespace UnitCompiler

/-- The names that are visible at a place of a body, the innermost first, with the numbers of their
declarations; and the number of the next declaration. -/
structure Env where
  names : List (String × Nat)
  next : Nat
deriving DecidableEq, Repr

/-- The number of the variable that a name stands for. -/
def numberOf (names : List (String × Nat)) (name : String) : Option Nat :=
  (names.find? (·.1 == name)).map (·.2)

/-- The values of the variables, and the deferred assignments that have been reached. -/
structure Store where
  value : Nat → Option IntValue
  reached : Nat → Bool

namespace Store

def set (s : Store) (n : Nat) (x : IntValue) : Store :=
  { s with value := Function.update s.value n (some x) }

def mark (s : Store) (n : Nat) : Store := { s with reached := Function.update s.reached n true }

/-- The value of a visible variable. -/
def get (s : Store) (names : List (String × Nat)) (name : String) : IntValue :=
  ((numberOf names name).bind s.value).getD ⟨.int, 0⟩

/-- The value of an expression. -/
def eval (s : Store) (names : List (String × Nat)) (e : IntExpr) : Option IntValue :=
  e.eval (s.get names)

/-- The truth of an expression. -/
def test (s : Store) (names : List (String × Nat)) (e : IntExpr) : Option Bool :=
  (s.eval names e).map (·.truth)

end Store

/-- How a statement ends: control goes on behind it, or it leaves or repeats the innermost loop, or it
returns. -/
inductive Signal where
  | next
  | leave
  | again
  | ret (value : Option IntValue)
deriving DecidableEq, Repr

/-- What becomes of a statement when every loop may repeat a given number of times: too few, a division
by zero, or an end. -/
inductive Outcome where
  | timeout
  | fault
  | done (signal : Signal) (store : Store)

namespace Outcome

def bind : Outcome → (Signal → Store → Outcome) → Outcome
  | .timeout, _ => .timeout
  | .fault, _ => .fault
  | .done signal s, f => f signal s

/-- Goes on behind a statement unless it has left or returned. -/
def andThen (o : Outcome) (f : Store → Outcome) : Outcome :=
  o.bind fun
    | .next, s => f s
    | signal, s => .done signal s

def ofStore : Option Store → Outcome
  | none => .fault
  | some s => .done .next s

/-- Goes one of two ways. -/
def branch (condition : Option Bool) (yes no : Outcome) : Outcome :=
  condition.elim .fault fun holds => if holds then yes else no

/-- Repeats a body and a step while a condition holds, at most a number of times. -/
def loop (condition : Store → Option Bool) (body step : Store → Outcome) : Nat → Store → Outcome
  | 0, _ => .timeout
  | n + 1, s =>
    branch (condition s)
      ((body s).bind fun
        | .next, s | .again, s => (step s).andThen (loop condition body step n)
        | .leave, s => .done .next s
        | .ret value, s => .done (.ret value) s)
      (.done .next s)

end Outcome

/-- An assignment to a variable, after an operation on its value for a compound one. -/
structure Assignment where
  op : BinaryOp
  name : String
  value : IntExpr
deriving DecidableEq, Repr

/-- The number that an assignment computes. -/
def Assignment.compute? (a : Assignment) (ρ : String → IntValue) : Option IntValue :=
  match a.op.compoundBase? with
  | some op => (a.value.eval ρ).bind (IntValue.binary? op (ρ a.name))
  | none => a.value.eval ρ

/-- The number that an assignment stores, converted to the kind of its variable. -/
def Assignment.result? (a : Assignment) (ρ : String → IntValue) : Option IntValue :=
  (a.compute? ρ).map (·.convert (ρ a.name).kind)

/-- The store after an assignment. -/
def Assignment.run (a : Assignment) (names : List (String × Nat)) (s : Store) : Option Store :=
  (numberOf names a.name).bind fun n => (a.result? (s.get names)).map (s.set n)

/-- A declaration of a variable, whose kind is that of its initial value when it is not given. -/
structure LocalDecl where
  name : String
  kind : Option Scalar
  init : Option IntExpr
  isConst : Bool
deriving DecidableEq, Repr

/-- The store after a declaration; a variable without an initial value starts as zero. -/
def LocalDecl.run (d : LocalDecl) (E : Env) (s : Store) : Option Store :=
  match d.init with
  | some e => (s.eval E.names e).map fun x => s.set E.next (x.convert (d.kind.getD x.kind))
  | none => some (s.set E.next ⟨d.kind.getD .int, 0⟩)

/-- A statement without statements inside. -/
inductive Simple where
  | declare (decl : LocalDecl)
  | assign (a : Assignment)
deriving DecidableEq, Repr

namespace Simple

def run (E : Env) (s : Store) : Simple → Option Store
  | .declare d => d.run E s
  | .assign a => a.run E.names s

/-- What is visible behind the statement. -/
def after (E : Env) : Simple → Env
  | .declare d => ⟨(d.name, E.next) :: E.names, E.next + 1⟩
  | .assign _ => E

/-- What is visible behind a statement that may be absent. -/
def afterAll (E : Env) (init : Option Simple) : Env := init.elim E (·.after E)

end Simple

mutual

inductive Stmt where
  | block (body : Body)
  | simple (s : Simple)
  | ifThen (condition : IntExpr) (yes : Body)
  | ifElse (condition : IntExpr) (yes no : Body)
  | whileLoop (condition : IntExpr) (body : Body)
  | forLoop (init : Option Simple) (condition : Option IntExpr) (step : Option Assignment)
      (body : Body)
  | switch (value : IntExpr) (cases : Cases)
  | leave
  | again
  | ret (value : Option IntExpr)
  | defer (a : Assignment)

inductive Body where
  | nil
  | cons (first : Stmt) (rest : Body)

/-- The cases of a switch, with a default or none behind them. -/
inductive Cases where
  | nil
  | default (body : Body)
  | case (value : IntExpr) (body : Body) (rest : Cases)

end

mutual

/-- How many declarations and deferred assignments there are. -/
def Stmt.count : Stmt → Nat
  | .block body => body.count
  | .simple (.declare _) => 1
  | .simple (.assign _) => 0
  | .ifThen _ yes => yes.count
  | .ifElse _ yes no => yes.count + no.count
  | .whileLoop _ body => body.count
  | .forLoop (some (.declare _)) _ _ body => 1 + body.count
  | .forLoop _ _ _ body => body.count
  | .switch _ cases => cases.count
  | .leave | .again | .ret _ => 0
  | .defer _ => 1

def Body.count : Body → Nat
  | .nil => 0
  | .cons first rest => first.count + rest.count

def Cases.count : Cases → Nat
  | .nil => 0
  | .default body => body.count
  | .case _ body rest => body.count + rest.count

end

/-- The same names behind a number of declarations that are not visible. -/
def Env.skip (E : Env) (count : Nat) : Env := { E with next := E.next + count }

/-- What is visible behind a statement. -/
def Stmt.after (E : Env) : Stmt → Env
  | .simple s => s.after E
  | s => E.skip s.count

mutual

/-- Runs a statement; every loop may repeat `fuel` times. -/
def Stmt.exec (fuel : Nat) (E : Env) : Stmt → Store → Outcome
  | .block body, s => body.exec fuel E s
  | .simple simple, s => .ofStore (simple.run E s)
  | .ifThen condition yes, s =>
    .branch (s.test E.names condition) (yes.exec fuel E s) (.done .next s)
  | .ifElse condition yes no, s =>
    .branch (s.test E.names condition) (yes.exec fuel E s) (no.exec fuel (E.skip yes.count) s)
  | .whileLoop condition body, s =>
    .loop (fun s => s.test E.names condition) (body.exec fuel E) (.done .next) fuel s
  | .forLoop init condition step body, s =>
    let inner := Simple.afterAll E init
    (Outcome.ofStore (init.elim (some s) (·.run E s))).andThen fun s =>
      .loop (fun s => condition.elim (some true) (s.test inner.names)) (body.exec fuel inner)
        (fun s => .ofStore (step.elim (some s) (·.run inner.names s))) fuel s
  | .switch value cases, s =>
    (s.eval E.names value).elim .fault fun x => cases.exec fuel E x s
  | .leave, s => .done .leave s
  | .again, s => .done .again s
  | .ret none, s => .done (.ret none) s
  | .ret (some value), s =>
    (s.eval E.names value).elim .fault fun x => .done (.ret (some x)) s
  | .defer _, s => .done .next (s.mark E.next)

def Body.exec (fuel : Nat) (E : Env) : Body → Store → Outcome
  | .nil, s => .done .next s
  | .cons first rest, s => (first.exec fuel E s).andThen (rest.exec fuel (first.after E))

/-- Runs the first case with a value that is equal to `x`. -/
def Cases.exec (fuel : Nat) (E : Env) (x : IntValue) : Cases → Store → Outcome
  | .nil, s => .done .next s
  | .default body, s => body.exec fuel E s
  | .case value body rest, s =>
    .branch ((s.eval E.names value).bind fun y => (IntValue.binary? .eq x y).map (·.truth))
      (body.exec fuel E s) (rest.exec fuel (E.skip body.count) x s)

end

/-- A deferred assignment with its number and the names that are visible where it stands. -/
structure Deferred where
  number : Nat
  names : List (String × Nat)
  assignment : Assignment

mutual

/-- The deferred assignments in the order of the text. -/
def Stmt.defers (E : Env) : Stmt → List Deferred
  | .block body => body.defers E
  | .ifThen _ yes => yes.defers E
  | .ifElse _ yes no => yes.defers E ++ no.defers (E.skip yes.count)
  | .whileLoop _ body => body.defers E
  | .forLoop init _ _ body => body.defers (Simple.afterAll E init)
  | .switch _ cases => cases.defers E
  | .defer a => [⟨E.next, E.names, a⟩]
  | .simple _ | .leave | .again | .ret _ => []

def Body.defers (E : Env) : Body → List Deferred
  | .nil => []
  | .cons first rest => first.defers E ++ rest.defers (first.after E)

def Cases.defers (E : Env) : Cases → List Deferred
  | .nil => []
  | .default body => body.defers E
  | .case _ body rest => body.defers E ++ rest.defers (E.skip body.count)

end

/-- Runs the deferred assignments that have been reached, in their order. -/
def runDefers : List Deferred → Store → Option Store
  | [], s => some s
  | d :: rest, s =>
    (if s.reached d.number then d.assignment.run d.names s else some s).bind (runDefers rest)

/-- The node is the root of an expression whose variables are visible. -/
def ExprAt (t : Tree) (names : List (String × Nat)) (e : IntExpr) (id : NodeId) : Prop :=
  e.At t id ∧ ∀ name ∈ e.vars, (numberOf names name).isSome

/-- An optional part is there exactly when its node is. -/
def MaybeAt {α : Type} (P : α → NodeId → Prop) : Option α → Option NodeId → Prop
  | none, none => True
  | some a, some id => P a id
  | _, _ => False

/-- The node is an assignment to a visible variable. -/
def Assignment.At (t : Tree) (names : List (String × Nat)) (a : Assignment) (id : NodeId) : Prop :=
  a.op.isAssignment = true ∧ (numberOf names a.name).isSome ∧
    ∃ lhs rhs, t.HasKind id (.binary a.op lhs rhs) ∧ t.HasKind lhs (.ident a.name []) ∧
      ExprAt t names a.value rhs

def LocalDecl.At (t : Tree) (names : List (String × Nat)) (d : LocalDecl) (id : NodeId) : Prop :=
  (∀ k, d.kind = some k → k.isInteger = true) ∧
    ∃ init, t.HasKind id (.variable ⟨d.name, d.kind.map .scalar, init, d.isConst⟩) ∧
      MaybeAt (ExprAt t names) d.init init

def Simple.At (t : Tree) (E : Env) : Simple → NodeId → Prop
  | .declare d, id => d.At t E.names id
  | .assign a, id => a.At t E.names id

/-- The node is a block whose statements are as they should be. -/
def BlockOf (t : Tree) (P : List NodeId → Prop) (id : NodeId) : Prop :=
  ∃ items, t.HasKind id (.block items) ∧ P items

mutual

/-- The node is the root of the statement, and all names that the statement mentions are visible. -/
def Stmt.At (t : Tree) (E : Env) : Stmt → NodeId → Prop
  | .block body, id => BlockOf t (body.At t E) id
  | .simple s, id => s.At t E id
  | .ifThen condition yes, id =>
    ∃ c y, t.HasKind id (.ifElse c y none) ∧ ExprAt t E.names condition c ∧ BlockOf t (yes.At t E) y
  | .ifElse condition yes no, id =>
    ∃ c y n, t.HasKind id (.ifElse c y (some n)) ∧ ExprAt t E.names condition c ∧
      BlockOf t (yes.At t E) y ∧ BlockOf t (no.At t (E.skip yes.count)) n
  | .whileLoop condition body, id =>
    ∃ c b, t.HasKind id (.whileLoop c b) ∧ ExprAt t E.names condition c ∧ BlockOf t (body.At t E) b
  | .forLoop init condition step body, id =>
    ∃ i c s b, t.HasKind id (.forLoop i c s b) ∧ MaybeAt (Simple.At t E) init i ∧
      MaybeAt (ExprAt t (Simple.afterAll E init).names) condition c ∧
      MaybeAt (Assignment.At t (Simple.afterAll E init).names) step s ∧
      BlockOf t (body.At t (Simple.afterAll E init)) b
  | .switch value cases, id =>
    ∃ v cs default, t.HasKind id (.switch v cs default) ∧ ExprAt t E.names value v ∧
      cases.At t E cs default
  | .leave, id => t.HasKind id .breakLoop
  | .again, id => t.HasKind id .continueLoop
  | .ret value, id => ∃ v, t.HasKind id (.ret v) ∧ MaybeAt (ExprAt t E.names) value v
  | .defer a, id => ∃ stmt, t.HasKind id (.defer stmt) ∧ a.At t E.names stmt

/-- The nodes are the statements of a body, one after the other. -/
def Body.At (t : Tree) (E : Env) : Body → List NodeId → Prop
  | .nil, items => items = []
  | .cons first rest, items =>
    ∃ id ids, items = id :: ids ∧ first.At t E id ∧ rest.At t (first.after E) ids

def Cases.At (t : Tree) (E : Env) : Cases → List SwitchCase → Option NodeId → Prop
  | .nil, cases, default => cases = [] ∧ default = none
  | .default body, cases, default =>
    cases = [] ∧ ∃ id, default = some id ∧ BlockOf t (body.At t E) id
  | .case value body rest, cases, default =>
    ∃ c cs, cases = c :: cs ∧ ExprAt t E.names value c.value ∧ BlockOf t (body.At t E) c.body ∧
      rest.At t (E.skip body.count) cs default

end

end UnitCompiler
