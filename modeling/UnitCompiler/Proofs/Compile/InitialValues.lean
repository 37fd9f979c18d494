import UnitCompiler.Proofs.Compile.Sessions
import UnitCompiler.Proofs.Source.Folding

/-!
# Initial values

The same closed expression as the initial value of a variable of the unit and of a local variable.  The one
is folded, and the folded number is written into the variable as it is; the other is evaluated and converted
to the kind of the variable.  They differ where a conversion is more than a reduction, which is in `bool`,
and where the folded number is out of the range of its kind.
-/

namespace UnitCompiler
open Machine

namespace IntValue

variable {k : Scalar} {x y : IntValue} {n : Int}

/-- Numbers of a kind are told apart by their words. -/
theorem word_inj (hx : x.WellFormed) (hy : y.WellFormed) (hkind : x.kind = y.kind) :
    x.word = y.word ↔ x = y := by
  obtain ⟨k, v⟩ := x
  obtain ⟨k', w⟩ := y
  obtain rfl : k = k' := hkind
  constructor
  · intro h
    simp only [word, Value.ofInt, Value.int.injEq, and_true] at h
    obtain rfl : v = w := hx.2.eq_of_ofInt_eq hy.2 h
    rfl
  · rintro ⟨⟩
    rfl

/-- In `bool` an integer is reduced to its last bit and converted to its truth. -/
theorem ofInt_bool_eq_ofBool_iff : ofInt .bool n = ofBool (n != 0) ↔ n = 0 ∨ n % 2 = 1 := by
  have hreduce : Scalar.bool.reduce n = n % 2 := by
    simp [Scalar.reduce, Scalar.isUnsigned, Scalar.bits]
  rw [ofInt, ofBool, hreduce, IntValue.mk.injEq]
  simp only [bne_iff_ne, ne_eq, true_and]
  split_ifs with h <;> omega

/-- Reducing an integer to a kind converts the number, unless the kind is `bool`. -/
theorem ofInt_eq_convert_iff (hx : x.value = n) :
    ofInt k n = x.convert k ↔ (k = .bool → n = 0 ∨ n % 2 = 1) := by
  subst hx
  unfold convert
  split_ifs with hb
  · subst hb
    simpa [truth] using ofInt_bool_eq_ofBool_iff
  · simp [hb]

end IntValue

namespace IntUnit

/-- The unit of a function that declares a variable and returns it. -/
def keeping (globals : List (String × Scalar)) (name : String) (k : Scalar) (e : IntExpr) : IntUnit :=
  ⟨globals, [], some k,
    .cons (.simple (.declare ⟨name, some k, some e, false⟩)) (.cons (.ret (some (.var name))) .nil)⟩

/-- The values of the variables of the unit in a call without arguments. -/
def initially (gs : List (String × Scalar)) (values : List IntValue) : String → IntValue :=
  (start [] values).get (gs.map (·.1)).zipIdx

theorem call_keeping (gs : List (String × Scalar)) (name : String) (k : Scalar) (e : IntExpr) (fuel : Nat)
    (values : List IntValue) {x : IntValue} (hx : e.eval (initially gs values) = some x) :
    ∃ s, (keeping gs name k e).call fuel [] values = .done (.ret (some (x.convert k))) s := by
  let u := keeping gs name k e
  let names := (name, u.env.next) :: u.env.names
  let s := (start [] values).set u.env.next (x.convert k)
  have hdeclare : LocalDecl.run ⟨name, some k, some e, false⟩ u.env (start [] values) = some s := by
    have heval : (start [] values).eval u.env.names e = some x := hx
    change ((start [] values).eval u.env.names e).map _ = _
    rw [heval]
    rfl
  have hvar : s.eval names (.var name) = some (x.convert k) := by
    rw [Store.eval, IntExpr.eval]
    simp [s, names, Store.get, Store.set, numberOf]
  have hexec : u.body.exec fuel u.env (start [] values) = .done (.ret (some (x.convert k))) s := by
    change (Outcome.ofStore (LocalDecl.run ⟨name, some k, some e, false⟩ u.env (start [] values))).andThen
      _ = _
    rw [hdeclare]
    change Body.exec fuel ⟨names, u.env.next + 1⟩ (.cons (.ret (some (.var name))) .nil) s = _
    rw [Body.exec, Stmt.exec, hvar]
    rfl
  refine ⟨s, ?_⟩
  change (u.body.exec fuel u.env (start [] values)).bind _ = _
  rw [hexec]
  rfl

variable {t : Tree} {roots : List NodeId} {options : CompileOptions} {unit : CompiledUnit}
  {decl : FunctionDecl} {booted : Session}

/-- A variable of the unit and a local variable with the same initial value, just after the start of the
program and just after the declaration.  The one holds the folded number reduced to its kind, and the other
the number that the folded one stands for, converted to its kind.  For a folded number in the range of its
kind these are the same unless the variables are of kind `bool` and the number is even and not zero. -/
theorem initial_values {gs : List (String × Scalar)} {name : String} {k : Scalar} {e : IntExpr}
    (hat : (keeping gs name k e).At t decl roots) (hcompile : compileUnit t roots options = .ok unit)
    (hboot : boot unit.program = .ok booted) {id node : NodeId} {global : String} {isConst : Bool}
    (hid : id ∈ roots) (hkind : t.HasKind id (.variable ⟨global, some (.scalar k), some node, isConst⟩))
    (hnode : e.At t node) (hclosed : e.vars = []) (hrange : e.FoldsInRange) :
    ∃ folded n x, e.fold = .ok (some folded) ∧ folded.toInt? = some n ∧ folded.Denotes x ∧
      booted.readGlobal (LinkName.global global) = .ok (IntValue.ofInt k n).word ∧
      ((booted.run ((keeping gs name k e).linkName decl) []).1 = .ok (x.convert k).word ∨
        ∃ fault, (booted.run ((keeping gs name k e).linkName decl) []).1 = .error fault ∧
          fault.isLimit = true) ∧
      (folded.InRange → (booted.readGlobal (LinkName.global global) = .ok (x.convert k).word ↔
        (k = .bool → n = 0 ∨ n % 2 = 1))) := by
  have hk : k.isInteger = true := hat.1.retKind k rfl
  obtain ⟨hprogram, hbegins⟩ := compileUnit_begins hat hcompile
  obtain ⟨symbol, v, hinit, hv, hstarts⟩ := hbegins id hid (global, k) (some node) isConst hkind
  obtain ⟨folded, hvalue, hfold⟩ := hinit _ node e hkind rfl hclosed hnode
  obtain ⟨n, hn, hx⟩ := hstarts.value folded hvalue
  have hread := hprogram.readGlobal hat.2.1 hboot hv hstarts.isGlobal hx
  obtain ⟨⟨initial, hshows⟩, hrun⟩ := run_iff_call hat hcompile hboot
  obtain ⟨x, heval, hdenotes⟩ := IntExpr.eval_of_fold (initially gs initial) hnode hrange hfold
  obtain ⟨s, hcall⟩ := call_keeping gs name k e 0 initial heval
  have hlocal := (hrun booted initial [] rfl (le_refl _) hshows .nil).2 0 _ s hcall
  refine ⟨folded, n, x, hfold, hn, hdenotes, hread, ?_, fun hinrange => ?_⟩
  · rcases hlocal with ⟨hok, -⟩ | hlimit
    · left
      have hself : (x.convert k).convert k = x.convert k := by
        have h := IntValue.convert_self (x.wellFormed_convert hk)
        rwa [x.kind_convert k] at h
      rw [← hself]
      exact hok
    · exact Or.inr hlimit
  · have hvalue : x.value = n := Option.some.inj ((hdenotes.toInt?_eq hinrange).symm.trans hn)
    rw [hread, Except.ok.injEq, IntValue.word_inj (IntValue.wellFormed_ofInt hk n)
      (x.wellFormed_convert hk) (x.kind_convert k).symm, IntValue.ofInt_eq_convert_iff hvalue]

/-- The unit `bool g = 2; bool flag() { bool x = 2; return x; }`. -/
def flagDecl : FunctionDecl := { name := "flag", ret := .scalar .bool, body := some ⟨6⟩ }

def flagTree : Tree where
  nodes := #[⟨.int 2, default⟩, ⟨.variable ⟨"g", some (.scalar .bool), some ⟨0⟩, false⟩, default⟩,
    ⟨.int 2, default⟩, ⟨.variable ⟨"x", some (.scalar .bool), some ⟨2⟩, false⟩, default⟩,
    ⟨.ident "x" [], default⟩, ⟨.ret (some ⟨4⟩), default⟩, ⟨.block [⟨3⟩, ⟨5⟩], default⟩,
    ⟨.function flagDecl, default⟩]

theorem flag_at : (keeping [("g", .bool)] "x" .bool (.int 2)).At flagTree flagDecl [⟨1⟩, ⟨7⟩] := by
  have hglobal : GlobalAt flagTree ("g", .bool) ⟨1⟩ := by
    refine ⟨rfl, some ⟨0⟩, false, ⟨_, rfl⟩, ?_⟩
    rintro _ ⟨⟩
    exact ⟨.int 2, rfl, ⟨_, rfl⟩⟩
  refine ⟨⟨rfl, by decide, rfl, by rintro _ ⟨⟩; rfl, rfl, ⟨6⟩, rfl, [⟨3⟩, ⟨5⟩], ⟨_, rfl⟩, ?_⟩, by decide,
    [⟨1⟩], ⟨7⟩, [], rfl, ⟨_, rfl⟩, .cons hglobal .nil⟩
  refine ⟨⟨3⟩, _, rfl, ⟨by rintro _ ⟨⟩; rfl, some ⟨2⟩, ⟨_, rfl⟩, ⟨_, rfl⟩, nofun⟩, ⟨5⟩, _, rfl, ?_, rfl⟩
  exact ⟨some ⟨4⟩, ⟨_, rfl⟩, ⟨_, rfl⟩, by decide⟩

/-- The variable of the unit is false and the local one is true. -/
theorem initial_values_of_flag : ∃ unit booted, compileUnit flagTree [⟨1⟩, ⟨7⟩] {} = .ok unit ∧
    boot unit.program = .ok booted ∧
    booted.readGlobal (LinkName.global "g") = .ok (IntValue.ofBool false).word ∧
    ((booted.run ((keeping [("g", .bool)] "x" .bool (.int 2)).linkName flagDecl) []).1 =
        .ok (IntValue.ofBool true).word ∨
      ∃ fault, (booted.run ((keeping [("g", .bool)] "x" .bool (.int 2)).linkName flagDecl) []).1 =
        .error fault ∧ fault.isLimit = true) := by
  have hok : (match compileUnit flagTree [⟨1⟩, ⟨7⟩] {} with
      | .ok unit => (boot unit.program).isOk
      | .error _ => false) = true := by decide +kernel
  cases hcompile : compileUnit flagTree [⟨1⟩, ⟨7⟩] {} with
  | error stop =>
    rw [hcompile] at hok
    cases hok
  | ok unit =>
    rw [hcompile] at hok
    cases hboot : boot unit.program with
    | error e =>
      simp only [hboot] at hok
      cases hok
    | ok booted =>
      have hnode : (IntExpr.int 2).At flagTree ⟨0⟩ := ⟨default, rfl⟩
      have hvariable : flagTree.HasKind ⟨1⟩ (.variable ⟨"g", some (.scalar .bool), some ⟨0⟩, false⟩) :=
        ⟨default, rfl⟩
      obtain ⟨folded, n, x, hfold, hn, hx, hglobal, hlocal, -⟩ :=
        initial_values flag_at hcompile hboot List.mem_cons_self hvariable hnode rfl trivial
      cases hfold
      cases hn
      obtain ⟨-, -, rfl⟩ := hx
      exact ⟨unit, booted, rfl, hboot, hglobal, hlocal⟩

end IntUnit
end UnitCompiler
