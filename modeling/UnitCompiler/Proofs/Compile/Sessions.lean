import Mathlib
import UnitCompiler.Proofs.Compile.Units

/-!
# Runs of compiled units

A unit that compiles, put into memory: each call of its function does what the unit's semantics says,
in any session, whatever values its variables have by then.
-/

namespace UnitCompiler
open Machine

namespace IntUnit

variable {u : IntUnit} {decl : FunctionDecl} {i : Image} {size : Nat} {session booted : Session}
  {args globals : List IntValue} {s : Store}

/-- The variables of the unit have addresses of their own below `size`. -/
structure Loaded (u : IntUnit) (i : Image) (size : Nat) : Prop where
  base : memoryBase ≤ size
  found : ∀ g ∈ u.globals, ∃ v a, i.program.global? (LinkName.global g.1) = some v ∧
    v.type = g.2.machineType ∧ i.globalAddress? (LinkName.global g.1) = some a ∧
    a + g.2.bytes ≤ size
  apart : ∀ g ∈ u.globals, ∀ g' ∈ u.globals, g.1 ≠ g'.1 → ∀ a a',
    i.globalAddress? (LinkName.global g.1) = some a →
    i.globalAddress? (LinkName.global g'.1) = some a' → Apart a g.2.bytes a' g'.2.bytes

theorem names_of_isGlobal {gs : List (String × Scalar)} {vars : List GlobalVariable}
    (h : List.Forall₂ IsGlobal gs vars) :
    vars.map (·.name) = (gs.map (·.1)).map LinkName.global := by
  induction h with
  | nil => rfl
  | cons hfirst _ ih => rw [List.map_cons, List.map_cons, List.map_cons, hfirst.name, ih]

/-- The variables of a program of the unit are found by their names once it has been put into memory. -/
theorem Program.inMemory {program : UnitCompiler.Program} (h : u.Program decl program)
    (hnodup : (u.globals.map (·.1)).Nodup) (hboot : boot program = .ok booted) :
    booted.image.program = program ∧ Booted program.globals booted.image booted.state.memory ∧
      ∀ (g : String × Scalar) (v : GlobalVariable), v ∈ program.globals → IsGlobal g v →
        program.global? (LinkName.global g.1) = some v := by
  have hnames : (program.globals.map (·.name)).Nodup := by
    rw [names_of_isGlobal h.globals]
    exact hnodup.map LinkName.global_injective
  have hvalues (v : GlobalVariable) (hv : v ∈ program.globals) : ∃ w, Begins v w := by
    obtain ⟨g, -, hglobal⟩ := exists_of_forall₂ h.globals.flip hv
    obtain ⟨x, -, hx⟩ := hglobal.value
    exact ⟨x.word, hx.begins⟩
  obtain ⟨hprogram, hbooted⟩ := boot_spec hvalues hnames hboot
  refine ⟨hprogram, hbooted, fun g v hv hglobal => ?_⟩
  rw [← hglobal.name]
  exact global?_of_mem hnames hv

/-- A variable of the unit holds the number that it starts with. -/
theorem Program.readGlobal {program : UnitCompiler.Program} (h : u.Program decl program)
    (hnodup : (u.globals.map (·.1)).Nodup) (hboot : boot program = .ok booted) {g : String × Scalar}
    {v : GlobalVariable} {x : IntValue} (hv : v ∈ program.globals) (hglobal : IsGlobal g v)
    (hx : StartsWith v x) : booted.readGlobal (LinkName.global g.1) = .ok x.word := by
  obtain ⟨rfl, hbooted, hfind⟩ := h.inMemory hnodup hboot
  obtain ⟨a, ha, -, -, hloads⟩ := hbooted.found v hv
  rw [hglobal.name] at ha
  have hload := hloads _ hx.value
  rw [Session.readGlobal, hfind g v hv hglobal, ha]
  exact hload

/-- A program of the unit that has been put into memory. -/
theorem Program.loaded {program : UnitCompiler.Program} (h : u.Program decl program)
    (hnodup : (u.globals.map (·.1)).Nodup) (hboot : boot program = .ok booted) :
    booted.image.program = program ∧ u.Loaded booted.image booted.state.memory.size ∧
      ∃ initial, u.Shows booted initial := by
  obtain ⟨hprogram, hbooted, hfind⟩ := h.inMemory hnodup hboot
  have hsize (g : String × Scalar) (v : GlobalVariable) (hglobal : IsGlobal g v) :
      v.type = g.2.machineType ∧ layout.sizeOf v.type = g.2.bytes := by
    obtain ⟨x, hk, hx⟩ := hglobal.value
    have htype : v.type = g.2.machineType := by rw [hx.type, hk]
    exact ⟨htype, by rw [htype, sizeOf_machineType]⟩
  refine ⟨hprogram, ⟨hbooted.base, fun g hg => ?_, fun g hg g' hg' hne a a' ha ha' => ?_⟩, ?_⟩
  · obtain ⟨v, hv, hglobal⟩ := exists_of_forall₂ h.globals hg
    obtain ⟨a, ha, -, hstop, -⟩ := hbooted.found v hv
    rw [hglobal.name] at ha
    rw [(hsize g v hglobal).2] at hstop
    exact ⟨v, a, hprogram ▸ hfind g v hv hglobal, (hsize g v hglobal).1, ha, hstop⟩
  · obtain ⟨v, hv, hglobal⟩ := exists_of_forall₂ h.globals hg
    obtain ⟨v', hv', hglobal'⟩ := exists_of_forall₂ h.globals hg'
    rw [← (hsize g v hglobal).2, ← (hsize g' v' hglobal').2]
    refine hbooted.apart v hv v' hv' ?_ a a' (hglobal.name ▸ ha) (hglobal'.name ▸ ha')
    rw [hglobal.name, hglobal'.name]
    exact fun heq => hne (LinkName.global_injective heq)
  · have hvalue (g : String × Scalar) (hg : g ∈ u.globals) : ∃ x : IntValue, x.kind = g.2 ∧
        x.WellFormed ∧ booted.readGlobal (LinkName.global g.1) = .ok x.word := by
      obtain ⟨v, hv, hglobal⟩ := exists_of_forall₂ h.globals hg
      obtain ⟨x, hk, hx⟩ := hglobal.value
      exact ⟨x, hk, hx.wellFormed, h.readGlobal hnodup hboot hv hglobal hx⟩
    have : Nonempty IntValue := ⟨⟨.int, 0⟩⟩
    choose! value hvalue using hvalue
    refine ⟨u.globals.map value, ?_⟩
    rw [Shows, List.forall₂_map_right_iff, List.forall₂_same]
    exact hvalue

/-- What a session shows is in its memory. -/
theorem Loaded.inMemory (h : u.Loaded session.image size) (hsize : size ≤ session.state.memory.size)
    (hnodup : (u.globals.map (·.1)).Nodup) (hargs : args.length = u.params.length)
    (hshows : u.Shows session globals) :
    u.InMemory session.image session.state.memory (start args globals) := by
  intro frame r
  have heval (g : String × Scalar) (type : IrType) (a : Nat)
      (ha : session.image.globalAddress? (LinkName.global g.1) = some a) :
      session.image.eval frame (.global (LinkName.global g.1) type) = .ok (.ptr a) := by
    rw [Image.eval, ha]
  refine ⟨h.base.trans hsize, fun slot hslot x hx => ?_, ?_⟩
  · obtain ⟨g, n, hle, hg, rfl⟩ := mem_globalSlots.mp hslot
    have hx' : globals[n - u.params.length]? = some x := by
      have hn : ¬ n < u.params.length := by omega
      simpa [Store.cells, start, List.getElem?_append, hn, hargs] using hx
    have hmem : (g, x) ∈ u.globals.zip globals :=
      List.mem_of_getElem? (List.getElem?_zip_eq_some.mpr ⟨hg, hx'⟩)
    obtain ⟨hk, hwell, hread⟩ := (List.forall₂_iff_zip.mp hshows).2 hmem
    obtain ⟨v, a, hv, htype, ha, -⟩ := h.found g (List.mem_of_getElem? hg)
    rw [Session.readGlobal, hv, ha] at hread
    have hload : session.state.memory.load a v.type = .ok x.word := hread
    refine ⟨hk, a, heval g _ a ha, hwell, ?_⟩
    rw [hk, ← htype]
    exact hload
  · intro slot hslot slot' hslot' hne _ _ a a' ha ha'
    obtain ⟨g, n, hle, hg, rfl⟩ := mem_globalSlots.mp hslot
    obtain ⟨g', n', hle', hg', rfl⟩ := mem_globalSlots.mp hslot'
    have hnames : g.1 ≠ g'.1 := by
      intro heq
      have hlt := (List.getElem?_eq_some_iff.mp hg).1
      have hsame : n - u.params.length = n' - u.params.length := by
        refine (List.getElem?_inj (by simpa using hlt) hnodup).mp ?_
        rw [List.getElem?_map, List.getElem?_map, hg, hg', Option.map_some, Option.map_some, heq]
      exact hne (by rw [show n = n' by omega])
    obtain ⟨-, b, -, -, hb, -⟩ := h.found g (List.mem_of_getElem? hg)
    obtain ⟨-, b', -, -, hb', -⟩ := h.found g' (List.mem_of_getElem? hg')
    cases (heval g _ b hb).symm.trans ha
    cases (heval g' _ b' hb').symm.trans ha'
    exact h.apart g (List.mem_of_getElem? hg) g' (List.mem_of_getElem? hg') hnames a a' hb hb'

/-- What is in memory is shown when the stack has been given back. -/
theorem Loaded.shows (h : u.Loaded i size) {m : Memory} {mark steps : Nat} (hsize : size ≤ mark)
    (hnodup : (u.globals.map (·.1)).Nodup) (hmem : u.InMemory i m s)
    (hdefined : s.Defined u.globalNames) :
    u.Shows ⟨i, ⟨m.truncate mark, steps⟩⟩ (u.globalValues s) := by
  rw [Shows, globalValues, List.forall₂_map_right_iff, List.forall₂_same]
  intro g hg
  have hsome : (numberOf u.globalNames g.1).isSome := by
    rw [numberOf, Option.isSome_map, List.find?_isSome]
    obtain ⟨j, hj⟩ := List.getElem?_of_mem hg
    refine ⟨(g.1, u.params.length + j), ?_, by simp⟩
    rw [globalNames, List.mem_zipIdx_iff_le_and_getElem?_sub]
    simp [hj]
  obtain ⟨n, hn⟩ := Option.isSome_iff_exists.mp hsome
  obtain ⟨hle, g', hg', hname⟩ := exists_global_of_numberOf hn
  obtain rfl : g' = g := List.inj_on_of_nodup_map hnodup (List.mem_of_getElem? hg') hg hname
  obtain ⟨v, a, hv, htype, ha, hstop⟩ := h.found g' hg
  obtain ⟨hk, a', ha', hholds⟩ := (hmem ⟨default, [], {}⟩ ⟨.int, 0⟩).cell _
    (mem_globalSlots.mpr ⟨g', n, hle, hg', rfl⟩) _ (hdefined.get hn)
  have heval : i.eval ⟨default, [], {}⟩ (.global (LinkName.global g'.1) g'.2.machineType) =
      .ok (.ptr a) := by
    rw [Image.eval, ha]
  cases heval.symm.trans ha'
  have hkept : Holds (m.truncate mark) a (s.get u.globalNames g'.1) :=
    hholds.truncate (by rw [hk]; exact hstop.trans hsize)
  refine ⟨hk, hholds.wellFormed, ?_⟩
  have hload := hkept.load
  rw [hk, ← htype] at hload
  rw [Session.readGlobal, hv, ha]
  exact hload

/-- A call of the unit's function runs its blocks from the first one on. -/
theorem Emitted.callFunction {f : FunctionSymbol} {fn : IrFunction} (h : u.Emitted f fn)
    {name : String} (hfunction : i.program.function? name = some fn)
    (hargs : args.length = u.params.length) (depth : Nat) :
    callFunction i (depth + 1) name (args.map (·.word)) = restoringStack
      (runBlocks i (Machine.callFunction i depth) fn (blockBudget fn) 0
        { signature := fn.signature, args := args.map (·.word) }) := by
  obtain ⟨entry, hentry, hid⟩ := h.entry
  have hbody : fn.isDeclaration = false := by
    rw [IrFunction.isDeclaration]
    cases hblocks : fn.blocks with
    | nil =>
      rw [hblocks] at hentry
      cases hentry
    | cons _ _ => rfl
  have hlength : fn.signature.params.length = (args.map (·.word)).length := by
    rw [h.params, List.length_map, List.length_map, hargs]
  rw [Machine.callFunction]
  simp only [hfunction, hbody, hlength, hentry, hid, lt_irrefl, decide_false, Bool.false_and,
    Bool.or_false, Bool.false_eq_true, if_false]

theorem restoringStack_ok {α : Type} {act : RunM α} {st st' : State} {a : α}
    (h : act st = .ok a st') :
    restoringStack act st = .ok a { st' with memory := st'.memory.truncate st.memory.size } := by
  unfold restoringStack
  rw [h]

theorem restoringStack_error {α : Type} {act : RunM α} {st st' : State} {e : Fault}
    (h : act st = .error e st') :
    restoringStack act st = .error e { st' with memory := st'.memory.truncate st.memory.size } := by
  unfold restoringStack
  rw [h]

/-- What a call of the unit's function gives, for each outcome of the unit's semantics. -/
theorem run_of_call {f : FunctionSymbol} {fn : IrFunction} (hfn : u.Emitted f fn)
    (hloaded : u.Loaded session.image size) (hsize : size ≤ session.state.memory.size)
    (hnodup : (u.globals.map (·.1)).Nodup) (name : String)
    (hfunction : session.image.program.function? name = some fn)
    (hshows : u.Shows session globals) (haccepts : u.Accepts args) (fuel : Nat) :
    match u.call fuel args globals with
    | .timeout => blockBudget fn ≤ fuel → ∀ v, (session.run name (args.map (·.word))).1 ≠ .ok v
    | .fault => ∃ e, (session.run name (args.map (·.word))).1 = .error e ∧
        (e.isLimit = true ∨ e = .divisionByZero)
    | .done signal s =>
      ((session.run name (args.map (·.word))).1 = .ok (u.returned f.returnsZero signal) ∧
          u.Shows (session.run name (args.map (·.word))).2 (u.globalValues s)) ∨
        ∃ e, (session.run name (args.map (·.word))).1 = .error e ∧ e.isLimit = true := by
  have hargs := haccepts.length_eq
  have hglobals : globals.length = u.globals.length := (List.Forall₂.length_eq hshows).symm
  have hmem := hloaded.inMemory hsize hnodup hargs hshows
  obtain ⟨depth, hdepth⟩ : ∃ depth, maxCallDepth = depth + 1 := ⟨511, rfl⟩
  have hcomes := hfn.implements session.image (Machine.callFunction session.image depth) fuel args
    globals session.state haccepts hglobals hmem
  have hadvances := advances_callFunction session.image depth
  have hrun := hfn.callFunction hfunction hargs depth
  rw [← hdepth] at hrun
  generalize Machine.callFunction session.image depth = caller at hcomes hadvances hrun
  have hok (v : Value) (st : State) (h : runBlocks session.image caller fn (blockBudget fn) 0
      { signature := fn.signature, args := args.map (·.word) } session.state = .ok v st) :
      session.run name (args.map (·.word)) = (.ok v, ⟨session.image,
        { st with memory := st.memory.truncate session.state.memory.size }⟩) := by
    rw [Session.run, hrun, restoringStack_ok h]
  have herror (e : Fault) (st : State) (h : runBlocks session.image caller fn (blockBudget fn) 0
      { signature := fn.signature, args := args.map (·.word) } session.state = .error e st) :
      (session.run name (args.map (·.word))).1 = .error e := by
    rw [Session.run, hrun, restoringStack_error h]
  cases hcall : u.call fuel args globals with
  | timeout =>
    rw [hcall] at hcomes
    intro hfuel v hv
    cases hend : runBlocks session.image caller fn (blockBudget fn) 0
        { signature := fn.signature, args := args.map (·.word) } session.state with
    | ok v' st => exact hcomes _ hfuel v' st hend
    | error e st => cases (herror e st hend).symm.trans hv
  | fault =>
    rw [hcall] at hcomes
    rcases Settles.at_budget hadvances hcomes with ⟨v, st, -, hfalse⟩ | ⟨e, st, hend, he⟩
    · exact hfalse.elim
    · exact ⟨e, herror e st hend, he⟩
  | done signal s =>
    rw [hcall] at hcomes
    rcases Settles.at_budget hadvances hcomes with ⟨v, st, hend, rfl, hmem', hdefined⟩ |
      ⟨e, st, hend, he⟩
    · left
      rw [hok _ st hend]
      exact ⟨rfl, hloaded.shows hsize hnodup hmem' hdefined⟩
    · exact Or.inr ⟨e, herror e st hend, he⟩

/-- Which function without a result gives zero is told by its name. -/
theorem returned_of_describes {f : FunctionSymbol} (hf : u.Describes f)
    (hlink : f.linkName = u.linkName decl) (signal : Signal) :
    u.returned f.returnsZero signal = u.returned (u.linkName decl == "main") signal := by
  cases hret : u.ret with
  | some k =>
    unfold returned
    rw [hret]
    rcases signal with _ | _ | _ | _ | x <;> rfl
  | none =>
    have hvoid : f.ret = .void := by rw [hf.ret, retType, hret]; rfl
    have hzero : f.returnsZero = (u.linkName decl == "main") := by
      rw [FunctionSymbol.returnsZero, hf.owner, hvoid, hlink]
      simp [SourceType.isVoid, SourceType.strip]
    rw [hzero]

section Compiled

variable {t : Tree} {roots : List NodeId} {options : CompileOptions} {unit : CompiledUnit}

/-- A compiled unit in memory, and a function of it that is found by name. -/
theorem Program.function_found {program : UnitCompiler.Program} (h : u.Program decl program) :
    ∃ f fn, u.Describes f ∧ f.linkName = u.linkName decl ∧ u.Emitted f fn ∧
      program.function? (u.linkName decl) = some fn := by
  obtain ⟨f, fn, hf, hlink, hfn, hfunctions⟩ := h.function
  refine ⟨f, fn, hf, hlink, hfn, ?_⟩
  rw [UnitCompiler.Program.function?, hfunctions, List.find?_cons, hfn.name, hlink]
  simp

/-- A call of a compiled unit and the unit's semantics give the same value and leave the same values
in the unit's variables, unless the machine reaches a limit.  This holds in every session of the
program, whatever the variables have become since it was put into memory. -/
theorem run_iff_call (hat : u.At t decl roots) (hcompile : compileUnit t roots options = .ok unit)
    (hboot : boot unit.program = .ok booted) :
    (∃ initial, u.Shows booted initial) ∧
      ∀ (session : Session) (globals args : List IntValue), session.image = booted.image →
        booted.state.memory.size ≤ session.state.memory.size → u.Shows session globals →
        u.Accepts args →
        (∀ v, (session.run (u.linkName decl) (args.map (·.word))).1 = .ok v →
          ∃ fuel signal s, u.call fuel args globals = .done signal s ∧
            v = u.returned (u.linkName decl == "main") signal ∧
            u.Shows (session.run (u.linkName decl) (args.map (·.word))).2 (u.globalValues s)) ∧
        ∀ fuel signal s, u.call fuel args globals = .done signal s →
          ((session.run (u.linkName decl) (args.map (·.word))).1 =
              .ok (u.returned (u.linkName decl == "main") signal) ∧
            u.Shows (session.run (u.linkName decl) (args.map (·.word))).2 (u.globalValues s)) ∨
          ∃ e, (session.run (u.linkName decl) (args.map (·.word))).1 = .error e ∧
            e.isLimit = true := by
  have hprogram := compileUnit_spec hat hcompile
  have hnodup := hat.2.1
  obtain ⟨himage, hloaded, hinitial⟩ := hprogram.loaded hnodup hboot
  obtain ⟨f, fn, hf, hlink, hfn, hfunction⟩ := hprogram.function_found
  refine ⟨hinitial, fun session globals args hsame hsize hshows haccepts => ?_⟩
  have hrun := run_of_call hfn (hsame ▸ hloaded) hsize hnodup (u.linkName decl)
    (by rw [hsame, himage]; exact hfunction) hshows haccepts
  have hdone (fuel : Nat) (signal : Signal) (s : Store)
      (hcall : u.call fuel args globals = .done signal s) := by
    have hfuel := hrun fuel
    rw [hcall] at hfuel
    simp only [returned_of_describes hf hlink] at hfuel
    exact hfuel
  refine ⟨fun v hv => ?_, hdone⟩
  have hbudget := hrun (blockBudget fn)
  cases hcall : u.call (blockBudget fn) args globals with
  | timeout =>
    rw [hcall] at hbudget
    exact absurd hv (hbudget (le_refl _) v)
  | fault =>
    rw [hcall] at hbudget
    obtain ⟨e, he, -⟩ := hbudget
    cases he.symm.trans hv
  | done signal s =>
    rcases hdone _ _ _ hcall with ⟨hok, hshows'⟩ | ⟨e, he, -⟩
    · cases hok.symm.trans hv
      exact ⟨_, signal, s, hcall, rfl, hshows'⟩
    · cases he.symm.trans hv

/-- The function `int clip(int n) { defer last = n; while (n > 3) { n = n - 1; } return n; }`. -/
def clipDecl : FunctionDecl :=
  { name := "clip", params := [⟨"n", .scalar .int⟩], ret := .scalar .int, body := some ⟨17⟩ }

def clipTree : Tree where
  nodes := #[⟨.ident "last" [], default⟩, ⟨.ident "n" [], default⟩, ⟨.binary .assign ⟨0⟩ ⟨1⟩, default⟩,
    ⟨.defer ⟨2⟩, default⟩,
    ⟨.ident "n" [], default⟩, ⟨.int 3, default⟩, ⟨.binary .gt ⟨4⟩ ⟨5⟩, default⟩,
    ⟨.ident "n" [], default⟩, ⟨.ident "n" [], default⟩, ⟨.int 1, default⟩, ⟨.binary .sub ⟨8⟩ ⟨9⟩, default⟩,
    ⟨.binary .assign ⟨7⟩ ⟨10⟩, default⟩, ⟨.block [⟨11⟩], default⟩, ⟨.whileLoop ⟨6⟩ ⟨12⟩, default⟩,
    ⟨.ident "n" [], default⟩, ⟨.ret (some ⟨14⟩), default⟩,
    ⟨.variable ⟨"last", some (.scalar .int), none, false⟩, default⟩,
    ⟨.block [⟨3⟩, ⟨13⟩, ⟨15⟩], default⟩, ⟨.function clipDecl, default⟩]

def clip : IntUnit where
  globals := [("last", .int)]
  params := [("n", .int)]
  ret := some .int
  body := .cons (.defer ⟨.assign, "last", .var "n"⟩)
    (.cons (.whileLoop (.binary .gt (.var "n") (.int 3))
      (.cons (.simple (.assign ⟨.assign, "n", .binary .sub (.var "n") (.int 1)⟩)) .nil))
      (.cons (.ret (some (.var "n"))) .nil))

theorem clip_at : clip.At clipTree clipDecl [⟨16⟩, ⟨18⟩] := by
  have hdefer : (Stmt.defer ⟨.assign, "last", .var "n"⟩).At clipTree clip.env ⟨3⟩ :=
    ⟨⟨2⟩, ⟨_, rfl⟩, rfl, rfl, ⟨0⟩, ⟨1⟩, ⟨_, rfl⟩, ⟨_, rfl⟩, ⟨_, rfl⟩, by decide⟩
  have hloop : (Stmt.whileLoop (.binary .gt (.var "n") (.int 3))
      (.cons (.simple (.assign ⟨.assign, "n", .binary .sub (.var "n") (.int 1)⟩)) .nil)).At clipTree
      (clip.env.skip 1) ⟨13⟩ :=
    ⟨⟨6⟩, ⟨12⟩, ⟨_, rfl⟩, ⟨⟨rfl, ⟨4⟩, ⟨5⟩, ⟨_, rfl⟩, ⟨_, rfl⟩, ⟨_, rfl⟩⟩, by decide⟩, [⟨11⟩], ⟨_, rfl⟩,
      ⟨11⟩, [], rfl, ⟨rfl, rfl, ⟨7⟩, ⟨10⟩, ⟨_, rfl⟩, ⟨_, rfl⟩,
        ⟨rfl, ⟨8⟩, ⟨9⟩, ⟨_, rfl⟩, ⟨_, rfl⟩, ⟨_, rfl⟩⟩, by decide⟩, rfl⟩
  have hret : (Stmt.ret (some (.var "n"))).At clipTree (clip.env.skip 1) ⟨15⟩ :=
    ⟨some ⟨14⟩, ⟨_, rfl⟩, ⟨_, rfl⟩, by decide⟩
  refine ⟨⟨rfl, by decide, rfl, by decide, rfl, ⟨17⟩, rfl, [⟨3⟩, ⟨13⟩, ⟨15⟩], ⟨_, rfl⟩, ?_⟩,
    by decide, [⟨16⟩], ⟨18⟩, [], rfl, ⟨_, rfl⟩, .cons ⟨rfl, none, false, ⟨_, rfl⟩, nofun⟩ .nil⟩
  exact ⟨⟨3⟩, _, rfl, hdefer, ⟨13⟩, _, rfl, hloop, ⟨15⟩, _, rfl, hret, rfl⟩

theorem call_clip (v : Int) : clip.call 3 [⟨.int, 5⟩] [⟨.int, v⟩] = .done (.ret (some ⟨.int, 3⟩))
    (((((start [⟨.int, 5⟩] [⟨.int, v⟩]).mark 2).set 0 ⟨.int, 4⟩).set 0 ⟨.int, 3⟩).set 1 ⟨.int, 3⟩) := by
  cbv

theorem run_clip : ∃ unit booted initial, compileUnit clipTree [⟨16⟩, ⟨18⟩] {} = .ok unit ∧
    boot unit.program = .ok booted ∧ clip.Shows booted initial ∧
    (((booted.run (clip.linkName clipDecl) [(IntValue.mk .int 5).word]).1 =
        .ok (IntValue.mk .int 3).word ∧
      clip.Shows (booted.run (clip.linkName clipDecl) [(IntValue.mk .int 5).word]).2 [⟨.int, 3⟩]) ∨
      ∃ e, (booted.run (clip.linkName clipDecl) [(IntValue.mk .int 5).word]).1 = .error e ∧
        e.isLimit = true) := by
  have hok : (match compileUnit clipTree [⟨16⟩, ⟨18⟩] {} with
      | .ok unit => (boot unit.program).isOk
      | .error _ => false) = true := by decide +kernel
  cases hcompile : compileUnit clipTree [⟨16⟩, ⟨18⟩] {} with
  | error stop =>
    rw [hcompile] at hok
    cases hok
  | ok unit =>
    rw [hcompile] at hok
    cases hboot : boot unit.program with
    | error e =>
      simp only [hboot] at hok
      cases hok
    | ok booted =>
      obtain ⟨⟨initial, hshows⟩, hrun⟩ := run_iff_call clip_at hcompile hboot
      refine ⟨unit, booted, initial, rfl, hboot, hshows, ?_⟩
      obtain ⟨v, rfl⟩ : ∃ v, initial = [⟨.int, v⟩] := by
        rcases hshows with _ | ⟨⟨hk, -⟩, ⟨⟩⟩
        exact ⟨_, congrArg (fun k => [IntValue.mk k _]) hk⟩
      exact (hrun booted [⟨.int, v⟩] [⟨.int, 5⟩] rfl (le_refl _) hshows
        (.cons ⟨rfl, rfl, by decide⟩ .nil)).2 3 _ _ (call_clip v)

/-- The unit of a function that returns an expression. -/
def returning (params : List (String × Scalar)) (k : Scalar) (e : IntExpr) : IntUnit :=
  ⟨[], params, some k, .cons (.ret (some e)) .nil⟩

/-- The values of the parameters in a call. -/
def argument (params : List (String × Scalar)) (args : List IntValue) : String → IntValue :=
  (start args []).get (params.map (·.1)).zipIdx.reverse

theorem call_returning (params : List (String × Scalar)) (k : Scalar) (e : IntExpr) (fuel : Nat)
    (args : List IntValue) : (returning params k e).call fuel args [] =
      (e.eval (argument params args)).elim .fault fun x => .done (.ret (some x)) (start args []) := by
  let u := returning params k e
  have hnames : u.env.names = (params.map (·.1)).zipIdx.reverse := List.append_nil _
  have hexec : u.body.exec fuel u.env (start args []) =
      ((e.eval (argument params args)).elim .fault fun x => .done (.ret (some x)) (start args [])) := by
    change ((Store.eval _ u.env.names e).elim Outcome.fault _).andThen _ = _
    rw [hnames, Store.eval]
    change ((e.eval (argument params args)).elim Outcome.fault _).andThen _ = _
    cases e.eval (argument params args) <;> rfl
  change (u.body.exec fuel u.env (start args [])).bind _ = _
  rw [hexec]
  cases e.eval (argument params args) <;> rfl

/-- A function that returns an expression gives the number that the expression stands for, converted
to the kind of its result, and fails when that number would need a division by zero; unless the
machine reaches a limit. -/
theorem run_returning {params : List (String × Scalar)} {k : Scalar} {e : IntExpr}
    (hat : (returning params k e).At t decl roots)
    (hcompile : compileUnit t roots options = .ok unit) :
    ∃ booted, boot unit.program = .ok booted ∧ ∀ (session : Session) (args : List IntValue),
      session.image = booted.image → booted.state.memory.size ≤ session.state.memory.size →
      (returning params k e).Accepts args →
      (session.run ((returning params k e).linkName decl) (args.map (·.word))).1 =
          (match e.eval (argument params args) with
          | some x => .ok (x.convert k).word
          | none => .error .divisionByZero) ∨
        ∃ fault, (session.run ((returning params k e).linkName decl) (args.map (·.word))).1 =
          .error fault ∧ fault.isLimit = true := by
  have hprogram := compileUnit_spec hat hcompile
  have hnone : unit.program.globals = [] := List.forall₂_nil_left_iff.mp hprogram.globals
  obtain ⟨booted, hboot⟩ : ∃ booted, boot unit.program = .ok booted := by
    unfold boot
    rw [hnone]
    exact ⟨_, rfl⟩
  obtain ⟨himage, hloaded, -⟩ := hprogram.loaded hat.2.1 hboot
  obtain ⟨f, fn, hf, hlink, hfn, hfunction⟩ := hprogram.function_found
  refine ⟨booted, hboot, fun session args hsame hsize haccepts => ?_⟩
  have hshows : (returning params k e).Shows session [] := .nil
  have hrun := run_of_call hfn (hsame ▸ hloaded) hsize hat.2.1
    ((returning params k e).linkName decl) (by rw [hsame, himage]; exact hfunction) hshows haccepts 0
  rw [call_returning] at hrun
  cases he : e.eval (argument params args) with
  | none =>
    rw [he] at hrun
    obtain ⟨fault, hfault, hlimit | rfl⟩ := hrun
    · exact Or.inr ⟨fault, hfault, hlimit⟩
    · exact Or.inl hfault
  | some x =>
    rw [he] at hrun
    rcases hrun with ⟨hok, -⟩ | hlimit
    · exact Or.inl hok
    · exact Or.inr hlimit

/-- The function `int half(int a) { return a / 2; }`. -/
def halfDecl : FunctionDecl :=
  { name := "half", params := [⟨"a", .scalar .int⟩], ret := .scalar .int, body := some ⟨4⟩ }

def halfTree : Tree where
  nodes := #[⟨.ident "a" [], default⟩, ⟨.int 2, default⟩, ⟨.binary .div ⟨0⟩ ⟨1⟩, default⟩,
    ⟨.ret (some ⟨2⟩), default⟩, ⟨.block [⟨3⟩], default⟩, ⟨.function halfDecl, default⟩]

def half : IntUnit := returning [("a", .int)] .int (.binary .div (.var "a") (.int 2))

theorem half_at : half.At halfTree halfDecl [⟨5⟩] := by
  refine ⟨⟨rfl, by decide, rfl, by decide, rfl, ⟨4⟩, rfl, [⟨3⟩], ⟨_, rfl⟩, ?_⟩, List.nodup_nil, [], ⟨5⟩, [],
    rfl, ⟨_, rfl⟩, .nil⟩
  refine ⟨⟨3⟩, [], rfl, ⟨some ⟨2⟩, ⟨_, rfl⟩, ⟨rfl, ⟨0⟩, ⟨1⟩, ⟨_, rfl⟩, ⟨_, rfl⟩, ⟨_, rfl⟩⟩, ?_⟩, rfl⟩
  decide

theorem run_half : ∃ unit booted, compileUnit halfTree [⟨5⟩] {} = .ok unit ∧
    boot unit.program = .ok booted ∧
    ((booted.run (half.linkName halfDecl) [(IntValue.mk .int 7).word]).1 =
        .ok (IntValue.mk .int 3).word ∨
      ∃ fault, (booted.run (half.linkName halfDecl) [(IntValue.mk .int 7).word]).1 = .error fault ∧
        fault.isLimit = true) := by
  have hok : (compileUnit halfTree [⟨5⟩] {}).isOk = true := by decide +kernel
  cases hcompile : compileUnit halfTree [⟨5⟩] {} with
  | error stop =>
    rw [hcompile] at hok
    cases hok
  | ok unit =>
    obtain ⟨booted, hboot, hrun⟩ := run_returning half_at hcompile
    refine ⟨unit, booted, rfl, hboot, ?_⟩
    exact hrun booted [⟨.int, 7⟩] rfl (le_refl _) (.cons ⟨rfl, rfl, by decide⟩ .nil)

end Compiled

end IntUnit
end UnitCompiler
