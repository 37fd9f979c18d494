import UnitCompiler.Proofs.Compile.Locals

/-!
# Statements in a row

What the emission of a statement with statements inside establishes, and how that composes: one
statement behind another, a block with a scope of its own, and a branch that starts in a fresh block
and leads to another one.
-/

namespace UnitCompiler
open Machine

section Scopes

variable {p : Performer} {c c' : Context} {F : FunctionState}

theorem Scope.places_pop (s : Scope) : s.pop.2.places = s.places.tail := by
  obtain ⟨frames⟩ := s
  cases frames <;> rfl

/-- Reports change the log only. -/
theorem Context.reportUnused_eq (c : Context) (vars : List LocalVar) :
    (c.reportUnused vars).core = c.core ∧ (c.reportUnused vars).function = c.function := by
  unfold reportUnused
  by_cases hreport : c.options.warnUnused = true
  · rw [if_pos hreport]
    clear hreport
    induction vars generalizing c with
    | nil => exact ⟨rfl, rfl⟩
    | cons v rest ih =>
      have hwarn (location : Location) (message code : String) :
          (c.warn location message code).core = c.core ∧
            (c.warn location message code).function = c.function := by
        unfold Context.warn
        split <;> exact ⟨rfl, rfl⟩
      obtain ⟨hcore, hfunction⟩ := ih (c.warn (c.tree.locate v.span)
        s!"unused variable '{v.name}'" "unused-variable")
      exact ⟨hcore.trans (hwarn _ _ _).1, hfunction.trans (hwarn _ _ _).2⟩
  · rw [if_neg hreport]
    exact ⟨rfl, rfl⟩

namespace CompileM

theorem modifyFunction_apply (h : c.function = some F) (g : FunctionState → FunctionState) :
    modifyFunction g p c = .ok () { c with function := some (g F) } := by
  unfold modifyFunction
  rw [bind_of_eq_ok (functionState_apply h)]
  rfl

theorem openScope_apply (h : c.function = some F) :
    openScope p c = .ok () { c with function := some { F with scope := F.scope.push } } :=
  modifyFunction_apply h _

theorem closeScope_apply (h : c.function = some F) (hclose : closeScope p c = .ok () c') :
    c'.core = c.core ∧ c'.function = some { F with scope := F.scope.pop.2 } := by
  unfold closeScope at hclose
  rw [bind_of_eq_ok (functionState_apply h)] at hclose
  cases hclose
  exact Context.reportUnused_eq _ _

/-- The context behind a builder action. -/
theorem eq_advance_of_build {α : Type} {action : BuildM α} {a x : α} {b' : FunctionBuilder}
    (h : c.function = some F) (hrun : action.run F.builder = (a, b'))
    (hbuild : build action p c = .ok x c') : x = a ∧ c' = c.advance b' F.scope := by
  rw [build_apply h, hrun] at hbuild
  cases hbuild
  exact ⟨rfl, rfl⟩

end CompileM
end Scopes

/-- The same code, seen from contexts and functions that differ in scopes and loops. -/
theorem Written.transfer {S : List Nat} {c c' c₁ c₂ : Context} {F F' F₁ F₂ : FunctionState}
    {L L' : Layout} {defers : List Deferred} (h : Written S c₁ c₂ F₁ F₂ L L' defers)
    (hcore : c₁.core = c.core) (hcore' : c'.core = c₂.core) (hb : F₁.builder = F.builder)
    (htail : F₁.exitTail = F.exitTail) (hb' : F'.builder = F₂.builder)
    (htail' : F'.exitTail = F₂.exitTail) (hfixed : F'.fixed = F.fixed) :
    Written S c c' F F' L L' defers := by
  refine ⟨hcore'.trans (h.core.trans hcore), hfixed, ?_, ?_, h.defers, ?_, ?_⟩
  · rw [hb', ← hb]
    exact h.continues
  · rw [← hb]
    exact h.slots
  · rw [htail', ← htail, ← hb]
    exact h.tail
  · rw [hb', htail', ← htail]
    exact h.exits

namespace Site

variable {c c' c₀ c₁ : Context} {F F₀ F₁ : FunctionState} {E E₁ : Env} {L L₁ : Layout}
  {S : List Nat} {new : List Deferred}

/-- Behind code in other blocks than the last one of the exit path. -/
theorem advance (h : Site c F E L) {b' : FunctionBuilder} (hc : F.builder.Continues S b')
    (hS : F.exitTail ∉ S) :
    Site (c.advance b' F.scope) { F with builder := b' } E L ∧
      Written S c (c.advance b' F.scope) F { F with builder := b' } L L [] :=
  h.move rfl (Context.function_advance h.function b' F.scope) rfl rfl (fun _ => rfl) hc hS

/-- At the start of a fresh block. -/
theorem land (h : Site c F E L) {id : Nat} (hid : F.builder.Fresh id) (hne : F.exitTail ≠ id) :
    Site (c.advance (F.builder.moveTo id) F.scope) { F with builder := F.builder.moveTo id } E L ∧
      Written [id] c (c.advance (F.builder.moveTo id) F.scope) F
        { F with builder := F.builder.moveTo id } L L [] :=
  h.advance (.moved h.sound hid.lt) (by simpa using hne)

/-- A place with other loops around it. -/
theorem withLoops (h : Site c F E L) {loops : List LoopTargets} (hcore : c'.core = c.core)
    (hF' : c'.function = some { F with loops })
    (hloops : ∀ t ∈ loops, t.breakTo ≠ 0 ∧ t.continueTo ≠ 0) : Site c' { F with loops } E L := by
  refine ⟨hF', h.sound, fun name n hn => ?_, h.slots, h.nodup, h.next, h.flags, h.numbers, h.tail,
    h.tail_ne, h.tail_pos, h.exit_pos, hloops, h.result, h.plain, h.held⟩
  rw [Context.place?_congr hcore h.function hF' (fun _ => rfl)]
  exact h.visible name n hn

/-- In a new scope all names lead where they led. -/
theorem openScope (h : Site c F E L) {depth : Nat} :
    Site { c with function := some { F with scope := F.scope.push }, nestingDepth := depth }
      { F with scope := F.scope.push } E L := by
  refine ⟨rfl, h.sound, fun name n hn => ?_, h.slots, h.nodup, h.next, h.flags, h.numbers, h.tail,
    h.tail_ne, h.tail_pos, h.exit_pos, h.loops, h.result, h.plain, h.held⟩
  let c₁ : Context :=
    { c with function := some { F with scope := F.scope.push }, nestingDepth := depth }
  have hplace : c₁.place? name = c.place? name :=
    Context.place?_congr (show c₁.core = c.core from rfl) h.function rfl (fun _ => rfl) name
  rw [hplace]
  exact h.visible name n hn

/-- Behind a scope the names lead where they led before it. -/
theorem closeScope (h : Site c F E L) (hin : Site c₁ F₁ E₁ L₁)
    (hw : Written S c₀ c₁ F₀ F₁ L L₁ new) {scope scope' : Scope} (hF₀ : F₀ = { F with scope })
    (hcore₀ : c₀.core = c.core) (hcore : c'.core = c₁.core)
    (hF' : c'.function = some { F₁ with scope := scope' })
    (hplaces : scope'.places = F.scope.places) :
    Site c' { F₁ with scope := scope' } ⟨E.names, E₁.next⟩ L₁ ∧
      Written S c c' F { F₁ with scope := scope' } L L₁ new := by
  subst hF₀
  have hcore' : c'.core = c.core := hcore.trans (hw.core.trans hcore₀)
  refine ⟨⟨hF', hin.sound, fun name n hn => ?_, hin.slots, hin.nodup, hin.next, hin.flags,
    hin.numbers, hin.tail, hin.tail_ne, hin.tail_pos, hin.exit_pos, hin.loops, hin.result,
    hin.plain, hin.held⟩, hw.transfer hcore₀ hcore rfl rfl rfl rfl hw.fixed⟩
  obtain ⟨slot, hslot, hcell, type, hplace, htype⟩ := h.visible name n hn
  obtain ⟨more, hmore, -⟩ := hw.slots
  refine ⟨slot, hmore ▸ List.mem_append_left _ hslot, hcell, type, ?_, htype⟩
  rw [Context.place?_congr hcore' h.function hF' (fun name => by rw [hplaces])]
  exact hplace

end Site

/-- The signals of a statement inside another one, seen from there, when control goes on behind it. -/
theorem Realizes.ends {A : Activation} {L : Layout} {F F₁ : FunctionState}
    {names names₁ : List (String × Nat)} {r : IntValue} {Next Next' : Store → Config → Prop}
    {fuel : Nat} {C : Config} {o : Outcome} (h : Realizes A fuel C (Ends A L F₁ names₁ r Next) o)
    (hfixed : F₁.fixed = F.fixed) (hnames : ∀ q ∈ names, q ∈ names₁)
    (hnext : ∀ s C', Next s C' → A.Leads 0 C' (Next' s) (·.isLimit = true)) :
    Realizes A fuel C (Ends A L F names r Next') o := by
  refine h.onward fun signal s C' hC' => ?_
  cases signal with
  | next => exact hnext s C' hC'
  | leave => exact .refl (Ends.outer hfixed hnames (fun _ _ => id) hC')
  | again => exact .refl (Ends.outer hfixed hnames (fun _ _ => id) hC')
  | ret value => exact .refl (Ends.outer hfixed hnames (fun _ _ => id) hC')

/-- What the emission of a statement establishes.  Deferred assignments in code that is not reached
may be left out. -/
structure Compiles (c c' : Context) (F F' : FunctionState) (E E' : Env) (L L' : Layout)
    (run : Nat → Store → Outcome) (defers : List Deferred) : Prop where
  site : Site c' F' E' L'
  scope : F'.scope.places.tail = F.scope.places.tail
  written : ∃ new, new.Sublist defers ∧
    Written [F.builder.current, F.exitTail] c c' F F' L L' new
  runs : Runs F F' E E' L' run

namespace Compiles

variable {c c' c₁ c₂ : Context} {F F' F₁ F₂ : FunctionState} {E E' E₁ E₂ : Env}
  {L L' L₁ L₂ : Layout} {run run' : Nat → Store → Outcome} {defers defers' : List Deferred}

theorem fixed (h : Compiles c c' F F' E E' L L' run defers) : F'.fixed = F.fixed := by
  obtain ⟨new, -, hw⟩ := h.written
  exact hw.fixed

/-- No statement. -/
theorem refl (h : Site c F E L) (ho : F.builder.Open) :
    Compiles c c F F E E L L (fun _ => .done .next) [] := by
  refine ⟨h, rfl, ⟨[], List.Sublist.refl _, ?_⟩, ?_⟩
  · refine ⟨rfl, rfl, .refl h.sound List.mem_cons_self, ⟨[], by simp, by simp⟩, by simp, Or.inl rfl,
      fun A L₁ _ => .refl A L₁ _⟩
  · intro A L₁ hlater fuel frame st s r hmodels
    exact Activation.Leads.refl ⟨ho, rfl, hmodels⟩

/-- A statement without statements inside. -/
theorem of_simple {store : Store → Option Store} (h : EmitsSimple c c' F F' E E' L L' store)
    (hscope : F'.scope.places.tail = F.scope.places.tail) :
    Compiles c c' F F' E E' L L' (fun _ s => .ofStore (store s)) [] :=
  ⟨h.site, hscope, ⟨[], List.Sublist.refl _, h.written.mono _ fun x hx => by simp_all⟩, h.runs⟩

/-- One statement behind another. -/
theorem andThen (h : Compiles c c₁ F F₁ E E₁ L L₁ run defers)
    (h' : Compiles c₁ c₂ F₁ F₂ E₁ E₂ L₁ L₂ run' defers') (hnames : ∀ q ∈ E.names, q ∈ E₁.names) :
    Compiles c c₂ F F₂ E E₂ L L₂ (fun fuel s => (run fuel s).andThen (run' fuel))
      (defers ++ defers') := by
  obtain ⟨new, hnew, hw⟩ := h.written
  obtain ⟨new', hnew', hw'⟩ := h'.written
  refine ⟨h'.site, h'.scope.trans h.scope, ⟨new ++ new', hnew.append hnew', ?_⟩, ?_⟩
  · exact hw.trans_current (by simp) hw'
  · intro A L₀ hlater fuel frame st s r hmodels
    refine (h.runs A L₀ (hlater.of_written hw') fuel frame st s r hmodels).bind ?_
    rintro signal s' ⟨point, frame', st'⟩ hends
    cases signal with
    | next =>
      obtain ⟨-, hpoint, hmodels'⟩ := hends
      cases hpoint
      exact (h'.runs A L₀ hlater fuel frame' st' s' r hmodels').ends hw.fixed hnames
        fun _ _ hnext => .refl hnext
    | leave => exact .refl hends
    | again => exact .refl hends
    | ret value => exact .refl hends

/-- Behind a statement that ends its block nothing is emitted. -/
theorem andThen_nothing (h : Compiles c c₁ F F₁ E E₁ L L₁ run defers) (ho : ¬ F₁.builder.Open)
    (count : Nat) (run' : Nat → Store → Outcome) (defers' : List Deferred) :
    Compiles c c₁ F F₁ E (E₁.skip count) L L₁ (fun fuel s => (run fuel s).andThen (run' fuel))
      (defers ++ defers') := by
  obtain ⟨new, hnew, hw⟩ := h.written
  refine ⟨h.site.skip count, h.scope, ⟨new, hnew.trans (List.sublist_append_left _ _), hw⟩, ?_⟩
  intro A L₀ hlater fuel frame st s r hmodels
  refine (h.runs A L₀ hlater fuel frame st s r hmodels).bind ?_
  intro signal s' C hends
  cases signal with
  | next => exact absurd hends.1 ho
  | leave => exact .refl hends
  | again => exact .refl hends
  | ret value => exact .refl hends

/-- A statement in a scope of its own. -/
theorem inScope {c₀ : Context} {scope scope' : Scope} (h : Site c F E L)
    (hin : Compiles c₀ c₁ { F with scope } F₁ E E₁ L L₁ run defers) (hcore₀ : c₀.core = c.core)
    (hcore : c'.core = c₁.core) (hF' : c'.function = some { F₁ with scope := scope' })
    (hplaces : scope'.places = F.scope.places) (hnames : ∀ q ∈ E.names, q ∈ E₁.names) :
    Compiles c c' F { F₁ with scope := scope' } E ⟨E.names, E₁.next⟩ L L₁ run defers := by
  obtain ⟨new, hnew, hw⟩ := hin.written
  obtain ⟨hsite, hw'⟩ := h.closeScope hin.site hw rfl hcore₀ hcore hF' hplaces
  refine ⟨hsite, congrArg _ hplaces, ⟨new, hnew, hw'⟩, ?_⟩
  intro A L₀ hlater fuel frame st s r hmodels
  refine (hin.runs A L₀ hlater fuel frame st s r hmodels).ends rfl (fun _ => id) ?_
  rintro s' C ⟨ho, hpoint, hmodels'⟩
  exact .refl ⟨ho, hpoint, hmodels'.names_mono hnames⟩

end Compiles
end UnitCompiler
