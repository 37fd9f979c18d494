import UnitCompiler.Proofs.Compile.Actions
import UnitCompiler.Proofs.Machine.Instructions

/-!
# Emitted values

What it means that emitted code computes a number: run from the point where the builder was, it comes
to the point where the builder is, with an operand that stands for the number.  Registers that were
there before and the bytes of memory keep their values.
-/

namespace UnitCompiler
open Machine

namespace Machine.Activation

variable {A : Activation} {b b' : FunctionBuilder} {S : List Nat}

/-- The activation runs what the builder has written, and more. -/
def Has (A : Activation) (b : FunctionBuilder) : Prop := b.code.Extends b.nextValue A.code

theorem Has.of_continues (h : A.Has b') (hc : b.Continues S b') : A.Has b :=
  hc.code.trans h hc.value

theorem Has.of_moveTo {id : Nat} (h : A.Has (b.moveTo id)) : A.Has b := h

theorem Has.getElem? {operation : Operation} {type : Option IrType}
    (h : A.Has (b.place operation type)) (hb : b.Sound) :
    (A.code.body b.here.block)[b.here.index]? = some ⟨b.nextValue, operation, type⟩ :=
  Code.Extends.getElem? h (FunctionBuilder.getElem?_place hb operation type)

theorem Has.ending {t : Terminator} (h : A.Has (b.endWith t)) (hb : b.Sound) :
    A.code.ending b.here.block = some t ∧
      (A.code.body b.here.block).length = b.here.index := by
  have hcode := FunctionBuilder.code_endWith hb t
  have hend : (b.endWith t).code.ending b.current = some t := by
    rw [hcode]
    exact Function.update_self _ _ _
  obtain ⟨hend', hbody⟩ := Code.Extends.ending h b.current t hend
  refine ⟨hend', ?_⟩
  change (A.code.body b.current).length = _
  rw [hbody, hcode]
  rfl

end Machine.Activation

/-- A configuration in which the code from `b` to `b'` has given a number. -/
structure Delivers (A : Activation) (b b' : FunctionBuilder) (o : Operand) (k : Scalar)
    (frame : Machine.Frame) (m : Memory) (x : IntValue) (C : Config) : Prop where
  point : C.point = b'.here
  frame : Agrees b.nextValue b'.nextValue frame C.frame
  memory : Grows m C.state.memory
  kind : x.kind = k
  value : Denotes A.image C.frame o x

/-- The code from `b` to `b'` computes a number, or divides by zero when there is none. -/
def Computes (A : Activation) (b b' : FunctionBuilder) (o : Operand) (k : Scalar)
    (frame : Machine.Frame) (s : State) : Option IntValue → Prop
  | some x =>
    A.Leads 0 ⟨b.here, frame, s⟩ (Delivers A b b' o k frame s.memory x) (·.isLimit = true)
  | none =>
    A.Leads 0 ⟨b.here, frame, s⟩ (fun _ => False) fun e => e.isLimit = true ∨ e = .divisionByZero

namespace Computes

variable {A : Activation} {b b' b'' : FunctionBuilder} {o o' : Operand} {k k' : Scalar}
  {frame : Machine.Frame} {s : State}

/-- No code computes what an operand stands for already. -/
theorem refl {x : IntValue} (hx : Denotes A.image frame o x) (hk : x.kind = k) :
    Computes A b b o k frame s (some x) :=
  Activation.Leads.refl ⟨rfl, .refl _ _ _, .refl _, hk, hx⟩

/-- Code that goes on with a computed number. -/
theorem bind {v : Option IntValue} (h : Computes A b b' o k frame s v)
    (hb : b.nextValue ≤ b'.nextValue) (hb' : b'.nextValue ≤ b''.nextValue)
    {f : IntValue → Option IntValue}
    (hnext : ∀ x C, v = some x → Delivers A b b' o k frame s.memory x C →
      Computes A b' b'' o' k' C.frame C.state (f x)) :
    Computes A b b'' o' k' frame s (v.bind f) := by
  cases v with
  | none => exact h
  | some x =>
    change Computes A b b'' o' k' frame s (f x)
    cases hf : f x with
    | none =>
      refine (h.mono (le_refl _) (fun _ => id) fun e => Or.inl).andThen fun C hC => ?_
      have hrun := hnext x C rfl hC
      rw [hf, Computes, ← hC.point] at hrun
      exact hrun
    | some y =>
      refine h.andThen fun C hC => ?_
      have hrun := hnext x C rfl hC
      rw [hf, Computes, ← hC.point] at hrun
      refine hrun.imp fun C' hC' => ⟨hC'.point, ?_, hC.memory.trans hC'.memory, hC'.kind, hC'.value⟩
      exact hC.frame.trans hC'.frame hb hb'

/-- A single instruction with a number for its result. -/
theorem place {operation : Operation} (hb : b.Sound)
    (hA : A.Has (b.place operation (some k.machineType))) {v : Option IntValue}
    (hv : ∀ x, v = some x → x.WellFormed ∧ x.kind = k)
    (hperform : Machine.perform A.image A.caller frame k.machineType operation
      { s with steps := s.steps + 1 } = outcome { s with steps := s.steps + 1 } v) :
    Computes A b (b.place operation (some k.machineType)) (.register b.nextValue) k frame s v := by
  have hat := hA.getElem? hb
  cases v with
  | none =>
    refine Activation.leads_step hat (fun _ => Or.inl) ?_ ?_
    · intro v s' h
      cases hperform.symm.trans h
    · intro e s' h
      cases hperform.symm.trans h
      exact Or.inr rfl
  | some x =>
    refine Activation.leads_step hat (fun _ => id) ?_ ?_
    · intro v s' h
      cases hperform.symm.trans h
      obtain ⟨hx, rfl⟩ := hv x rfl
      let i : Instruction := ⟨b.nextValue, operation, some x.kind.machineType⟩
      exact ⟨(FunctionBuilder.here_place hb _ _).symm, agrees_keep frame i x.word, .refl _, rfl,
        denotes_keep (i := i) _ _ hx rfl⟩
    · intro e s' h
      cases hperform.symm.trans h

end Computes

section Steps

variable {A : Activation} {b : FunctionBuilder} {frame : Machine.Frame} {s : State}

/-- A slot of an integer kind that has just been made. -/
structure MakesSlot (A : Activation) (b b' : FunctionBuilder) (k : Scalar) (frame : Machine.Frame)
    (m : Memory) (C : Config) : Prop where
  point : C.point = b'.here
  frame : Agrees b.nextValue b'.nextValue frame C.frame
  memory : Grows m C.state.memory
  cell : ∃ a, A.image.eval C.frame (.register b.nextValue) = .ok (.ptr a) ∧ m.size ≤ a ∧
    Holds C.state.memory a ⟨k, 0⟩

theorem leads_alloca {k : Scalar} {align : Nat} (hb : b.Sound) (hk : k.isInteger = true)
    (halign : align ≤ memoryLimit)
    (hA : A.Has (b.place (.alloca k.machineType align) (some (.ptr k.machineType))))
    (hbase : memoryBase ≤ s.memory.size) :
    A.Leads 0 ⟨b.here, frame, s⟩
      (MakesSlot A b (b.place (.alloca k.machineType align) (some (.ptr k.machineType))) k frame
        s.memory)
      (·.isLimit = true) := by
  refine Activation.leads_step (hA.getElem? hb) (fun _ => id) ?_ ?_
  · intro v s' h
    rcases perform_alloca A.caller (.ptr k.machineType)
        { s with steps := s.steps + 1 } hk halign hbase with
      ⟨s₁, herror⟩ | ⟨a, m, hok, hgrows, hle, hholds⟩
    · cases herror.symm.trans h
    · cases hok.symm.trans h
      let i : Instruction :=
        ⟨b.nextValue, .alloca k.machineType align, some (.ptr k.machineType)⟩
      refine ⟨(FunctionBuilder.here_place hb _ _).symm, agrees_keep frame i (.ptr a), hgrows, a, ?_,
        hle, hholds⟩
      have hreg := getElem?_keep frame (i := i) rfl rfl (.ptr a)
      simp only [Image.eval, i] at hreg ⊢
      rw [hreg]
  · intro e s' h
    rcases perform_alloca A.caller (.ptr k.machineType)
        { s with steps := s.steps + 1 } hk halign hbase with
      ⟨s₁, herror⟩ | ⟨a, m, hok, -⟩
    · cases herror.symm.trans h
      rfl
    · cases hok.symm.trans h

/-- A number that has just been stored. -/
structure Stores (b' : FunctionBuilder) (frame : Machine.Frame) (m : Memory) (a : Nat)
    (x : IntValue) (C : Config) : Prop where
  point : C.point = b'.here
  frame : C.frame = frame
  size : C.state.memory.size = m.size
  cell : Holds C.state.memory a x
  bytes : ∀ j, (j < a ∨ a + x.kind.bytes ≤ j) → C.state.memory.bytes[j]? = m.bytes[j]?

theorem leads_store {o slot : Operand} {x : IntValue} {a : Nat} (hb : b.Sound)
    (hA : A.Has (b.place (.store o slot none false) none)) (hx : Denotes A.image frame o x)
    (hslot : A.image.eval frame slot = .ok (.ptr a))
    (haccess : memoryBase ≤ a ∧ a + x.kind.bytes ≤ s.memory.size) :
    A.Leads 0 ⟨b.here, frame, s⟩
      (Stores (b.place (.store o slot none false) none) frame s.memory a x) (·.isLimit = true) := by
  obtain ⟨m, hperform, hsize, hholds, hbytes⟩ := perform_store A.caller .void
    { s with steps := s.steps + 1 } hx hslot haccess
  refine Activation.leads_step (hA.getElem? hb) (fun _ => id) ?_ ?_
  · intro v s' h
    cases hperform.symm.trans h
    exact ⟨(FunctionBuilder.here_place hb _ _).symm, rfl, hsize, hholds, hbytes⟩
  · intro e s' h
    cases hperform.symm.trans h

/-- A store behind a memory leaves it alone. -/
theorem Stores.grows {b' : FunctionBuilder} {m m₀ : Memory} {a : Nat} {x : IntValue} {C : Config}
    (h : Stores b' frame m a x C) (hgrows : Grows m₀ m) (ha : m₀.size ≤ a) :
    Grows m₀ C.state.memory := by
  refine ⟨hgrows.size.trans_eq h.size.symm, fun j hj => ?_⟩
  rw [h.bytes j (Or.inl (hj.trans_le ha)), hgrows.bytes j hj]

theorem leads_jump {target : Nat} (hb : b.Sound) (hA : A.Has (b.endWith (.br target)))
    (htarget : target ≠ 0) {Q : Config → Prop} {X : Fault → Prop}
    (hQ : Q ⟨⟨target, 0⟩, frame, s⟩) : A.Leads 1 ⟨b.here, frame, s⟩ Q X :=
  Activation.leads_br (hA.ending hb).1 (hA.ending hb).2 htarget hQ

theorem leads_branch {o : Operand} {t : Bool} {yes no : Nat} (hb : b.Sound)
    (hA : A.Has (b.endWith (.condBr o yes no))) (hyes : yes ≠ 0) (hno : no ≠ 0)
    (ho : Denotes A.image frame o (.ofBool t)) {Q : Config → Prop} {X : Fault → Prop}
    (hQ : Q ⟨⟨if t then yes else no, 0⟩, frame, s⟩) : A.Leads 1 ⟨b.here, frame, s⟩ Q X :=
  Activation.leads_condBr (hA.ending hb).1 (hA.ending hb).2 hyes hno ho.eval hQ

end Steps

/-- A variable of a scope by its name and place. -/
def LocalVar.named (v : LocalVar) : String × Place := (v.name, ⟨v.type, v.slot⟩)

/-- The variables of a scope, frame by frame. -/
def Scope.places (s : Scope) : List (List (String × Place)) :=
  s.frames.map fun frame => frame.vars.map LocalVar.named

/-- The place of the innermost variable of a name. -/
def findPlace (places : List (List (String × Place))) (name : String) : Option Place :=
  (places.findSome? fun frame => frame.find? (·.1 == name)).map (·.2)

theorem Scope.map_lookup (s : Scope) (name : String) :
    (s.lookup name).map (fun v => Place.mk v.type v.slot) = findPlace s.places name := by
  obtain ⟨frames⟩ := s
  unfold Scope.lookup findPlace Scope.places
  simp only
  induction frames with
  | nil => rfl
  | cons frame rest ih =>
    have hframe : (frame.vars.map LocalVar.named).find? (·.1 == name) =
        (frame.var? name).map LocalVar.named := by
      rw [List.find?_map]
      rfl
    rw [List.findSome?_cons, List.map_cons, List.findSome?_cons, hframe]
    cases frame.var? name with
    | none => exact ih
    | some v => rfl

theorem Scope.places_markUsed (s : Scope) (name : String) :
    (s.markUsed name).places = s.places := by
  obtain ⟨frames⟩ := s
  unfold Scope.markUsed Scope.places
  simp only
  induction frames with
  | nil => rfl
  | cons frame rest ih =>
    have hframe : (frame.markUsed name).vars.map LocalVar.named = frame.vars.map LocalVar.named := by
      simp only [Frame.markUsed, List.map_map]
      refine List.map_congr_left fun v _ => ?_
      simp only [Function.comp]
      split <;> rfl
    unfold Scope.markFrames
    split
    · rw [List.map_cons, hframe, List.map_cons]
    · rw [List.map_cons, ih, List.map_cons]

/-- A declared variable stands behind the others of its frame, which has none of its name. -/
theorem Scope.places_declare {s s' : Scope} {v : LocalVar} (h : s.declare v = some s') :
    ∃ frame rest, s.places = frame :: rest ∧ s'.places = (frame ++ [v.named]) :: rest ∧
      frame.find? (·.1 == v.name) = none := by
  obtain ⟨frames⟩ := s
  unfold Scope.declare at h
  cases frames with
  | nil => cases h
  | cons frame rest =>
    simp only at h
    split_ifs at h with hvar
    cases h
    refine ⟨_, _, rfl, by simp [Scope.places], ?_⟩
    rw [List.find?_map]
    have hnone : frame.vars.find? (·.name == v.name) = none := by
      simpa [Frame.var?] using hvar
    simpa [Function.comp_def, LocalVar.named] using hnone

theorem findPlace_declare {frame : List (String × Place)} {rest : List (List (String × Place))}
    {v : String × Place} (h : frame.find? (·.1 == v.1) = none) (name : String) :
    findPlace ((frame ++ [v]) :: rest) name =
      if name = v.1 then some v.2 else findPlace (frame :: rest) name := by
  unfold findPlace
  rw [List.findSome?_cons, List.findSome?_cons, List.find?_append]
  split_ifs with hname
  · subst hname
    simp [h]
  · have hne : (v.1 == name) = false := by simpa using fun h => hname h.symm
    simp [hne]

/-- A context whose function under emission stands in an open block of a builder. -/
structure Ready (c : Context) (b : FunctionBuilder) : Prop where
  function : ∃ F, c.function = some F ∧ F.builder = b
  sound : b.Sound
  isOpen : b.Open

/-- The context after code for a value: the builder went on in its block, and variables may have been
marked as used. -/
structure Follows (c c' : Context) (b b' : FunctionBuilder) : Prop where
  state : ∃ F scope, c.function = some F ∧ F.builder = b ∧ c' = c.advance b' scope ∧
    scope.places = F.scope.places
  continues : b.Continues [b.current] b'
  isOpen : b'.Open

namespace Follows

variable {c c' c'' : Context} {b b' b'' : FunctionBuilder}

theorem refl (h : Ready c b) : Follows c c b b := by
  obtain ⟨F, hF, rfl⟩ := h.function
  exact ⟨⟨F, F.scope, hF, rfl, (Context.advance_self hF).symm, rfl⟩,
    .refl h.sound (List.mem_singleton_self _), h.isOpen⟩

theorem trans (h : Follows c c' b b') (h' : Follows c' c'' b' b'') : Follows c c'' b b'' := by
  obtain ⟨F, scope, hF, hb, rfl, hplaces⟩ := h.state
  obtain ⟨F', scope', hF', hb', rfl, hplaces'⟩ := h'.state
  rw [Context.function_advance hF, Option.some.injEq] at hF'
  subst hF'
  exact ⟨⟨F, scope', hF, hb, Context.advance_advance _ _ _ _ _, hplaces'.trans hplaces⟩,
    h.continues.trans_current h'.continues, h'.isOpen⟩

theorem ready (h : Follows c c' b b') : Ready c' b' := by
  obtain ⟨F, scope, hF, hb, rfl, hplaces⟩ := h.state
  exact ⟨⟨_, Context.function_advance hF _ _, rfl⟩, h.continues.sound, h.isOpen⟩

theorem tree (h : Follows c c' b b') : c'.tree = c.tree := by
  obtain ⟨F, scope, hF, hb, rfl, hplaces⟩ := h.state
  rfl

end Follows

end UnitCompiler
