import UnitCompiler.Proofs.Compile.Slots

/-!
# Runs that realize outcomes

A configuration models a store when the slots hold the store's values.  A run realizes an outcome of
the statement that it was emitted for: it lasts when the statement ran out of repetitions, it divides
by zero when the statement did, and otherwise it arrives where the statement's signal leads.
-/

namespace UnitCompiler
open Machine

/-- The slots that a function has, and its deferred assignments. -/
structure Layout where
  slots : List Slot
  defers : List Deferred

def Layout.add (L : Layout) (slot : Slot) : Layout := { L with slots := L.slots ++ [slot] }

/-- All variables with the names have values. -/
def Store.Defined (s : Store) (names : List (String × Nat)) : Prop :=
  ∀ p ∈ names, (s.value p.2).isSome

namespace Store

variable {s : Store} {names : List (String × Nat)} {n : Nat} {x : IntValue}

theorem Defined.set (h : s.Defined names) (n : Nat) (x : IntValue) : (s.set n x).Defined names := by
  intro p hp
  by_cases hn : p.2 = n
  · simp [Store.set, hn]
  · simpa [Store.set, hn] using h p hp

theorem set_set (s : Store) (n : Nat) (x y : IntValue) : (s.set n x).set n y = s.set n y := by
  simp [Store.set]

theorem Defined.mark (h : s.Defined names) (n : Nat) : (s.mark n).Defined names := h

theorem Defined.get (h : s.Defined names) {name : String} (hn : numberOf names name = some n) :
    s.value n = some (s.get names name) := by
  obtain ⟨p, hp, rfl⟩ := Option.map_eq_some_iff.mp hn
  obtain ⟨x, hx⟩ := Option.isSome_iff_exists.mp (h p (List.mem_of_find?_eq_some hp))
  simp [Store.get, hn, hx]

end Store

/-- A configuration with the values of a store and a result in its slots.  Only deferred assignments of
the layout have been reached, each where its variables had values. -/
structure Models (i : Image) (L : Layout) (names : List (String × Nat)) (s : Store) (r : IntValue)
    (C : Config) : Prop where
  represents : Represents i L.slots C.frame C.state.memory (s.cells r)
  defined : s.Defined names
  deferred : ∀ d ∈ L.defers, s.reached d.number = true → s.Defined d.names
  supported : ∀ n, s.reached n = true → ∃ d ∈ L.defers, d.number = n

/-- An activation runs what a builder has written for some slots, and more; the slots that come later
are made behind the builder's registers. -/
structure Later (A : Activation) (L : Layout) (b : FunctionBuilder) (L' : Layout) : Prop where
  has : A.Has b
  slots : ∃ more, L.slots = L'.slots ++ more ∧
    ∀ slot ∈ more, ∃ r, slot.operand = .register r ∧ b.nextValue ≤ r
  defers : ∃ more, L.defers = L'.defers ++ more
  nodup : (L.slots.map (·.cell)).Nodup
  numbers : (L.defers.map (·.number)).Nodup

theorem Later.of_continues {A : Activation} {L L' : Layout} {b b' : FunctionBuilder} {S : List Nat}
    (h : Later A L b' L') (hc : b.Continues S b') : Later A L b L' := by
  obtain ⟨more, hmore, hregs⟩ := h.slots
  refine ⟨h.has.of_continues hc, ⟨more, hmore, fun slot hslot => ?_⟩, h.defers, h.nodup, h.numbers⟩
  obtain ⟨reg, hreg, hle⟩ := hregs slot hslot
  exact ⟨reg, hreg, hc.value.trans hle⟩

theorem Later.mem {A : Activation} {L L' : Layout} {b : FunctionBuilder} (h : Later A L b L')
    {slot : Slot} (hslot : slot ∈ L'.slots) : slot ∈ L.slots := by
  obtain ⟨more, hmore, -⟩ := h.slots
  rw [hmore]
  exact List.mem_append_left _ hslot

namespace Models

variable {i : Image} {L : Layout} {names : List (String × Nat)} {s : Store} {r : IntValue}
  {C C' : Config}

/-- Where control stands does not matter. -/
theorem moved (h : Models i L names s r C) (p : Point) : Models i L names s r ⟨p, C.frame, C.state⟩ :=
  ⟨h.represents, h.defined, h.deferred, h.supported⟩

theorem keep (h : Models i L names s r C) {lo hi : Nat} (hframe : Agrees lo hi C.frame C'.frame)
    (hm : Grows C.state.memory C'.state.memory) (hslots : ∀ slot ∈ L.slots, slot.Outside lo hi) :
    Models i L names s r C' :=
  ⟨h.represents.keep hframe hm hslots, h.defined, h.deferred, h.supported⟩

theorem names_mono {names' : List (String × Nat)} (h : Models i L names s r C)
    (hsub : ∀ p ∈ names', p ∈ names) : Models i L names' s r C :=
  ⟨h.represents, fun p hp => h.defined p (hsub p hp), h.deferred, h.supported⟩

/-- One more visible variable. -/
theorem enter (h : Models i L names s r C) (name : String) {n : Nat} (hn : (s.value n).isSome) :
    Models i L ((name, n) :: names) s r C := by
  refine ⟨h.represents, fun p hp => ?_, h.deferred, h.supported⟩
  rcases List.mem_cons.mp hp with rfl | hp
  · exact hn
  · exact h.defined p hp

/-- Another value of a variable, where the slots have it. -/
theorem update (h : Models i L names s r C) {n : Nat} {x : IntValue}
    (hr : Represents i L.slots C'.frame C'.state.memory ((s.set n x).cells r)) :
    Models i L names (s.set n x) r C' :=
  ⟨hr, h.defined.set n x, fun d hd hreached => (h.deferred d hd hreached).set n x, h.supported⟩

end Models

section Realizes

variable (A : Activation)

/-- The run from `C` realizes an outcome; `Q` says where a signal leads. -/
def Realizes (fuel : Nat) (C : Config) (Q : Signal → Store → Config → Prop) : Outcome → Prop
  | .timeout => A.Lasts fuel C
  | .fault => A.Leads 0 C (fun _ => False) fun e => e.isLimit = true ∨ e = .divisionByZero
  | .done signal s => A.Leads 0 C (Q signal s) (·.isLimit = true)

variable {A}

namespace Realizes

variable {fuel : Nat} {C : Config} {Q R : Signal → Store → Config → Prop} {o : Outcome}

theorem bind (h : Realizes A fuel C Q o) {f : Signal → Store → Outcome}
    (hnext : ∀ signal s C', Q signal s C' → Realizes A fuel C' R (f signal s)) :
    Realizes A fuel C R (o.bind f) := by
  cases o with
  | timeout => exact h
  | fault => exact h
  | done signal s =>
    change Realizes A fuel C R (f signal s)
    cases hf : f signal s with
    | timeout =>
      refine Activation.Leads.lasts (j := 0) h fun C' hC' => ?_
      have hrest := hnext signal s C' hC'
      rwa [hf] at hrest
    | fault =>
      refine (Activation.Leads.mono h (le_refl _) (fun _ => id) fun e => Or.inl).andThen fun C' hC' => ?_
      have hrest := hnext signal s C' hC'
      rwa [hf] at hrest
    | done signal' s' =>
      refine Activation.Leads.andThen h fun C' hC' => ?_
      have hrest := hnext signal s C' hC'
      rwa [hf] at hrest

/-- A run that comes to a run that realizes an outcome. -/
theorem step {P : Config → Prop} (h : A.Leads 0 C P (·.isLimit = true))
    (hnext : ∀ C', P C' → Realizes A fuel C' R o) : Realizes A fuel C R o :=
  bind (o := .done .next ⟨fun _ => none, fun _ => false⟩) (Q := fun _ _ => P)
    (f := fun _ _ => o) h fun _ _ C' hC' => hnext C' hC'

/-- A jump counts as one more repetition. -/
theorem jump {P : Config → Prop} (h : A.Leads 1 C P (·.isLimit = true))
    (hnext : ∀ C', P C' → Realizes A fuel C' R o) : Realizes A (fuel + 1) C R o := by
  cases o with
  | timeout => exact h.lasts hnext
  | fault => exact step (h.mono (Nat.zero_le _) (fun _ => id) fun _ => id) hnext
  | done signal s => exact step (h.mono (Nat.zero_le _) (fun _ => id) fun _ => id) hnext

/-- A run that goes on from where every signal leads. -/
theorem onward (h : Realizes A fuel C Q o)
    (hnext : ∀ signal s C', Q signal s C' → A.Leads 0 C' (R signal s) (·.isLimit = true)) :
    Realizes A fuel C R o := by
  cases o with
  | timeout => exact h
  | fault => exact h
  | done signal s => exact Activation.Leads.andThen h (hnext signal s)

theorem imp (h : Realizes A fuel C Q o) (himp : ∀ signal s C', Q signal s C' → R signal s C') :
    Realizes A fuel C R o := by
  cases o with
  | timeout => exact h
  | fault => exact h
  | done signal s => exact Activation.Leads.imp h (himp signal s)

theorem mono {fuel' : Nat} (h : Realizes A fuel C Q o) (hle : fuel' ≤ fuel) :
    Realizes A fuel' C Q o := by
  cases o with
  | timeout => exact Activation.Lasts.mono h hle
  | fault => exact h
  | done signal s => exact h

/-- A statement that goes on behind a computed number. -/
theorem value {b b' : FunctionBuilder} {operand : Operand} {k : Scalar} {frame : Machine.Frame}
    {st : State} {v : Option IntValue} (h : Computes A b b' operand k frame st v)
    {f : IntValue → Outcome} (hnext : ∀ x C', v = some x →
      Delivers A b b' operand k frame st.memory x C' → Realizes A fuel C' R (f x)) :
    Realizes A fuel ⟨b.here, frame, st⟩ R (v.elim .fault f) := by
  cases v with
  | none => exact h
  | some x => exact step h fun C' hC' => hnext x C' rfl hC'

end Realizes
end Realizes

end UnitCompiler
