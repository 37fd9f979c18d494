import UnitCompiler.Proofs.Order.Outline

/-!
# Runs that enter registrations

An action between the declarations of a unit may come down to a list of registrations, which is the same in
every context of the unit.  It succeeds where none of them is refused.
-/

namespace UnitCompiler

/-- A declaration may be entered in the name of these nodes and aggregates. -/
structure Registration.Fits (o : Outline) (nodes : List NodeId) (owners : List String)
    (r : Registration) : Prop where
  owner : ∀ owner ∈ r.owner?, owner ∈ owners
  decl : ∀ id ∈ r.decl?, id ∈ nodes
  typeAlias : ∀ name target, r = .alias name (.type target) → name ∈ o.aliases

/-- What belongs to no aggregate and no function fits everywhere. -/
theorem Registration.Fits.shared {o : Outline} {nodes : List NodeId} {owners : List String}
    {r : Registration} (howner : r.owner? = none) (hdecl : r.decl? = none)
    (halias : ∀ name target, r ≠ .alias name (.type target)) : r.Fits o nodes owners where
  owner owner h := by
    rw [howner] at h
    cases h
  decl id h := by
    rw [hdecl] at h
    cases h
  typeAlias name target h := absurd h (halias name target)

theorem Registration.Fits.of_owner {o : Outline} {nodes : List NodeId} {owners : List String}
    {r : Registration} {owner : String} (howner : r.owner? = some owner) (h : owner ∈ owners)
    (hdecl : ∀ id ∈ r.decl?, id ∈ nodes) : r.Fits o nodes owners where
  owner owner' h' := by
    rw [howner] at h'
    cases h'
    exact h
  decl := hdecl
  typeAlias name target hr := by
    rw [hr] at howner
    cases howner

theorem Registration.Fits.aggregate {o : Outline} {nodes : List NodeId} {owners : List String}
    {a : AggregateSymbol} (hname : a.name ∈ owners) (hdecl : a.decl ∈ nodes) :
    (Registration.aggregate a).Fits o nodes owners :=
  .of_owner rfl hname fun id h => by
    cases h
    exact hdecl

theorem Registration.Fits.function {o : Outline} {nodes : List NodeId} {owners : List String}
    {f : FunctionSymbol} (h : f.decl ∈ nodes) : (Registration.function f).Fits o nodes owners where
  owner _ h' := by cases h'
  decl id h' := by
    cases h'
    exact h
  typeAlias _ _ hr := by cases hr

theorem Registration.Fits.alias {o : Outline} {nodes : List NodeId} {owners : List String} {name : String}
    (h : name ∈ o.aliases) (entry : AliasEntry) : (Registration.alias name entry).Fits o nodes owners where
  owner _ h' := by cases h'
  decl _ h' := by cases h'
  typeAlias name' target hr := by
    cases hr
    exact h

/-- What a run that enters registrations leaves behind.  Some of the given nodes are marked. -/
structure Context.Entered (c : Context) (ids : List NodeId) (l : List Registration) (c' : Context) :
    Prop where
  writes : ∀ slot, writeAll l slot (c.symbols.entry slot) = some (c'.symbols.entry slot)
  same : c' = { c with symbols := c'.symbols, states := c'.states }
  states : ∀ id ∉ ids, c'.stateOf id = c.stateOf id

namespace Context.Entered

variable {c c₁ c' : Context} {ids ids' : List NodeId} {l l' : List Registration}

theorem nil (c : Context) (ids : List NodeId) : c.Entered ids [] c := ⟨fun _ => rfl, rfl, fun _ _ => rfl⟩

theorem append (h : c.Entered ids l c₁) (h' : c₁.Entered ids' l' c') :
    c.Entered (ids ++ ids') (l ++ l') c' where
  writes slot := by
    rw [writeAll_append, h.writes, Option.bind_some, h'.writes]
  same := by
    rw [h'.same, h.same]
  states id hid := by
    rw [List.mem_append, not_or] at hid
    rw [h'.states id hid.2, h.states id hid.1]

/-- The context still belongs to the unit. -/
theorem keeps {o : Outline} {nodes : List NodeId} {owners : List String} (h : c.Entered ids l c')
    (hc : o.Matches c) (howners : ∀ owner ∈ owners, owner ∈ o.aggregates)
    (hfits : ∀ r ∈ l, r.Fits o nodes owners) : o.Matches c' where
  tree := (congrArg Context.tree h.same).trans hc.tree
  subst := (congrArg Context.subst h.same).trans hc.subst
  space := (congrArg Context.space h.same).trans hc.space
  function := (congrArg Context.function h.same).trans hc.function
  declared name := by
    have hkept : c.symbols.declaredAggregates.get? name = c'.symbols.declaredAggregates.get? name := by
      refine writeAll_induction (P := fun v => c.symbols.declaredAggregates.get? name = v)
        (fun r _ v v' hv hwrite => ?_) rfl (h.writes (.declared name))
      have hsame : r.write (.declared name) v = some v := by cases r <;> rfl
      rw [hsame] at hwrite
      cases hwrite
      exact hv
    rw [← hkept]
    exact hc.declared name
  aggregates name := by
    refine writeAll_induction (P := fun v => Option.isSome v = true → name ∈ o.aggregates)
      (fun r hr v v' hv hwrite => ?_) (hc.aggregates name) (h.writes (.aggregate name))
    by_cases hname : r.owner? = some name
    · exact fun _ => howners name ((hfits r hr).owner name hname)
    · rw [Registration.write_of_owner rfl hname] at hwrite
      cases hwrite
      exact hv
  aliases name := by
    refine writeAll_induction (P := fun v => ∀ target, v = some (.type target) → name ∈ o.aliases)
      (fun r hr v v' hv hwrite => ?_) (hc.aliases name) (h.writes (.alias name))
    cases r with
    | «alias» name' entry =>
      change Registration.claim (name' == name) entry v = some v' at hwrite
      unfold Registration.claim at hwrite
      split_ifs at hwrite with hname
      · cases hwrite
        rintro target ⟨⟩
        rw [← eq_of_beq hname]
        exact (hfits _ hr).typeAlias name' target rfl
      · cases hwrite
        exact hv
    | _ =>
      cases hwrite
      exact hv

end Context.Entered

/-- What the check of a declaration gives and enters wherever the unit is known and `ids` have not been looked
at: nothing where it fails everywhere. -/
structure RecordsAs (o : Outline) (p : Performer) (nodes : List NodeId) (owners : List String)
    (ids : List NodeId) {α : Type} (x : CompileM α) (outcome : Option (α × List Registration)) : Prop where
  fits : ∀ a l, outcome = some (a, l) → ∀ r ∈ l, r.Fits o nodes owners
  entered : ∀ c, o.Matches c → (∀ id ∈ ids, c.stateOf id = .unchecked) → ∀ a c', x p c = .ok a c' →
    ∃ l, outcome = some (a, l) ∧ c.Entered ids l c'
  succeeds : ∀ c, o.Matches c → (∀ id ∈ ids, c.stateOf id = .unchecked) → ∀ a l, outcome = some (a, l) →
    (∀ slot, (writeAll l slot (c.symbols.entry slot)).isSome = true) → ∃ c', x p c = .ok a c'

def Records (o : Outline) (p : Performer) (nodes : List NodeId) (owners : List String) (ids : List NodeId)
    {α : Type} (x : CompileM α) : Prop :=
  ∃ outcome, RecordsAs o p nodes owners ids x outcome

/-- The action, refused where something is found. -/
def CompileM.unlessFound {α β : Type} (t : Context → Option β) (x : CompileM α) : CompileM α :=
  fun p c => if (t c).isSome then .error .missingNode c else x p c

theorem CompileM.unlessFound_eq_ok {α β : Type} {t : Context → Option β} {x : CompileM α} {p : Performer}
    {c c' : Context} {a : α} :
    CompileM.unlessFound t x p c = .ok a c' ↔ t c = none ∧ x p c = .ok a c' := by
  unfold CompileM.unlessFound
  cases t c <;> simp

namespace Records

variable {o : Outline} {p : Performer} {nodes : List NodeId} {owners : List String} {ids ids' : List NodeId}
  {α β : Type} {x y : CompileM α} {f : α → CompileM β}

theorem of_ne_ok (h : ∀ c, o.Matches c → (∀ id ∈ ids, c.stateOf id = .unchecked) →
    ∀ a c', x p c ≠ .ok a c') : Records o p nodes owners ids x := by
  refine ⟨none, fun _ _ h => ?_, fun c hc hids a c' hrun => absurd hrun (h c hc hids a c'),
    fun _ _ _ _ _ h => ?_⟩ <;>
  cases h

theorem bail (location : Location) (problem : Problem) :
    Records o p nodes owners ids (CompileM.bail location problem : CompileM α) :=
  of_ne_ok fun _ _ _ _ _ => CompileM.bail_ne_ok _ _

/-- An action behind a check that fails in all contexts or in none. -/
theorem guard {q : Prop} [Decidable q] {location : Location} {problem : Problem}
    (h : Records o p nodes owners ids x) : Records o p nodes owners ids (do
      if q then CompileM.bail location problem
      x) := by
  split
  · exact of_ne_ok fun _ _ _ _ _ hrun => by cases hrun
  · exact h

theorem congr (hy : Records o p nodes owners ids y)
    (h : ∀ c, o.Matches c → ∀ a c', x p c = .ok a c' ↔ y p c = .ok a c') :
    Records o p nodes owners ids x := by
  obtain ⟨outcome, hy⟩ := hy
  refine ⟨outcome, hy.fits, fun c hc hids a c' hrun => hy.entered c hc hids a c' ((h c hc a c').mp hrun),
    fun c hc hids a l houtcome hwrites => ?_⟩
  obtain ⟨c', hrun⟩ := hy.succeeds c hc hids a l houtcome hwrites
  exact ⟨c', (h c hc a c').mpr hrun⟩

/-- An action that enters a list of registrations, or fails where one of them is refused. -/
theorem of_runs {a : α} {l : List Registration} (hfits : ∀ r ∈ l, r.Fits o nodes owners)
    (h : ∀ c, o.Matches c →
      (∃ s, x p c = .ok a { c with symbols := s } ∧
        ∀ slot, writeAll l slot (c.symbols.entry slot) = some (s.entry slot)) ∨
      ((∀ a c', x p c ≠ .ok a c') ∧ ∃ slot, writeAll l slot (c.symbols.entry slot) = none)) :
    Records o p nodes owners ids x := by
  refine ⟨some (a, l), ?_, fun c hc _ b c' hrun => ?_, ?_⟩
  · rintro _ _ ⟨⟩
    exact hfits
  · obtain ⟨s, hok, hwrites⟩ | ⟨hfails, -⟩ := h c hc
    · rw [hok] at hrun
      cases hrun
      exact ⟨l, rfl, hwrites, rfl, fun _ _ => rfl⟩
    · exact absurd hrun (hfails b c')
  · rintro c hc - _ _ ⟨⟩ hwrites
    obtain ⟨s, hok, -⟩ | ⟨-, slot, hnone⟩ := h c hc
    · exact ⟨_, hok⟩
    · have hsome := hwrites slot
      rw [hnone] at hsome
      cases hsome

theorem pure (a : α) : Records o p nodes owners ids (Pure.pure a) :=
  of_runs (fun _ h => absurd h List.not_mem_nil) fun c _ => .inl ⟨c.symbols, rfl, fun _ => rfl⟩

/-- What is read is the same in all contexts of the unit. -/
theorem read {g : CompileM β} {f : β → CompileM α} (hg : Reads o.Alike p g)
    (h : ∀ b, (∃ c, g p c = .ok b c) → Records o p nodes owners ids (f b)) :
    Records o p nodes owners ids (g >>= f) := by
  by_cases hread : ∃ c₀ b, o.Matches c₀ ∧ g p c₀ = .ok b c₀
  · obtain ⟨c₀, b, hc₀, hrun⟩ := hread
    refine (h b ⟨c₀, hrun⟩).congr fun c hc a c' => ?_
    rw [CompileM.bind_of_eq_ok (hg c₀ c b c₀ ⟨hc₀, hc⟩ hrun).2]
  · refine of_ne_ok fun c hc _ a c' hrun => hread ?_
    obtain ⟨b, c₁, hrun₁, -⟩ := CompileM.bind_eq_ok.mp hrun
    obtain ⟨rfl, -⟩ := hg c c b c₁ ⟨hc, hc⟩ hrun₁
    exact ⟨_, b, hc, hrun₁⟩

theorem locate_kindOf {f : Location → NodeKind → CompileM α} {id : NodeId} {kind : NodeKind}
    (hkind : o.tree.HasKind id kind) (h : ∀ location, Records o p nodes owners ids (f location kind)) :
    Records o p nodes owners ids (do
      let location ← CompileM.locate id
      f location (← CompileM.kindOf id)) :=
  read (.locate id) fun location _ => (h location).congr fun c hc a c' => by
    rw [← hc.tree] at hkind
    rw [CompileM.bind_of_eq_ok (CompileM.kindOf_apply hkind)]

theorem get_bind {f : Context → CompileM α} {x : CompileM α} (hx : Records o p nodes owners ids x)
    (h : ∀ c, o.Matches c → f c = x) : Records o p nodes owners ids (get >>= f) := by
  refine hx.congr fun c hc a c' => ?_
  rw [CompileM.bind_of_eq_ok (CompileM.get_apply p c), h c hc]

/-- One list of registrations after another. -/
theorem bind (howners : ∀ owner ∈ owners, owner ∈ o.aggregates) (hx : Records o p nodes owners ids x)
    (hf : ∀ a, Records o p nodes owners ids' (f a)) (hids : ∀ id ∈ ids, id ∉ ids') :
    Records o p nodes owners (ids ++ ids') (x >>= f) := by
  have hfresh {c : Context} (h : ∀ id ∈ ids ++ ids', c.stateOf id = .unchecked) :
      (∀ id ∈ ids, c.stateOf id = .unchecked) ∧ ∀ id ∈ ids', c.stateOf id = .unchecked :=
    ⟨fun id hid => h id (List.mem_append_left _ hid), fun id hid => h id (List.mem_append_right _ hid)⟩
  have hstays {c c₁ : Context} {l : List Registration} (h : c.Entered ids l c₁)
      (hc : ∀ id ∈ ids', c.stateOf id = .unchecked) : ∀ id ∈ ids', c₁.stateOf id = .unchecked :=
    fun id hid => (h.states id fun hid' => hids id hid' hid).trans (hc id hid)
  obtain ⟨_ | ⟨a, l⟩, hx⟩ := hx
  · refine of_ne_ok fun c hc hcfresh b c' hrun => ?_
    obtain ⟨a, c₁, hrun₁, -⟩ := CompileM.bind_eq_ok.mp hrun
    obtain ⟨l, hnone, -⟩ := hx.entered c hc (hfresh hcfresh).1 a c₁ hrun₁
    cases hnone
  obtain ⟨outcome, hf⟩ := hf a
  refine ⟨outcome.map fun (b, l') => (b, l ++ l'), fun b l' houtcome r hr => ?_,
    fun c hc hcfresh b c' hrun => ?_, fun c hc hcfresh b l' houtcome hwrites => ?_⟩
  · obtain ⟨⟨b', l''⟩, hb, heq⟩ := Option.map_eq_some_iff.mp houtcome
    cases heq
    exact (List.mem_append.mp hr).elim (hx.fits a l rfl r) (hf.fits _ _ hb r)
  · obtain ⟨a', c₁, hrun₁, hrun₂⟩ := CompileM.bind_eq_ok.mp hrun
    obtain ⟨l₁, heq, hentered⟩ := hx.entered c hc (hfresh hcfresh).1 a' c₁ hrun₁
    cases heq
    have hc₁ := hentered.keeps hc howners (hx.fits a l rfl)
    obtain ⟨l', rfl, hentered'⟩ := hf.entered c₁ hc₁ (hstays hentered (hfresh hcfresh).2) b c' hrun₂
    exact ⟨l ++ l', rfl, hentered.append hentered'⟩
  · obtain ⟨⟨b', l''⟩, hb, heq⟩ := Option.map_eq_some_iff.mp houtcome
    cases heq
    have hfirst (slot : TableSlot) : (writeAll l slot (c.symbols.entry slot)).isSome = true := by
      have h := hwrites slot
      rw [writeAll_append] at h
      exact Option.isSome_of_isSome_bind h
    obtain ⟨c₁, hrun₁⟩ := hx.succeeds c hc (hfresh hcfresh).1 a l rfl hfirst
    obtain ⟨l₁, heq, hentered⟩ := hx.entered c hc (hfresh hcfresh).1 a c₁ hrun₁
    cases heq
    have hc₁ := hentered.keeps hc howners (hx.fits a l rfl)
    obtain ⟨c', hrun₂⟩ := hf.succeeds c₁ hc₁ (hstays hentered (hfresh hcfresh).2) _ _ hb fun slot => by
      have h := hwrites slot
      rwa [writeAll_append, hentered.writes, Option.bind_some] at h
    exact ⟨c', CompileM.bind_eq_ok.mpr ⟨a, c₁, hrun₁, hrun₂⟩⟩

/-- A list of registrations that gives a value. -/
theorem map (hx : Records o p nodes owners ids x) (g : α → β) :
    Records o p nodes owners ids (g <$> x) := by
  obtain ⟨outcome, hx⟩ := hx
  refine ⟨outcome.map fun (a, l) => (g a, l), fun b l houtcome => ?_, fun c hc hids b c' hrun => ?_,
    fun c hc hids b l houtcome hwrites => ?_⟩
  · obtain ⟨⟨a, l⟩, ha, heq⟩ := Option.map_eq_some_iff.mp houtcome
    cases heq
    exact hx.fits a _ ha
  · obtain ⟨a, hrun', rfl⟩ := CompileM.map_eq_ok.mp hrun
    obtain ⟨l, rfl, hentered⟩ := hx.entered c hc hids a c' hrun'
    exact ⟨l, rfl, hentered⟩
  · obtain ⟨⟨a, l⟩, ha, heq⟩ := Option.map_eq_some_iff.mp houtcome
    cases heq
    obtain ⟨c', hrun⟩ := hx.succeeds c hc hids a _ ha hwrites
    exact ⟨c', CompileM.map_eq_ok.mpr ⟨a, hrun, rfl⟩⟩

theorem bind_pure (hx : Records o p nodes owners ids x) (g : α → β) :
    Records o p nodes owners ids (x >>= fun a => Pure.pure (g a)) := by
  rw [← map_eq_pure_bind]
  exact hx.map g

theorem weaken (hx : Records o p nodes owners ids x) (h : ∀ id ∈ ids, id ∈ ids') :
    Records o p nodes owners ids' x := by
  obtain ⟨outcome, hx⟩ := hx
  refine ⟨outcome, hx.fits, fun c hc hfresh a c' hrun => ?_, fun c hc hfresh =>
    hx.succeeds c hc fun id hid => hfresh id (h id hid)⟩
  obtain ⟨l, houtcome, hentered⟩ := hx.entered c hc (fun id hid => hfresh id (h id hid)) a c' hrun
  exact ⟨l, houtcome, hentered.writes, hentered.same, fun id hid =>
    hentered.states id fun hid' => hid (h id hid')⟩

/-- A declaration that has not been looked at is marked first. -/
theorem beginCheck_bind {f : Bool → CompileM α} {id : NodeId} (h : Records o p nodes owners ids (f true))
    (hid : id ∉ ids) : Records o p nodes owners (id :: ids) (CompileM.beginCheck id >>= f) := by
  obtain ⟨outcome, h⟩ := h
  have hmarks {c : Context} (hc : o.Matches c) (hfresh : ∀ id' ∈ id :: ids, c.stateOf id' = .unchecked) :
      (CompileM.beginCheck id >>= f) p c = f true p { c with states := c.states.insert id .checked } ∧
        o.Matches { c with states := c.states.insert id .checked } ∧
        ∀ id' ∈ ids,
          ({ c with states := c.states.insert id .checked } : Context).stateOf id' = .unchecked := by
    refine ⟨CompileM.bind_of_eq_ok (CompileM.beginCheck_apply (hfresh id List.mem_cons_self)),
      ⟨hc.tree, hc.subst, hc.space, hc.function, hc.declared, hc.aggregates, hc.aliases⟩, fun id' hid' => ?_⟩
    rw [Context.Later.stateOf_insert, if_neg (ne_of_mem_of_not_mem hid' hid).symm]
    exact hfresh id' (List.mem_cons_of_mem _ hid')
  refine ⟨outcome, h.fits, fun c hc hfresh a c' hrun => ?_, fun c hc hfresh a l houtcome hwrites => ?_⟩
  · obtain ⟨heq, hc₁, hfresh₁⟩ := hmarks hc hfresh
    rw [heq] at hrun
    obtain ⟨l, rfl, hentered⟩ := h.entered _ hc₁ hfresh₁ a c' hrun
    refine ⟨l, rfl, hentered.writes, hentered.same, fun id' hid' => ?_⟩
    rw [List.mem_cons, not_or] at hid'
    rw [hentered.states id' hid'.2, Context.Later.stateOf_insert, if_neg (Ne.symm hid'.1)]
  · obtain ⟨heq, hc₁, hfresh₁⟩ := hmarks hc hfresh
    rw [heq]
    exact h.succeeds _ hc₁ hfresh₁ a l houtcome hwrites

section Found

variable {γ : Type} {t : Context → Option γ}

/-- What is only read may be read after looking something up. -/
theorem unlessFound_read {g : CompileM β} {f : β → CompileM α} (hg : Reads o.Alike p g)
    (h : ∀ b, (∃ c, g p c = .ok b c) → Records o p nodes owners ids (CompileM.unlessFound t (f b))) :
    Records o p nodes owners ids (CompileM.unlessFound t (g >>= f)) := by
  refine (read hg h).congr fun c hc a c' => ?_
  rw [CompileM.bind_eq_ok, CompileM.unlessFound_eq_ok, CompileM.bind_eq_ok]
  constructor
  · rintro ⟨ht, b, c₁, hrun₁, hrun₂⟩
    obtain ⟨rfl, -⟩ := hg c c b c₁ ⟨hc, hc⟩ hrun₁
    exact ⟨b, _, hrun₁, CompileM.unlessFound_eq_ok.mpr ⟨ht, hrun₂⟩⟩
  · rintro ⟨b, c₁, hrun₁, hrun₂⟩
    obtain ⟨rfl, -⟩ := hg c c b c₁ ⟨hc, hc⟩ hrun₁
    obtain ⟨ht, hrun₂⟩ := CompileM.unlessFound_eq_ok.mp hrun₂
    exact ⟨ht, b, _, hrun₁, hrun₂⟩

theorem unlessFound_guard {P : Prop} [Decidable P] {location : Location} {problem : Problem}
    (h : Records o p nodes owners ids (CompileM.unlessFound t x)) :
    Records o p nodes owners ids (CompileM.unlessFound t do
      if P then CompileM.bail location problem
      x) := by
  split
  · exact of_ne_ok fun _ _ _ _ _ hrun => by cases (CompileM.unlessFound_eq_ok.mp hrun).2
  · exact h

theorem unlessFound_bind (h : Records o p nodes owners ids (CompileM.unlessFound t x >>= f)) :
    Records o p nodes owners ids (CompileM.unlessFound t (x >>= f)) := by
  refine h.congr fun c _ b c' => ?_
  rw [CompileM.unlessFound_eq_ok, CompileM.bind_eq_ok, CompileM.bind_eq_ok]
  simp only [CompileM.unlessFound_eq_ok, and_assoc, exists_and_left]

theorem unlessFound_get {f : Context → CompileM α}
    (hx : Records o p nodes owners ids (CompileM.unlessFound t x)) (h : ∀ c, o.Matches c → f c = x) :
    Records o p nodes owners ids (CompileM.unlessFound t (get >>= f)) := by
  refine hx.congr fun c hc a c' => ?_
  rw [CompileM.unlessFound_eq_ok, CompileM.unlessFound_eq_ok,
    CompileM.bind_of_eq_ok (CompileM.get_apply p c), h c hc]

/-- An action that looks something up and fails where it is found. -/
theorem lookup {f : Context → CompileM α} (t : Context → Option γ)
    (hx : Records o p nodes owners ids (CompileM.unlessFound t x))
    (hnone : ∀ c, o.Matches c → t c = none → f c = x)
    (hsome : ∀ c b, o.Matches c → t c = some b → ∀ a c', f c p c ≠ .ok a c') :
    Records o p nodes owners ids (get >>= f) := by
  refine hx.congr fun c hc a c' => ?_
  rw [CompileM.unlessFound_eq_ok, CompileM.bind_of_eq_ok (CompileM.get_apply p c)]
  cases ht : t c with
  | none => rw [hnone c hc ht, and_iff_right rfl]
  | some b => exact iff_of_false (hsome c b hc ht a c') fun h => by cases h.1

/-- A change of the tables that is made where the slot that it claims is free. -/
theorem claims {g : SymbolTables → SymbolTables} {r : Registration} (slot : TableSlot)
    (hfits : r.Fits o nodes owners)
    (hfree : ∀ c, t c = none → ∀ slot, r.write slot (c.symbols.entry slot) = some ((g c.symbols).entry slot))
    (htaken : ∀ c, (t c).isSome = true → r.write slot (c.symbols.entry slot) = none) :
    Records o p nodes owners ids (CompileM.unlessFound t (CompileM.modifySymbols g)) := by
  refine of_runs (a := ()) (l := [r]) (List.forall_mem_singleton.mpr hfits) fun c _ => ?_
  cases ht : t c with
  | none =>
    refine .inl ⟨g c.symbols, CompileM.unlessFound_eq_ok.mpr ⟨ht, rfl⟩, fun slot => ?_⟩
    rw [writeAll_cons, hfree c ht slot]
    rfl
  | some found =>
    refine .inr ⟨fun a c' hrun => ?_, slot, ?_⟩
    · rw [(CompileM.unlessFound_eq_ok.mp hrun).1] at ht
      cases ht
    · rw [writeAll_cons, htaken c (Option.isSome_of_eq_some ht)]
      rfl

end Found

theorem filterMapM {g : NodeId → CompileM (Option β)} {items : List NodeId}
    (howners : ∀ owner ∈ owners, owner ∈ o.aggregates) (hnodup : items.Nodup)
    (h : ∀ id ∈ items, Records o p nodes owners [id] (g id)) :
    Records o p nodes owners items (items.filterMapM g) := by
  induction items with
  | nil => exact pure _
  | cons item rest ih =>
    obtain ⟨hitem, hrest⟩ := List.forall_mem_cons.mp h
    obtain ⟨hnotMem, hnodup⟩ := List.nodup_cons.mp hnodup
    rw [List.filterMapM_cons]
    refine bind howners hitem (fun b => ?_) fun id hid => ?_
    · cases b with
      | none => exact ih hnodup hrest
      | some b => exact (ih hnodup hrest).bind_pure _
    · rwa [List.mem_singleton.mp hid]

end Records

/-! ### Many declarations -/

section Many

variable {o : Outline} {p : Performer} {nodes : NodeId → List NodeId} {owners : NodeId → List String}
  {g : NodeId → CompileM PUnit} {outcome : NodeId → Option (PUnit × List Registration)} {items : List NodeId}

/-- What a declaration enters, if it can be checked at all. -/
def blockOf (outcome : Option (PUnit × List Registration)) : List Registration := (outcome.map (·.2)).getD []

/-- Declarations with aggregates and nodes of their own, each of which enters its registrations. -/
structure RecordsEach (o : Outline) (p : Performer) (nodes : NodeId → List NodeId)
    (owners : NodeId → List String) (g : NodeId → CompileM PUnit)
    (outcome : NodeId → Option (PUnit × List Registration)) (items : List NodeId) : Prop where
  records : ∀ item ∈ items, RecordsAs o p (nodes item) (owners item) (nodes item) (g item) (outcome item)
  owners : ∀ item ∈ items, ∀ owner ∈ owners item, owner ∈ o.aggregates
  nodup : (items.flatMap nodes).Nodup

namespace RecordsEach

theorem tail {item : NodeId} (h : RecordsEach o p nodes owners g outcome (item :: items)) :
    RecordsEach o p nodes owners g outcome items where
  records item hitem := h.records item (List.mem_cons_of_mem _ hitem)
  owners item hitem := h.owners item (List.mem_cons_of_mem _ hitem)
  nodup := by
    have hnodup := h.nodup
    rw [List.flatMap_cons] at hnodup
    exact hnodup.of_append_right

theorem perm {items' : List NodeId} (h : RecordsEach o p nodes owners g outcome items)
    (hperm : items.Perm items') : RecordsEach o p nodes owners g outcome items' where
  records item hitem := h.records item (hperm.mem_iff.mpr hitem)
  owners item hitem := h.owners item (hperm.mem_iff.mpr hitem)
  nodup := (hperm.flatMap_right _).nodup_iff.mp h.nodup

/-- After the first declaration the others may still be checked. -/
theorem step {item : NodeId} (h : RecordsEach o p nodes owners g outcome (item :: items)) {c c₁ : Context}
    {l : List Registration} (hc : o.Matches c)
    (hfresh : ∀ id ∈ (item :: items).flatMap nodes, c.stateOf id = .unchecked)
    (hl : outcome item = some (⟨⟩, l)) (hentered : c.Entered (nodes item) l c₁) :
    o.Matches c₁ ∧ ∀ id ∈ items.flatMap nodes, c₁.stateOf id = .unchecked := by
  have hitem := h.records item List.mem_cons_self
  refine ⟨hentered.keeps hc (h.owners item List.mem_cons_self) (hitem.fits _ l hl), fun id hid => ?_⟩
  have hnodup := h.nodup
  rw [List.flatMap_cons] at hnodup hfresh
  have hapart : id ∉ nodes item := fun hid' => List.disjoint_of_nodup_append hnodup hid' hid
  rw [hentered.states id hapart]
  exact hfresh id (List.mem_append_right _ hid)

/-- A run enters the registrations of all declarations. -/
theorem entered (h : RecordsEach o p nodes owners g outcome items) {c c' : Context} (hc : o.Matches c)
    (hfresh : ∀ id ∈ items.flatMap nodes, c.stateOf id = .unchecked) (hrun : items.forM g p c = .ok ⟨⟩ c') :
    (∀ item ∈ items, (outcome item).isSome = true) ∧
      c.Entered (items.flatMap nodes) (items.flatMap fun item => blockOf (outcome item)) c' := by
  induction items generalizing c with
  | nil =>
    cases hrun
    exact ⟨fun _ h => absurd h List.not_mem_nil, .nil _ []⟩
  | cons item rest ih =>
    obtain ⟨⟨⟩, c₁, hrun₁, hrun⟩ := CompileM.bind_eq_ok.mp hrun
    obtain ⟨l, hl, hentered⟩ := (h.records item List.mem_cons_self).entered c hc
      (fun id hid => hfresh id (List.mem_append_left _ hid)) ⟨⟩ c₁ hrun₁
    obtain ⟨hc₁, hfresh₁⟩ := h.step hc hfresh hl hentered
    obtain ⟨hsome, hrest⟩ := ih h.tail hc₁ hfresh₁ hrun
    refine ⟨List.forall_mem_cons.mpr ⟨Option.isSome_of_eq_some hl, hsome⟩, ?_⟩
    rw [List.flatMap_cons, List.flatMap_cons, hl]
    exact hentered.append hrest

/-- The checks succeed where none of the registrations is refused. -/
theorem succeeds (h : RecordsEach o p nodes owners g outcome items) {c : Context} (hc : o.Matches c)
    (hfresh : ∀ id ∈ items.flatMap nodes, c.stateOf id = .unchecked)
    (hsome : ∀ item ∈ items, (outcome item).isSome = true)
    (hwrites : ∀ slot, (writeAll (items.flatMap fun item => blockOf (outcome item)) slot
      (c.symbols.entry slot)).isSome = true) : ∃ c', items.forM g p c = .ok ⟨⟩ c' := by
  induction items generalizing c with
  | nil => exact ⟨c, rfl⟩
  | cons item rest ih =>
    obtain ⟨hitem, hrest⟩ := List.forall_mem_cons.mp hsome
    obtain ⟨⟨⟨⟩, l⟩, hl⟩ := Option.isSome_iff_exists.mp hitem
    rw [List.flatMap_cons, hl] at hwrites
    have hrecords := h.records item List.mem_cons_self
    have hfirst : ∀ id ∈ nodes item, c.stateOf id = .unchecked :=
      fun id hid => hfresh id (List.mem_append_left _ hid)
    obtain ⟨c₁, hrun₁⟩ := hrecords.succeeds c hc hfirst _ l hl fun slot => by
      have hslot := hwrites slot
      rw [writeAll_append] at hslot
      exact Option.isSome_of_isSome_bind hslot
    obtain ⟨l', hl', hentered⟩ := hrecords.entered c hc hfirst _ c₁ hrun₁
    cases hl.symm.trans hl'
    obtain ⟨hc₁, hfresh₁⟩ := h.step hc hfresh hl hentered
    obtain ⟨c', hrun⟩ := ih h.tail hc₁ hfresh₁ hrest fun slot => by
      have hslot := hwrites slot
      have hblock : blockOf (some (⟨⟩, l)) = l := rfl
      rwa [writeAll_append, hblock, hentered.writes, Option.bind_some] at hslot
    exact ⟨c', CompileM.bind_eq_ok.mpr ⟨_, c₁, hrun₁, hrun⟩⟩

/-- A registration is the declaration's own. -/
theorem fits (h : RecordsEach o p nodes owners g outcome items) {item : NodeId} (hitem : item ∈ items)
    {r : Registration} (hr : r ∈ blockOf (outcome item)) : r.Fits o (nodes item) (owners item) := by
  cases houtcome : outcome item with
  | none =>
    rw [houtcome] at hr
    cases hr
  | some entered =>
    rw [houtcome] at hr
    exact (h.records item hitem).fits _ _ houtcome r hr

end RecordsEach
end Many

end UnitCompiler
