import Mathlib.Data.List.Nodup
import UnitCompiler.Proofs.Machine.Storage

/-!
# Variables of a program in memory

Booting gives each variable a range of addresses of its own and stores its initial value there.
-/

namespace UnitCompiler
namespace Machine

/-- The address of a name, of several the last one. -/
def addressOf (addresses : List (String × Nat)) (name : String) : Option Nat :=
  (addresses.reverse.find? (·.1 == name)).map (·.2)

theorem addressOf_of_mem {addresses : List (String × Nat)} (hnodup : (addresses.map (·.1)).Nodup)
    {name : String} {a : Nat} (h : (name, a) ∈ addresses) : addressOf addresses name = some a := by
  have hfound : (addresses.reverse.find? (·.1 == name)).isSome :=
    List.find?_isSome.mpr ⟨(name, a), List.mem_reverse.mpr h, by simp⟩
  obtain ⟨q, hq⟩ := Option.isSome_iff_exists.mp hfound
  have hname : q.1 = name := by simpa using List.find?_some hq
  have hmem : q ∈ addresses := List.mem_reverse.mp (List.mem_of_find?_eq_some hq)
  have hsame : q = (name, a) := List.inj_on_of_nodup_map hnodup hmem h hname
  rw [addressOf, hq, hsame]
  rfl

/-- What allocation gives the variables: ranges behind the memory `m`, inside of `m'`, and apart from
each other. -/
structure Allocated (vars : List GlobalVariable) (m : Memory) (addresses : List (String × Nat))
    (m' : Memory) : Prop where
  grows : Grows m m'
  names : addresses.map (·.1) = vars.map (·.name)
  bounds : ∀ v ∈ vars, ∃ a, (v.name, a) ∈ addresses ∧ m.size ≤ a ∧
    a + layout.sizeOf v.type ≤ m'.size
  apart : (vars.map (·.name)).Nodup → ∀ v ∈ vars, ∀ w ∈ vars, v.name ≠ w.name →
    ∀ a b, (v.name, a) ∈ addresses → (w.name, b) ∈ addresses →
      Apart a (layout.sizeOf v.type) b (layout.sizeOf w.type)

/-- A variable before others that have been allocated behind it. -/
theorem Allocated.cons {v : GlobalVariable} {rest : List GlobalVariable} {m m₁ m' : Memory} {a : Nat}
    {addresses : List (String × Nat)} (hgrows : Grows m m₁) (ha : m.size ≤ a)
    (hstop : a + layout.sizeOf v.type ≤ m₁.size) (h : Allocated rest m₁ addresses m') :
    Allocated (v :: rest) m ((v.name, a) :: addresses) m' where
  grows := hgrows.trans h.grows
  names := by rw [List.map_cons, List.map_cons, h.names]
  bounds w hw := by
    rcases List.mem_cons.mp hw with rfl | hw
    · exact ⟨a, List.mem_cons_self, ha, hstop.trans h.grows.size⟩
    · obtain ⟨b, hmem, hb, hb'⟩ := h.bounds w hw
      exact ⟨b, List.mem_cons_of_mem _ hmem, hgrows.size.trans hb, hb'⟩
  apart hnodup := by
    rw [List.map_cons, List.nodup_cons, ← h.names] at hnodup
    obtain ⟨hnew, hnodup⟩ := hnodup
    -- the first variable ends where the memory of the others begins
    have hfirst (w : GlobalVariable) (hw : w ∈ rest) (b : Nat) (hb : (w.name, b) ∈ addresses) :
        a + layout.sizeOf v.type ≤ b := by
      obtain ⟨b', hb', hle, -⟩ := h.bounds w hw
      have hsame := List.inj_on_of_nodup_map hnodup hb hb' rfl
      cases hsame
      exact hstop.trans hle
    have hhead (b : Nat) (hb : (v.name, b) ∈ (v.name, a) :: addresses) : b = a := by
      rcases List.mem_cons.mp hb with hb | hb
      · cases hb
        rfl
      · exact absurd (List.mem_map_of_mem (f := (·.1)) hb) hnew
    have htail (w : GlobalVariable) (hne : w.name ≠ v.name) (b : Nat)
        (hb : (w.name, b) ∈ (v.name, a) :: addresses) : (w.name, b) ∈ addresses := by
      rcases List.mem_cons.mp hb with hb | hb
      · exact absurd (congrArg Prod.fst hb) hne
      · exact hb
    intro x hx y hy hne b c hb hc
    rcases List.mem_cons.mp hx with rfl | hxrest
    · rcases List.mem_cons.mp hy with rfl | hyrest
      · exact absurd rfl hne
      · rw [hhead b hb]
        exact Or.inl (hfirst y hyrest c (htail y hne.symm c hc))
    rcases List.mem_cons.mp hy with rfl | hyrest
    · rw [hhead c hc]
      exact Or.inr (hfirst x hxrest b (htail x hne b hb))
    · have hnames (z : GlobalVariable) (hz : z ∈ rest) : z.name ≠ v.name := by
        intro heq
        refine hnew ?_
        rw [h.names, ← heq]
        exact List.mem_map_of_mem hz
      exact h.apart (h.names ▸ hnodup) x hxrest y hyrest hne b c (htail x (hnames x hxrest) b hb)
        (htail y (hnames y hyrest) c hc)

/-- The first variable is given its place before the others. -/
theorem allocateGlobals_cons {v : GlobalVariable} {rest : List GlobalVariable} {m m' : Memory}
    {addresses : List (String × Nat)} (h : allocateGlobals (v :: rest) m = .ok addresses m') :
    ∃ a m₁ more, Memory.allocate (layout.sizeOf v.type) (layout.alignOf v.type) m = .ok a m₁ ∧
      allocateGlobals rest m₁ = .ok more m' ∧ addresses = (v.name, a) :: more := by
  unfold allocateGlobals at h
  simp only [bind, EStateM.bind] at h
  cases halloc : Memory.allocate (layout.sizeOf v.type) (layout.alignOf v.type) m with
  | error e m₁ =>
    rw [halloc] at h
    cases h
  | ok a m₁ =>
    rw [halloc] at h
    simp only at h
    cases hrest : allocateGlobals rest m₁ with
    | error e m₂ =>
      rw [hrest] at h
      cases h
    | ok more m₂ =>
      rw [hrest] at h
      cases h
      exact ⟨a, m₁, more, rfl, hrest, rfl⟩

theorem allocateGlobals_spec {vars : List GlobalVariable} {m m' : Memory}
    {addresses : List (String × Nat)} (h : allocateGlobals vars m = .ok addresses m') :
    Allocated vars m addresses m' := by
  induction vars generalizing m m' addresses with
  | nil =>
    cases h
    exact ⟨.refl _, rfl, by simp, by simp⟩
  | cons v rest ih =>
    obtain ⟨a, m₁, more, halloc, hrest, rfl⟩ := allocateGlobals_cons h
    rcases allocate_cases (layout.sizeOf v.type) (layout.alignOf v.type) m with
      herror | ⟨herror, -⟩ | ⟨a', m₁', hok, hgrows, ha, hstop⟩
    · cases herror.symm.trans halloc
    · cases herror.symm.trans halloc
    · cases hok.symm.trans halloc
      exact (ih hrest).cons hgrows ha hstop

/-- Where a variable's initial value is stored. -/
def initialAddress (addresses : List (String × Nat)) (v : GlobalVariable) : Nat :=
  (addressOf addresses v.name).getD 0

/-- The variable starts with a value of its type. -/
structure Begins (v : GlobalVariable) (w : Value) : Prop where
  value : initialValue v = .ok w
  admits : v.type.Admits w

/-- The variable is an integer that starts with the value. -/
structure StartsWith (v : GlobalVariable) (x : IntValue) : Prop where
  wellFormed : x.WellFormed
  type : v.type = x.kind.machineType
  value : initialValue v = .ok x.word

theorem StartsWith.begins {v : GlobalVariable} {x : IntValue} (h : StartsWith v x) : Begins v x.word := by
  refine ⟨h.value, ?_⟩
  rw [h.type]
  obtain ⟨kind, value⟩ := x
  have hlt := Word.ofInt_lt kind.bits value
  have hk := h.wellFormed.1
  cases kind <;> first | exact ⟨_, rfl, hlt⟩ | cases hk

/-- The initial values of variables whose ranges are apart are in memory, and nothing else changes. -/
theorem initGlobals_spec {addresses : List (String × Nat)} {vars : List GlobalVariable}
    {m m' : Memory} (hvalues : ∀ v ∈ vars, ∃ w, Begins v w)
    (hbounds : ∀ v ∈ vars, memoryBase ≤ initialAddress addresses v ∧
      initialAddress addresses v + layout.sizeOf v.type ≤ m.size)
    (hapart : vars.Pairwise fun v w => Apart (initialAddress addresses v) (layout.sizeOf v.type)
      (initialAddress addresses w) (layout.sizeOf w.type))
    (h : initGlobals addresses vars m = .ok () m') :
    m'.size = m.size ∧
      (∀ v ∈ vars, ∀ w, initialValue v = .ok w →
        m'.load (initialAddress addresses v) v.type = .ok w) ∧
      ∀ i, (∀ v ∈ vars, i < initialAddress addresses v ∨
        initialAddress addresses v + layout.sizeOf v.type ≤ i) → m'.bytes[i]? = m.bytes[i]? := by
  induction vars generalizing m with
  | nil =>
    cases h
    exact ⟨rfl, by simp, fun _ _ => rfl⟩
  | cons v rest ih =>
    obtain ⟨w, hw⟩ := hvalues v List.mem_cons_self
    obtain ⟨hfirst, hrest⟩ := List.pairwise_cons.mp hapart
    have hbound := hbounds v List.mem_cons_self
    have hsize : layout.sizeOf v.type < maxU64 :=
      (Nat.le_add_left _ _).trans_lt (hbound.2.trans_lt m.size_lt_maxU64)
    obtain ⟨m₁, hstore, hrewrites, hload⟩ := Memory.keeps v.type hw.admits m hsize hbound
    unfold initGlobals at h
    rw [hw.value] at h
    simp only [bind, EStateM.bind] at h
    have haddress : ((addresses.reverse.find? (·.1 == v.name)).map (·.2)).getD 0 =
        initialAddress addresses v := rfl
    rw [haddress, hstore] at h
    obtain ⟨hsize', hloads, hbytes⟩ := ih (fun w hw => hvalues w (List.mem_cons_of_mem _ hw))
      (fun w hw => hrewrites.size ▸ hbounds w (List.mem_cons_of_mem _ hw))
      hrest h
    refine ⟨hsize'.trans hrewrites.size, fun u hu y hy => ?_, fun i hi => ?_⟩
    · rcases List.mem_cons.mp hu with rfl | hu
      · -- the values behind it do not reach the first one
        cases hw.value.symm.trans hy
        rw [← hload]
        refine Memory.load_congr u.type hsize (fun i hlo hhi => hbytes i fun z hz => ?_)
          (hrewrites.size ▸ hbound.2) (hsize' ▸ hrewrites.size ▸ hbound.2)
        rcases hfirst z hz with hz' | hz'
        · exact Or.inl (lt_of_lt_of_le hhi hz')
        · exact Or.inr (hz'.trans hlo)
      · exact hloads u hu y hy
    · rw [hbytes i fun w hw => hi w (List.mem_cons_of_mem _ hw)]
      exact hrewrites.bytes i (hi v List.mem_cons_self)

/-- A program in memory: every variable is at an address of its own and has its initial value. -/
structure Booted (vars : List GlobalVariable) (i : Image) (m : Memory) : Prop where
  base : memoryBase ≤ m.size
  found : ∀ v ∈ vars, ∃ a, i.globalAddress? v.name = some a ∧ memoryBase ≤ a ∧
    a + layout.sizeOf v.type ≤ m.size ∧ ∀ w, initialValue v = .ok w → m.load a v.type = .ok w
  apart : ∀ v ∈ vars, ∀ w ∈ vars, v.name ≠ w.name → ∀ a b, i.globalAddress? v.name = some a →
    i.globalAddress? w.name = some b → Apart a (layout.sizeOf v.type) b (layout.sizeOf w.type)

theorem Booted.holds {vars : List GlobalVariable} {i : Image} {m : Memory} (h : Booted vars i m)
    {v : GlobalVariable} (hv : v ∈ vars) {x : IntValue} (hx : StartsWith v x) :
    ∃ a, i.globalAddress? v.name = some a ∧ Holds m a x := by
  obtain ⟨a, ha, -, -, hload⟩ := h.found v hv
  refine ⟨a, ha, hx.wellFormed, ?_⟩
  rw [← hx.type]
  exact hload _ hx.value

theorem global?_of_mem {program : Program} (hnodup : (program.globals.map (·.name)).Nodup)
    {g : GlobalVariable} (hg : g ∈ program.globals) : program.global? g.name = some g := by
  have hfound : (program.global? g.name).isSome := List.find?_isSome.mpr ⟨g, hg, by simp⟩
  obtain ⟨other, hother⟩ := Option.isSome_iff_exists.mp hfound
  have hname : other.name = g.name := by simpa using List.find?_some hother
  have hsame := List.inj_on_of_nodup_map hnodup (List.mem_of_find?_eq_some hother) hg hname
  rw [hother, hsame]

/-- Booting allocates the variables and stores their initial values. -/
theorem boot_cases {program : Program} {session : Session} (h : boot program = .ok session) :
    ∃ addresses m m', allocateGlobals program.globals Memory.initial = .ok addresses m ∧
      initGlobals addresses program.globals m = .ok () m' ∧
      session = ⟨⟨program, addresses.reverse⟩, { memory := m' }⟩ := by
  unfold boot at h
  simp only [bind, EStateM.bind] at h
  cases halloc : allocateGlobals program.globals Memory.initial with
  | error e m =>
    rw [halloc] at h
    cases h
  | ok addresses m =>
    rw [halloc] at h
    simp only at h
    cases hinit : initGlobals addresses program.globals m with
    | error e m' =>
      rw [hinit] at h
      cases h
    | ok _ m' =>
      rw [hinit] at h
      cases h
      exact ⟨addresses, m, m', rfl, hinit, rfl⟩

theorem boot_spec {program : Program} {session : Session}
    (hvalues : ∀ v ∈ program.globals, ∃ w, Begins v w)
    (hnodup : (program.globals.map (·.name)).Nodup) (h : boot program = .ok session) :
    session.image.program = program ∧ Booted program.globals session.image session.state.memory := by
  obtain ⟨addresses, m, m', halloc, hinit, rfl⟩ := boot_cases h
  have hallocated := allocateGlobals_spec halloc
  have hnodup' : (addresses.map (·.1)).Nodup := hallocated.names ▸ hnodup
  have hbase : memoryBase ≤ m.size :=
    le_trans (by simp [Memory.initial, Memory.size]) hallocated.grows.size
  have hplace (v : GlobalVariable) (hv : v ∈ program.globals) : ∃ a,
      (v.name, a) ∈ addresses ∧ addressOf addresses v.name = some a ∧
        initialAddress addresses v = a ∧ memoryBase ≤ a ∧ a + layout.sizeOf v.type ≤ m.size := by
    obtain ⟨a, hmem, hle, hstop⟩ := hallocated.bounds v hv
    have haddress := addressOf_of_mem hnodup' hmem
    refine ⟨a, hmem, haddress, by rw [initialAddress, haddress]; rfl, ?_, hstop⟩
    exact le_trans (by simp [Memory.initial, Memory.size]) hle
  have hapart (v : GlobalVariable) (hv : v ∈ program.globals) (w : GlobalVariable)
      (hw : w ∈ program.globals) (hne : v.name ≠ w.name) :
      Apart (initialAddress addresses v) (layout.sizeOf v.type) (initialAddress addresses w)
        (layout.sizeOf w.type) := by
    obtain ⟨a, hmem, -, ha, -⟩ := hplace v hv
    obtain ⟨b, hmem', -, hb, -⟩ := hplace w hw
    rw [ha, hb]
    exact hallocated.apart hnodup v hv w hw hne a b hmem hmem'
  have hpairwise : program.globals.Pairwise fun v w =>
      Apart (initialAddress addresses v) (layout.sizeOf v.type) (initialAddress addresses w)
        (layout.sizeOf w.type) :=
    (List.pairwise_map.mp hnodup).imp_of_mem fun hv hw hne => hapart _ hv _ hw hne
  obtain ⟨hsize, hloads, -⟩ := initGlobals_spec hvalues
    (fun v hv => by
      obtain ⟨a, -, -, ha, hle, hstop⟩ := hplace v hv
      exact ha ▸ ⟨hle, hstop⟩) hpairwise hinit
  refine ⟨rfl, hsize ▸ hbase, fun v hv => ?_, fun v hv w hw hne a b ha hb => ?_⟩
  · obtain ⟨a, -, haddress, ha, hle, hstop⟩ := hplace v hv
    refine ⟨a, haddress, hle, hsize ▸ hstop, fun w hw => ?_⟩
    exact ha ▸ hloads v hv w hw
  · obtain ⟨a', -, haddress, ha', -⟩ := hplace v hv
    obtain ⟨b', -, haddress', hb', -⟩ := hplace w hw
    cases haddress.symm.trans ha
    cases haddress'.symm.trans hb
    rw [← ha', ← hb']
    exact hapart v hv w hw hne

end Machine
end UnitCompiler
