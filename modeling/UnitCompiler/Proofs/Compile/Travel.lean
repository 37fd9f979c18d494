import Mathlib
import UnitCompiler.Compile.Passing
import UnitCompiler.Proofs.Machine.StraightLine
import UnitCompiler.Proofs.Types.Layout

/-!
# Aggregates on their way

What an aggregate travels as, and what its sender and its receiver do: the one takes the value apart into
a register or a copy, the other puts it together again in memory of its own.
-/

namespace UnitCompiler

attribute [local instance (high)] instPowNat

open Machine

/-! ### Types that differ in what pointers point to -/

mutual

/-- Machine types that are the same but for what pointers point to. -/
inductive IrType.Alike : IrType → IrType → Prop
  | refl (type : IrType) : Alike type type
  | ptr (target target' : IrType) : Alike (.ptr target) (.ptr target')
  | array {element element' : IrType} (length : Nat) :
    Alike element element' → Alike (.array element length) (.array element' length)
  | struct {fields fields' : List IrType} (isPacked : Bool) (name : Option String) :
    AllAlike fields fields' → Alike (.struct fields isPacked name) (.struct fields' isPacked name)

inductive IrType.AllAlike : List IrType → List IrType → Prop
  | nil : AllAlike [] []
  | cons {type type' : IrType} {types types' : List IrType} :
    Alike type type' → AllAlike types types' → AllAlike (type :: types) (type' :: types')

end

mutual

/-- A source type has one machine type but for what pointers point to. -/
theorem alike_of_lowered {s : SymbolTables} {type : SourceType} {machine machine' : IrType}
    (h : Lowered s type machine) (h' : Lowered s type machine') : machine.Alike machine' := by
  cases h with
  | void | scalar =>
    cases h'
    exact .refl _
  | pointer _ target | function _ _ _ target =>
    cases h'
    exact .ptr _ _
  | array length hinner =>
    cases h' with
    | array _ hinner' => exact .array length (alike_of_lowered hinner hinner')
  | aggregate hfields hall =>
    cases h' with
    | aggregate hfields' hall' =>
      rw [hfields, Option.some.injEq] at hfields'
      subst hfields'
      exact .struct false _ (allAlike_of_loweredAll hall hall')
  | const hinner =>
    cases h' with
    | const hinner' => exact alike_of_lowered hinner hinner'
  | «alias» _ hinner =>
    cases h' with
    | «alias» _ hinner' => exact alike_of_lowered hinner hinner'

theorem allAlike_of_loweredAll {s : SymbolTables} {types : List SourceType}
    {machines machines' : List IrType} (h : LoweredAll s types machines)
    (h' : LoweredAll s types machines') : IrType.AllAlike machines machines' := by
  cases h with
  | nil =>
    cases h'
    exact .nil
  | cons htype hrest =>
    cases h' with
    | cons htype' hrest' =>
      exact .cons (alike_of_lowered htype htype') (allAlike_of_loweredAll hrest hrest')

end

mutual

theorem IrType.Alike.sizes (d : DataLayout) {type type' : IrType} (h : type.Alike type') :
    d.sizeOf type' = d.sizeOf type ∧ d.alignOf type' = d.alignOf type := by
  cases h with
  | refl => exact ⟨rfl, rfl⟩
  | ptr => exact ⟨rfl, rfl⟩
  | array length helement =>
    obtain ⟨hsize, halign⟩ := helement.sizes d
    simp only [DataLayout.sizeOf, DataLayout.alignOf, hsize, halign, and_self]
  | struct isPacked name hfields =>
    simp only [DataLayout.sizeOf, DataLayout.alignOf, hfields.placeFields d isPacked, and_self]

theorem IrType.AllAlike.placeFields (d : DataLayout) (isPacked : Bool) {types types' : List IrType}
    (h : AllAlike types types') (offset align : Nat) :
    d.placeFields isPacked types' offset align = d.placeFields isPacked types offset align := by
  cases h with
  | nil => rfl
  | cons htype hrest =>
    obtain ⟨hsize, halign⟩ := htype.sizes d
    simp only [DataLayout.placeFields, hsize, halign, hrest.placeFields d isPacked]

end

mutual

theorem IrType.Alike.admits {type type' : IrType} (h : type.Alike type') {v : Value}
    (hv : type.Admits v) : type'.Admits v := by
  cases h with
  | refl => exact hv
  | ptr => exact hv
  | array length helement =>
    obtain ⟨items, rfl, hlength, hitems⟩ := hv
    exact ⟨items, rfl, hlength, fun item hitem => helement.admits (hitems item hitem)⟩
  | struct isPacked name hfields =>
    obtain ⟨items, rfl, hitems⟩ := hv
    exact ⟨items, rfl, hfields.admits hitems⟩

theorem IrType.AllAlike.admits {types types' : List IrType} (h : AllAlike types types')
    {items : List Value} (hitems : IrType.AdmitAll types items) : IrType.AdmitAll types' items := by
  cases h with
  | nil => exact hitems
  | cons htype hrest =>
    cases items with
    | nil => exact hitems.elim
    | cons item items => exact ⟨htype.admits hitems.1, hrest.admits hitems.2⟩

end

mutual

theorem IrType.Alike.load (m : Memory) {type type' : IrType} (h : type.Alike type') (a : Nat) :
    m.load a type' = m.load a type := by
  cases h with
  | refl => rfl
  | ptr => rfl
  | array length helement =>
    have hitem : ∀ a', m.load a' _ = m.load a' _ := helement.load m
    simp only [Memory.load, (helement.sizes layout).1, hitem]
  | struct isPacked name hfields =>
    simp only [Memory.load, DataLayout.fieldOffsets, hfields.placeFields layout, hfields.loadFields m]

theorem IrType.AllAlike.loadFields (m : Memory) {types types' : List IrType} (h : AllAlike types types')
    (a : Nat) (offsets : List Nat) : m.loadFields a offsets types' = m.loadFields a offsets types := by
  cases h with
  | nil => rfl
  | cons htype hrest =>
    cases offsets with
    | nil => rfl
    | cons offset offsets => simp only [Memory.loadFields, htype.load m, hrest.loadFields m]

end

/-! ### Words in one register -/

/-- Words back to back in one number, the first in the low bits. -/
def packWords : List Value → Nat
  | .int x bits :: rest => x + 2 ^ bits * packWords rest
  | _ => 0

/-- Integer kinds with the bits of a register at which they start, from `offset` on. -/
def packKinds : Nat → List Scalar → List (IrType × Nat)
  | _, [] => []
  | offset, kind :: rest => (kind.machineType, offset) :: packKinds (offset + kind.bits) rest

theorem isWord_of_admits {kind : Scalar} (hk : kind.isInteger = true) {v : Value}
    (hv : kind.machineType.Admits v) : ∃ x, v = .int x kind.bits ∧ x < 2 ^ kind.bits := by
  have hword : v.IsWord kind.bits := by
    cases kind <;> first | exact hv | cases hk
  obtain ⟨x, rfl, hx⟩ := hword
  rw [Scalar.modulus_bits] at hx
  exact ⟨x, rfl, hx⟩

theorem admits_int {kind : Scalar} (hk : kind.isInteger = true) {x : Nat} (hx : x < 2 ^ kind.bits) :
    kind.machineType.Admits (.int x kind.bits) := by
  rw [← Scalar.modulus_bits] at hx
  cases kind <;> first | exact ⟨x, rfl, hx⟩ | cases hk

theorem getElem?_of_drop_eq_cons {α : Type} {l rest : List α} {j : Nat} {x : α}
    (h : l.drop j = x :: rest) : l[j]? = some x ∧ l.drop (j + 1) = rest := by
  constructor
  · rw [← List.head?_drop, h]
    rfl
  · rw [← List.tail_drop, h]
    rfl

theorem add_shifted_lt {w x offset bits : Nat} (hw : w < 2 ^ offset) (hx : x < 2 ^ bits) :
    w + 2 ^ offset * x < 2 ^ (offset + bits) := by
  rw [pow_add]
  calc w + 2 ^ offset * x < 2 ^ offset * (x + 1) := by
        rw [Nat.mul_succ]
        omega
    _ ≤ 2 ^ offset * 2 ^ bits := Nat.mul_le_mul_left _ hx

section Words

variable {kind : Scalar} {offset : Nat}

theorem modulus_le {bits : Nat} (h : bits ≤ kind.bits) : 2 ^ bits ≤ Word.modulus kind.bits := by
  rw [Scalar.modulus_bits]
  exact Nat.pow_le_pow_right (by decide) h

theorem eval_constOffset (image : Image) (frame : Machine.Frame) (hk : kind.isInteger = true)
    (hoffset : offset < kind.bits) :
    image.eval frame (constInt offset kind.machineType) = .ok (.int offset kind.bits) := by
  have hlt : offset < Word.modulus kind.bits :=
    (Nat.lt_two_pow_self (n := offset)).trans_le (modulus_le hoffset.le)
  have hword : Word.ofInt kind.bits (offset : Int) = offset := by
    rw [← Word.mask_eq_ofInt, Word.mask_of_lt hlt]
  simp only [constInt, Image.eval, constantValue, intBits?_machineType hk,
    Option.getD_some, Value.ofInt, hword]

theorem integerArith_shl {x : Nat} (hoffset : offset < kind.bits) :
    integerArith .shl kind.bits x offset = .ok (Word.mask kind.bits (x * 2 ^ offset)) := by
  have hshift : offset % max kind.bits 1 = offset := Nat.mod_eq_of_lt (by omega)
  simp only [integerArith, hshift, Nat.shiftLeft_eq]

theorem integerArith_lshr {x : Nat} (hoffset : offset < kind.bits) (hx : x < 2 ^ kind.bits) :
    integerArith .lshr kind.bits x offset = .ok (x / 2 ^ offset) := by
  have hshift : offset % max kind.bits 1 = offset := Nat.mod_eq_of_lt (by omega)
  have hlt : x / 2 ^ offset < Word.modulus kind.bits :=
    (Nat.div_le_self _ _).trans_lt (hx.trans_le (modulus_le le_rfl))
  simp only [integerArith, hshift, Nat.shiftRight_eq_div_pow, Word.mask_of_lt hlt]

/-- What is put above the bits of a word is added to it. -/
theorem integerArith_or {w x : Nat} (hw : w < 2 ^ offset)
    (hsum : w + 2 ^ offset * x < 2 ^ kind.bits) :
    integerArith .or kind.bits w (x * 2 ^ offset) = .ok (w + 2 ^ offset * x) := by
  have hor : w ||| x * 2 ^ offset = w + 2 ^ offset * x := by
    rw [Nat.or_comm, ← Nat.shiftLeft_eq, ← Nat.shiftLeft_add_eq_or_of_lt hw, Nat.shiftLeft_eq,
      Nat.mul_comm, Nat.add_comm]
  have hlt : w + 2 ^ offset * x < Word.modulus kind.bits := hsum.trans_le (modulus_le le_rfl)
  simp only [integerArith, hor, Word.mask_of_lt hlt]

end Words

namespace PassingClass

/-- What the sender does for one packed field. -/
def mergeField (value : Operand) (register : IrType) (merged : Operand) (entry : (IrType × Nat) × Nat) :
    BuildM Operand := do
  let field ← FunctionBuilder.push (.extract value [entry.2]) (some entry.1.1)
  let widened ← FunctionBuilder.convert .zext field register
  let shift := Operation.arith .shl widened (constInt entry.1.2 register)
  let shifted ← FunctionBuilder.push shift (some register)
  FunctionBuilder.push (.arith .or merged shifted) (some register)

/-- What the receiver does for one packed field. -/
def unpackField (incoming slot : Operand) (register : IrType) (entry : (IrType × Nat) × Nat) :
    BuildM Unit := do
  let shift := Operation.arith .lshr incoming (constInt entry.1.2 register)
  let shifted ← FunctionBuilder.push shift (some register)
  let value ← FunctionBuilder.convert .trunc shifted entry.1.1
  let field ← FunctionBuilder.fieldPtr slot entry.2 entry.1.1
  FunctionBuilder.store value field

section Merging

variable {image : Image} {caller : Caller} {b : FunctionBuilder} {frame : Machine.Frame} {s : State}
  {kind field : Scalar} {value merged incoming slot : Operand} {struct : IrType} {all : List Value}
  {offset j w x a : Nat}

theorem executes_mergeField (hb : b.Standing) (hkind : kind.isInteger = true)
    (hfit : offset + field.bits ≤ kind.bits)
    (hvalue : Gives image (.aggregate all) struct s.memory value b frame s)
    (hitem : all[j]? = some (.int x field.bits)) (hx : x < 2 ^ field.bits) (hw : w < 2 ^ offset)
    (hmerged : Gives image (.int w kind.bits) kind.machineType s.memory merged b frame s) :
    Executes image caller (mergeField value kind.machineType merged ((field.machineType, offset), j)) b
      frame s (Gives image (.int (w + 2 ^ offset * x) kind.bits) kind.machineType s.memory) := by
  have hoffset : offset < kind.bits := by
    have hpos := field.bits_pos
    omega
  have hvoid := isVoid_machineType kind
  have hwide : Word.mask kind.bits x = x :=
    Word.mask_of_lt (hx.trans_le (modulus_le (by omega)))
  have hsum : w + 2 ^ offset * x < 2 ^ (offset + field.bits) := add_shifted_lt hw hx
  have hmask : Word.mask kind.bits (x * 2 ^ offset) = x * 2 ^ offset := by
    refine Word.mask_of_lt (lt_of_le_of_lt ?_ (hsum.trans_le (modulus_le hfit)))
    rw [Nat.mul_comm]
    exact Nat.le_add_left _ _
  refine (executes_extract hb (by simp [isVoid_machineType]) hvalue.carries.eval hitem).bind
    fun o₁ b₁ f₁ s₁ h₁ hfield => ?_
  refine (executes_resize (Or.inr rfl) h₁.standing (intBits?_machineType hkind)
    hfield.carries.eval).bind fun o₂ b₂ f₂ s₂ h₂ hwidened => ?_
  rw [hwide] at hwidened
  refine (executes_wordArith h₂.standing hvoid hwidened.carries.eval
    (eval_constOffset image f₂ hkind hoffset) (integerArith_shl hoffset)).bind
    fun o₃ b₃ f₃ s₃ h₃ hshifted => ?_
  rw [hmask] at hshifted
  have hmerged₃ := ((hmerged.after h₁ hfield.memory).after h₂ hwidened.memory).after h₃ hshifted.memory
  have hmemory : s₃.memory = s.memory := by
    rw [hshifted.memory, hwidened.memory, hfield.memory]
  rw [← hmemory]
  exact executes_wordArith h₃.standing hvoid hmerged₃.carries.eval hshifted.carries.eval
    (integerArith_or hw (hsum.trans_le (Nat.pow_le_pow_right (by decide) hfit)))

/-- The induction is on the fields that are left, the words of those before are in the register. -/
theorem executes_merge {items : List Value} (fields : List Scalar) (hb : b.Standing)
    (hkind : kind.isInteger = true) (hfields : ∀ field ∈ fields, field.isInteger = true)
    (hitems : IrType.AdmitAll (fields.map Scalar.machineType) items)
    (hfit : offset + (fields.map Scalar.bits).sum ≤ kind.bits)
    (hvalue : Gives image (.aggregate all) struct s.memory value b frame s)
    (hall : all.drop j = items) (hw : w < 2 ^ offset)
    (hmerged : Gives image (.int w kind.bits) kind.machineType s.memory merged b frame s) :
    Executes image caller
      (((packKinds offset fields).zipIdx j).foldlM (mergeField value kind.machineType) merged) b frame s
      (Gives image (.int (w + 2 ^ offset * packWords items) kind.bits) kind.machineType s.memory) := by
  induction fields generalizing items b frame s offset j w merged with
  | nil =>
    have hword : packWords items = 0 := by
      cases items with
      | nil => rfl
      | cons item rest => exact hitems.elim
    rw [hword, Nat.mul_zero, Nat.add_zero]
    exact .pure hb hmerged
  | cons field rest ih =>
    cases items with
    | nil => exact hitems.elim
    | cons item items =>
      obtain ⟨x, rfl, hx⟩ := isWord_of_admits (hfields field List.mem_cons_self) hitems.1
      obtain ⟨hitem, hrest⟩ := getElem?_of_drop_eq_cons hall
      rw [List.map_cons, List.sum_cons] at hfit
      have hword : w + 2 ^ offset * packWords (.int x field.bits :: items) =
          w + 2 ^ offset * x + 2 ^ (offset + field.bits) * packWords items := by
        rw [packWords, pow_add]
        ring
      rw [hword]
      refine (executes_mergeField hb hkind (by omega) hvalue hitem hx hw hmerged).bind
        fun o b' frame' s' hafter hmerged' => ?_
      have hmemory := hmerged'.memory
      rw [← hmemory] at hmerged' ⊢
      exact ih hafter.standing (fun kind hkind => hfields kind (List.mem_cons_of_mem _ hkind)) hitems.2
        (by omega) (hvalue.after hafter rfl) hrest (add_shifted_lt hw hx) hmerged'

/-- A receiver's slot and what it puts there. -/
structure Receives (image : Image) (word bits : Nat) (register : IrType) (a : Nat) (struct : IrType)
    (incoming slot : Operand) (b : FunctionBuilder) (frame : Machine.Frame) (s : State) : Prop where
  incoming : Gives image (.int word bits) register s.memory incoming b frame s
  slot : Gives image (.ptr a) (.ptr struct) s.memory slot b frame s

theorem Receives.after {word bits : Nat} {register : IrType} {b' : FunctionBuilder}
    {frame' : Machine.Frame} {s' : State}
    (h : Receives image word bits register a struct incoming slot b frame s)
    (ha : After b b' frame frame') :
    Receives image word bits register a struct incoming slot b' frame' s' :=
  ⟨h.incoming.after ha rfl, h.slot.after ha rfl⟩

theorem executes_unpackField {fields : List IrType} {name : Option String} {word above place : Nat}
    (hb : b.Standing) (hkind : kind.isInteger = true) (hfield : field.isInteger = true)
    (hoffset : offset < kind.bits)
    (h : Receives image word kind.bits kind.machineType a (.struct fields false name) incoming slot b
      frame s)
    (hword : word < 2 ^ kind.bits) (hx : x < 2 ^ field.bits)
    (habove : word / 2 ^ offset = x + 2 ^ field.bits * above) (hj : j < 2 ^ 31)
    (hplace : (layout.fieldOffsets fields false)[j]? = some place)
    (htype : fields[j]? = some field.machineType) (hbase : memoryBase ≤ a)
    (hroom : a + place + layout.sizeOf field.machineType ≤ s.memory.size)
    (hlimit : s.memory.size ≤ memoryLimit) :
    Executes image caller (unpackField incoming slot kind.machineType ((field.machineType, offset), j)) b
      frame s fun _ _ _ s' =>
        s.memory.Rewrites s'.memory (a + place) (layout.sizeOf field.machineType) ∧
          s'.memory.load (a + place) field.machineType = .ok (.int x field.bits) := by
  have hmax : memoryLimit < maxU64 := by decide
  have hlow : Word.mask field.bits (word / 2 ^ offset) = x := by
    rw [habove, Word.mask, Scalar.modulus_bits, Nat.add_mul_mod_self_left, Nat.mod_eq_of_lt hx]
  have hadmits : field.machineType.Admits (.int x field.bits) := admits_int hfield hx
  refine (executes_wordArith hb (isVoid_machineType kind) h.incoming.carries.eval
    (eval_constOffset image frame hkind hoffset) (integerArith_lshr hoffset hword)).bind
    fun o₁ b₁ f₁ s₁ h₁ hshifted => ?_
  refine (executes_resize (Or.inl rfl) h₁.standing (intBits?_machineType hfield)
    hshifted.carries.eval).bind fun o₂ b₂ f₂ s₂ h₂ hvalue => ?_
  rw [hlow] at hvalue
  have hslot := (h.slot.after h₁ hshifted.memory).after h₂ hvalue.memory
  refine (executes_fieldPtr h₂.standing hslot.carries hj hplace htype (by omega)
    field.machineType).bind fun o₃ b₃ f₃ s₃ h₃ haddress => ?_
  have hvalue' := hvalue.after h₃ haddress.memory
  have hmemory : s₃.memory = s.memory := by
    rw [haddress.memory, hvalue.memory, hshifted.memory]
  have hsize : layout.sizeOf field.machineType < maxU64 := by omega
  rw [← hmemory] at hroom ⊢
  exact executes_store h₃.standing hvalue'.carries hadmits haddress.carries.eval hsize
    ⟨by omega, hroom⟩

/-- The induction is on the fields that are left: of the word those above are left, and of the slot the
places behind. -/
theorem executes_unpack {fields : List IrType} {name : Option String} {word place align : Nat}
    {items : List Value} (kinds : List Scalar) (hb : b.Standing) (hkind : kind.isInteger = true)
    (hkinds : ∀ field ∈ kinds, field.isInteger = true)
    (hitems : IrType.AdmitAll (kinds.map Scalar.machineType) items)
    (hfit : offset + (kinds.map Scalar.bits).sum ≤ kind.bits)
    (h : Receives image word kind.bits kind.machineType a (.struct fields false name) incoming slot b
      frame s)
    (hword : word < 2 ^ kind.bits) (habove : word / 2 ^ offset = packWords items)
    (hj : j + kinds.length < 2 ^ 31) (hfields : fields.drop j = kinds.map Scalar.machineType)
    (hplaces : (layout.fieldOffsets fields false).drop j =
      (layout.placeFields false (kinds.map Scalar.machineType) place align).1)
    (hplace : place ≤ maxU64) (hbase : memoryBase ≤ a)
    (hroom : a + (layout.placeFields false (kinds.map Scalar.machineType) place align).2.1 ≤
      s.memory.size)
    (hlimit : s.memory.size ≤ memoryLimit) :
    Executes image caller
      (((packKinds offset kinds).zipIdx j).forM (unpackField incoming slot kind.machineType)) b frame s
      fun _ _ _ s' => s.memory.Rewrites s'.memory (a + place)
          ((layout.placeFields false (kinds.map Scalar.machineType) place align).2.1 - place) ∧
        s'.memory.loadFields a
          (layout.placeFields false (kinds.map Scalar.machineType) place align).1
          (kinds.map Scalar.machineType) = .ok items := by
  have hmax : memoryLimit < maxU64 := by decide
  induction kinds generalizing items b frame s offset j place align with
  | nil =>
    cases items with
    | nil => exact .pure hb ⟨.refl _ _ _, rfl⟩
    | cons item rest => exact hitems.elim
  | cons field rest ih =>
    cases items with
    | nil => exact hitems.elim
    | cons item items =>
      obtain ⟨x, rfl, hx⟩ := isWord_of_admits (hkinds field List.mem_cons_self) hitems.1
      rw [List.map_cons, List.sum_cons] at hfit
      rw [List.map_cons] at hfields hplaces hroom ⊢
      have hstop : (layout.placeFields false (field.machineType :: rest.map Scalar.machineType) place
          align).2.1 < maxU64 := by omega
      obtain ⟨start, top, hstart, hend, hsplit⟩ := DataLayout.placeFields_split hplace hstop
      rw [hsplit] at hplaces hroom hstop ⊢
      simp only at hplaces hroom hstop ⊢
      have hle := (@DataLayout.placeFields_stop layout false _ (rest.map Scalar.machineType) top
        hend).1
      obtain ⟨htype, hfields'⟩ := getElem?_of_drop_eq_cons hfields
      obtain ⟨hplace', hplaces'⟩ := getElem?_of_drop_eq_cons hplaces
      have hpos := field.bits_pos
      have habove' : word / 2 ^ (offset + field.bits) = packWords items := by
        rw [pow_add, ← Nat.div_div_eq_div_mul, habove, packWords,
          Nat.add_mul_div_left _ _ (Nat.two_pow_pos _), Nat.div_eq_of_lt hx, Nat.zero_add]
      refine (executes_unpackField hb hkind (hkinds field List.mem_cons_self) (by omega) h hword hx
        habove (by omega) hplace' htype hbase (by omega) hlimit).bind
        fun _ b' frame' s' hafter hfirst => ?_
      obtain ⟨hrewrites, hload⟩ := hfirst
      rw [List.length_cons] at hj
      rw [← hrewrites.size] at hroom hlimit
      refine (ih hafter.standing (fun kind hkind => hkinds kind (List.mem_cons_of_mem _ hkind)) hitems.2
        (by omega) (h.after hafter) habove' (by omega) hfields' hplaces' hend hroom hlimit).imp
        fun _ b'' frame'' s'' _ hrest => ?_
      obtain ⟨hrewrites', hloads⟩ := hrest
      refine ⟨(hrewrites.mono (by omega) (by omega)).trans (hrewrites'.mono (by omega) (by omega)), ?_⟩
      -- the fields behind lie apart from the first
      have hkept : s''.memory.load (a + start) field.machineType =
          s'.memory.load (a + start) field.machineType :=
        hrewrites'.load (by omega) (Or.inr (by omega)) (by omega)
      rw [Memory.loadFields, hkept, hload, hloads]
      rfl

end Merging

end PassingClass
end UnitCompiler
