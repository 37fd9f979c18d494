import Mathlib
import UnitCompiler.Proofs.Text.Brackets
import UnitCompiler.Types.Basic

/-!
# The canonical text of a type can be read back

Where names are kept apart from the keywords, numbers and marks of the notation, two types have one
canonical text exactly when they are one type up to constness, aliases and the kinds of integers.
-/

namespace UnitCompiler

open Bracketed

/-- The characters that have a role of their own in the notation of types. -/
def isMark (c : Char) : Bool := c ∈ ['*', '(', ')', '[', ']', '<', '>', ',', '.']

/-- How a text begins that is neither a number nor the text of a folded length. -/
def startsName (s : String) : Bool := s.toList.head?.any fun c => !c.isDigit && c != '-' && c != '#'

/-- What identifiers joined by `::` have in common: no mark is in them, they do not begin like a number,
and they are not the word of a type or of a value. -/
def isName (s : String) : Bool :=
  s.toList.all (!isMark ·) && startsName s && s ∉ ["void", "true", "false"] &&
    (Scalar.ofName? s).isNone

def ArrayLength.wellNamed : ArrayLength → Bool
  | .param name => isName name
  | .fixed _ | .expr _ => true

/-- An integer or a truth value. -/
def ConstValue.isIntOrBool : ConstValue → Bool
  | .int .. | .bool _ => true
  | _ => false

/-- An integer without its kind. -/
def ConstValue.plain : ConstValue → ConstValue
  | .int value _ => .int value .int
  | value => value

namespace SourceType

mutual

/-- Every name in the type is a name of the notation, and every value an integer or a truth value. -/
def wellNamed : SourceType → Bool
  | .void | .scalar _ => true
  | .pointer inner | .const inner => wellNamed inner
  | .array element length => wellNamed element && length.wellNamed
  | .aggregate name args => isName name && argsWellNamed args
  | .function ret params _ => wellNamed ret && allWellNamed params
  | .templateParam name => isName name
  | .alias _ target => wellNamed target

def argWellNamed : TemplateArg → Bool
  | .type type => wellNamed type
  | .value value => value.isIntOrBool

def argsWellNamed : List TemplateArg → Bool
  | [] => true
  | arg :: rest => argWellNamed arg && argsWellNamed rest

def allWellNamed : List SourceType → Bool
  | [] => true
  | type :: rest => wellNamed type && allWellNamed rest

end

mutual

/-- The type without constness, aliases and the kinds of integers; a template parameter is the bare
aggregate of its name. -/
def plain : SourceType → SourceType
  | .void => .void
  | .scalar kind => .scalar kind
  | .pointer target => .pointer (plain target)
  | .array element length => .array (plain element) length
  | .aggregate name args => .aggregate name (plainArgs args)
  | .const inner => plain inner
  | .function ret params variadic => .function (plain ret) (plainTypes params) variadic
  | .templateParam name => .aggregate name []
  | .alias _ target => plain target

def plainArg : TemplateArg → TemplateArg
  | .type type => .type (plain type)
  | .value value => .value value.plain

def plainArgs : List TemplateArg → List TemplateArg
  | [] => []
  | arg :: rest => plainArg arg :: plainArgs rest

def plainTypes : List SourceType → List SourceType
  | [] => []
  | type :: rest => plain type :: plainTypes rest

end

theorem typeTexts_eq_map (types : List SourceType) : typeTexts types = types.map canonical := by
  induction types with
  | nil => rfl
  | cons type rest ih => simp [typeTexts, ih]

theorem argTexts_eq_map (args : List TemplateArg) : argTexts args = args.map argText := by
  induction args with
  | nil => rfl
  | cons arg rest ih => simp [argTexts, ih]

theorem of_mem_allWellNamed {types : List SourceType} (h : allWellNamed types) {type : SourceType}
    (hm : type ∈ types) : wellNamed type := by
  induction types with
  | nil => simp at hm
  | cons first rest ih =>
    simp only [allWellNamed, Bool.and_eq_true] at h
    obtain rfl | hm := List.mem_cons.mp hm
    · exact h.1
    · exact ih h.2 hm

/-! ### Plain types have the texts of the types -/

theorem text_plainValue (value : ConstValue) : value.plain.text = value.text := by
  cases value <;> rfl

mutual

theorem canonical_plain (t : SourceType) : t.plain.canonical = t.canonical := by
  match t with
  | .void | .scalar _ | .templateParam _ => rfl
  | .pointer target => simp [plain, canonical, canonical_plain target]
  | .array element length => simp [plain, canonical, canonical_plain element]
  | .aggregate name args =>
    have hempty : (plainArgs args).isEmpty = args.isEmpty := by cases args <;> rfl
    simp [plain, canonical, hempty, argTexts_plainArgs args]
  | .const inner => simpa [plain, canonical] using canonical_plain inner
  | .function ret params variadic =>
    simp [plain, canonical, canonical_plain ret, typeTexts_plainTypes params]
  | .alias _ target => simpa [plain, canonical] using canonical_plain target

theorem argText_plainArg (arg : TemplateArg) : argText (plainArg arg) = argText arg := by
  match arg with
  | .type type => exact canonical_plain type
  | .value value => exact text_plainValue value

theorem argTexts_plainArgs (args : List TemplateArg) : argTexts (plainArgs args) = argTexts args := by
  match args with
  | [] => rfl
  | arg :: rest => simp [plainArgs, argTexts, argText_plainArg arg, argTexts_plainArgs rest]

theorem typeTexts_plainTypes (types : List SourceType) :
    typeTexts (plainTypes types) = typeTexts types := by
  match types with
  | [] => rfl
  | type :: rest => simp [plainTypes, typeTexts, canonical_plain type, typeTexts_plainTypes rest]

end

end SourceType

/-! ### Words

The texts without marks: keywords, names and values. -/

/-- No mark is in the text. -/
def Unmarked (s : String) : Prop := ∀ c ∈ s.toList, isMark c = false

theorem Unmarked.flat {s : String} (h : Unmarked s) : Flat s.toList := by
  intro c hc
  have := h c hc
  unfold nesting
  split <;> first | rfl | (exact absurd this (by decide))

theorem Unmarked.item {s : String} (h : Unmarked s) : Item ',' s.toList := by
  apply Item.of_flat h.flat
  intro hc
  exact absurd (h ',' hc) (by decide)

theorem unmarked_digits (n : Nat) : ∀ c ∈ (toString n).toList, c.isDigit = true := by
  intro c hc
  rw [Nat.toString_eq_ofList_toDigits, String.toList_ofList] at hc
  exact Nat.isDigit_of_mem_toDigits (by decide) (by decide) hc

theorem isMark_of_isDigit {c : Char} (h : c.isDigit = true) : isMark c = false := by
  by_contra hm
  have hmem : c ∈ ['*', '(', ')', '[', ']', '<', '>', ',', '.'] := by
    rwa [Bool.not_eq_false, isMark, decide_eq_true_eq] at hm
  simp only [List.mem_cons, List.not_mem_nil, or_false] at hmem
  rcases hmem with rfl | rfl | rfl | rfl | rfl | rfl | rfl | rfl | rfl <;> exact absurd h (by decide)

theorem unmarked_nat (n : Nat) : Unmarked (toString n) :=
  fun c hc => isMark_of_isDigit (unmarked_digits n c hc)

theorem toString_nat_ne_nil (n : Nat) : (toString n).toList ≠ [] := by
  rw [Nat.toString_eq_ofList_toDigits, String.toList_ofList]
  exact Nat.toDigits_ne_nil

theorem not_startsName_nat (n : Nat) : startsName (toString n) = false := by
  obtain ⟨c, w, h⟩ := List.exists_cons_of_ne_nil (toString_nat_ne_nil n)
  have := unmarked_digits n c (by rw [h]; simp)
  rw [startsName, h]
  simp [this]

/-- An integer is written with its digits, behind a minus when it is negative. -/
theorem toString_int_cases (v : Int) :
    (∃ n : Nat, toString v = toString n) ∨ ∃ n : Nat, toString v = "-" ++ toString n := by
  rw [Int.toString_eq_repr, Int.repr_eq_if]
  split
  · exact .inl ⟨v.toNat, rfl⟩
  · exact .inr ⟨(-v).toNat, rfl⟩

theorem unmarked_int (v : Int) : Unmarked (toString v) := by
  obtain ⟨n, h⟩ | ⟨n, h⟩ := toString_int_cases v
  · rw [h]
    exact unmarked_nat n
  · rw [h]
    intro c hc
    simp only [String.toList_append, List.mem_append] at hc
    obtain hc | hc := hc
    · have : c = '-' := by simpa using hc
      subst this
      decide
    · exact unmarked_nat n c hc

theorem not_startsName_int (v : Int) : startsName (toString v) = false := by
  obtain ⟨n, h⟩ | ⟨n, h⟩ := toString_int_cases v
  · rw [h]
    exact not_startsName_nat n
  · simp [startsName, h]

section Names

variable {s : String} (h : isName s)

include h

theorem isName.unmarked : Unmarked s := by
  simp only [isName, Bool.and_eq_true, List.all_eq_true, Bool.not_eq_true'] at h
  exact h.1.1.1

theorem isName.starts : startsName s := by
  simp only [isName, Bool.and_eq_true] at h
  exact h.1.1.2

theorem isName.not_word : s ≠ "void" ∧ s ≠ "true" ∧ s ≠ "false" := by
  simp only [isName, Bool.and_eq_true, decide_eq_true_eq] at h
  simpa using h.1.2

theorem isName.not_scalar : Scalar.ofName? s = none := by
  simp only [isName, Bool.and_eq_true, Option.isNone_iff_eq_none] at h
  exact h.2

theorem isName.named : SourceType.named s = .aggregate s [] := by
  simp [SourceType.named, isName.not_word h, isName.not_scalar h]

end Names

theorem startsName.ne_nil {s : String} (h : startsName s) : s.toList ≠ [] := by
  intro hnil
  simp [startsName, hnil] at h

theorem ConstValue.unmarked {value : ConstValue} (h : value.isIntOrBool) : Unmarked value.text := by
  match value with
  | .int v _ => exact unmarked_int v
  | .bool true | .bool false => simp [Unmarked, ConstValue.text, isMark]

theorem ConstValue.text_ne_nil {value : ConstValue} (h : value.isIntOrBool) :
    value.text.toList ≠ [] := by
  match value with
  | .int v _ =>
    obtain ⟨n, hn⟩ | ⟨n, hn⟩ := toString_int_cases v
    · rw [ConstValue.text, hn]
      exact toString_nat_ne_nil n
    · simp [ConstValue.text, hn]
  | .bool true | .bool false => simp [ConstValue.text]

theorem ConstValue.not_name {value : ConstValue} (h : value.isIntOrBool) :
    startsName value.text = false ∨ value.text = "true" ∨ value.text = "false" := by
  match value with
  | .int v _ => exact .inl (not_startsName_int v)
  | .bool true => exact .inr (.inl rfl)
  | .bool false => exact .inr (.inr rfl)

/-- Values that are written alike are equal up to their kinds. -/
theorem ConstValue.plain_eq_of_text_eq {v w : ConstValue} (hv : v.isIntOrBool) (hw : w.isIntOrBool)
    (h : v.text = w.text) : v.plain = w.plain := by
  have apart : ∀ (n : Int) (b : Bool), toString n ≠ if b then "true" else "false" := by
    intro n b heq
    have hn := not_startsName_int n
    rw [heq] at hn
    cases b <;> exact absurd hn (by decide)
  match v, w with
  | .int m _, .int n _ =>
    have : m = n := Int.repr_injective (by simpa [ConstValue.text] using h)
    rw [ConstValue.plain, ConstValue.plain, this]
  | .int m _, .bool b => exact absurd h (apart m b)
  | .bool b, .int n _ => exact absurd h.symm (apart n b)
  | .bool true, .bool true | .bool false, .bool false => rfl
  | .bool true, .bool false | .bool false, .bool true => exact absurd h (by decide)

theorem ArrayLength.text_expr (node : NodeId) :
    (ArrayLength.expr node).text.toList = '#' :: (toString node.index).toList := by
  simp [ArrayLength.text, String.toList_append]
  rfl

theorem ArrayLength.unmarked {l : ArrayLength} (h : l.wellNamed) : Unmarked l.text := by
  match l with
  | .fixed n => exact unmarked_nat n
  | .param name => exact isName.unmarked h
  | .expr node =>
    intro c hc
    rw [ArrayLength.text_expr] at hc
    obtain rfl | hc := List.mem_cons.mp hc
    · decide
    · exact unmarked_nat _ c hc

theorem ArrayLength.eq_of_text_eq {l m : ArrayLength} (hl : l.wellNamed) (hm : m.wellNamed)
    (h : l.text = m.text) : l = m := by
  have hash : ∀ (n : Nat) (node : NodeId), (ArrayLength.fixed n).text ≠ (ArrayLength.expr node).text := by
    intro n node heq
    have hc : '#' ∈ (toString n).toList := by
      have htext := congrArg String.toList heq
      rw [ArrayLength.text_expr] at htext
      exact htext ▸ List.mem_cons_self
    exact absurd (unmarked_digits n '#' hc) (by decide)
  have number : ∀ (n : Nat) (name : String), isName name → toString n ≠ name := by
    intro n name hname heq
    have := isName.starts hname
    rw [← heq, not_startsName_nat] at this
    exact absurd this (by decide)
  have folded : ∀ (node : NodeId) (name : String), isName name → (ArrayLength.expr node).text ≠ name := by
    intro node name hname heq
    have := isName.starts hname
    simp [startsName, ← heq, ArrayLength.text_expr] at this
  match l, m with
  | .fixed a, .fixed b => rw [Nat.repr_injective h]
  | .fixed a, .param name => exact absurd h (number a name hm)
  | .fixed a, .expr node => exact absurd h (hash a node)
  | .param name, .fixed b => exact absurd h.symm (number b name hl)
  | .param a, .param b => rw [show a = b from h]
  | .param name, .expr node => exact absurd h.symm (folded node name hl)
  | .expr node, .fixed b => exact absurd h.symm (hash b node)
  | .expr node, .param name => exact absurd h (folded node name hm)
  | .expr ⟨a⟩, .expr ⟨b⟩ =>
    have htext := congrArg String.toList h
    rw [ArrayLength.text_expr, ArrayLength.text_expr, List.cons_inj_right, String.toList_inj] at htext
    have hab : a = b := Nat.repr_injective htext
    rw [hab]

namespace SourceType

/-! ### The last character tells how a type is built -/

/-- The mark that the text of a type ends with, if it does. -/
def closer : SourceType → Option Char
  | .pointer _ => some '*'
  | .array .. => some ']'
  | .aggregate _ (_ :: _) => some '>'
  | .function .. => some ')'
  | .const inner => closer inner
  | .alias _ target => closer target
  | .void | .scalar _ | .aggregate _ [] | .templateParam _ => none

/-- The mark at the end of a text. -/
def lastMark (s : String) : Option Char := s.toList.getLast?.filter isMark

theorem lastMark_of_unmarked {s : String} (h : Unmarked s) : lastMark s = none := by
  rw [lastMark, Option.filter_eq_none_iff]
  intro c hc
  have := h c (List.mem_of_getLast? hc)
  simp [this]

theorem lastMark_concat (s t : String) {c : Char} (ht : t.toList = [c]) (hc : isMark c = true) :
    lastMark (s ++ t) = some c := by
  simp [lastMark, String.toList_append, ht, hc]

theorem unmarked_void : Unmarked "void" := by simp [Unmarked, isMark]

theorem unmarked_scalar (kind : Scalar) : Unmarked kind.name := by
  cases kind <;> simp [Unmarked, Scalar.name, isMark]

theorem lastMark_canonical {t : SourceType} (h : wellNamed t) : lastMark t.canonical = t.closer := by
  match t with
  | .void => exact lastMark_of_unmarked unmarked_void
  | .scalar kind => exact lastMark_of_unmarked (unmarked_scalar kind)
  | .pointer _ => exact lastMark_concat _ "*" rfl rfl
  | .array .. => exact lastMark_concat _ "]" rfl rfl
  | .aggregate name [] =>
    have hname : isName name := by simpa [wellNamed, argsWellNamed] using h
    simpa [canonical, closer] using lastMark_of_unmarked (isName.unmarked hname)
  | .aggregate _ (_ :: _) => exact lastMark_concat _ ">" rfl rfl
  | .const inner => exact lastMark_canonical (t := inner) h
  | .function .. =>
    simp only [canonical, closer]
    exact lastMark_concat _ ")" rfl rfl
  | .templateParam name => exact lastMark_of_unmarked (isName.unmarked h)
  | .alias _ target => exact lastMark_canonical (t := target) h

/-! ### The text of a type is an item of a list -/

/-- The texts of a parameter list. -/
def paramTexts (params : List SourceType) (variadic : Bool) : List String :=
  params.map canonical ++ if variadic then ["..."] else []

theorem canonical_function (ret : SourceType) (params : List SourceType) (variadic : Bool) :
    canonical (.function ret params variadic) =
      canonical ret ++ "(" ++ String.intercalate "," (paramTexts params variadic) ++ ")" := by
  rw [canonical, typeTexts_eq_map]
  rfl

theorem canonical_generic (name : String) (arg : TemplateArg) (rest : List TemplateArg) :
    canonical (.aggregate name (arg :: rest)) =
      name ++ "<" ++ String.intercalate "," ((arg :: rest).map argText) ++ ">" := by
  rw [canonical, argTexts_eq_map]
  rfl

/-- What a list of types or arguments is made of: a text that is an item, and not empty. -/
def IsEntry (s : String) : Prop := Item ',' s.toList ∧ s.toList ≠ []

theorem balanced_intercalate {texts : List String} (h : ∀ s ∈ texts, IsEntry s) :
    Balanced (String.intercalate "," texts).toList := by
  rw [String.toList_intercalate]
  apply Balanced.intercalate (by decide)
  intro w hw
  obtain ⟨s, hs, rfl⟩ := List.mem_map.mp hw
  exact (h s hs).1.balanced

theorem isEntry_dots : IsEntry "..." := by
  constructor
  · exact Item.of_flat (by simp [Flat, nesting]) (by simp)
  · simp

theorem isEntry_paramTexts {params : List SourceType} (h : ∀ s ∈ params.map canonical, IsEntry s)
    (variadic : Bool) : ∀ s ∈ paramTexts params variadic, IsEntry s := by
  intro s hs
  obtain hs | hs := List.mem_append.mp hs
  · exact h s hs
  · obtain rfl : s = "..." := by cases variadic <;> simp_all
    exact isEntry_dots

theorem isEntry_of_unmarked {s : String} (h : Unmarked s) (hne : s.toList ≠ []) : IsEntry s :=
  ⟨h.item, hne⟩

theorem isEntry_suffix {s t : String} (hs : IsEntry s) (ht : Item ',' t.toList) : IsEntry (s ++ t) := by
  constructor
  · rw [String.toList_append]
    exact hs.1.append ht
  · simp [hs.2]

theorem item_enclosed {s o c : String} {x y : Char} (ho : o.toList = [x]) (hc : c.toList = [y])
    (hx : nesting x = 1) (hy : nesting y = -1) (hs : Balanced s.toList) :
    Item ',' (o ++ s ++ c).toList := by
  have := Item.enclose ',' (by decide) hx hy hs
  simpa [String.toList_append, ho, hc] using this

mutual

theorem isEntry_canonical {t : SourceType} (h : wellNamed t) : IsEntry t.canonical := by
  match t with
  | .void => exact isEntry_of_unmarked unmarked_void (by simp [canonical])
  | .scalar kind =>
    exact isEntry_of_unmarked (unmarked_scalar kind) (by cases kind <;> simp [canonical, Scalar.name])
  | .pointer target =>
    exact isEntry_suffix (isEntry_canonical (t := target) h)
      (Item.of_flat (by simp [Flat, nesting]) (by simp))
  | .array element length =>
    simp only [wellNamed, Bool.and_eq_true] at h
    have helement := isEntry_canonical h.1
    have hlength := (ArrayLength.unmarked h.2).flat.balanced
    have := isEntry_suffix helement (item_enclosed (o := "[") (c := "]") rfl rfl rfl rfl hlength)
    simpa [canonical, String.append_assoc] using this
  | .aggregate name [] =>
    have hname : isName name := by simpa [wellNamed, argsWellNamed] using h
    have := isEntry_of_unmarked (isName.unmarked hname) (startsName.ne_nil (isName.starts hname))
    simpa [canonical] using this
  | .aggregate name (arg :: rest) =>
    simp only [wellNamed, Bool.and_eq_true] at h
    have hname := isEntry_of_unmarked (isName.unmarked h.1) (startsName.ne_nil (isName.starts h.1))
    have hargs := balanced_intercalate (isEntry_args h.2)
    rw [canonical_generic]
    have := isEntry_suffix hname (item_enclosed (o := "<") (c := ">") rfl rfl rfl rfl hargs)
    simpa [String.append_assoc] using this
  | .const inner => exact isEntry_canonical (t := inner) h
  | .function ret params variadic =>
    simp only [wellNamed, Bool.and_eq_true] at h
    have hret := isEntry_canonical h.1
    have hparams := balanced_intercalate (isEntry_paramTexts (isEntry_types h.2) variadic)
    rw [canonical_function]
    have := isEntry_suffix hret (item_enclosed (o := "(") (c := ")") rfl rfl rfl rfl hparams)
    simpa [String.append_assoc] using this
  | .templateParam name =>
    exact isEntry_of_unmarked (isName.unmarked h) (startsName.ne_nil (isName.starts h))
  | .alias _ target => exact isEntry_canonical (t := target) h

theorem isEntry_arg {arg : TemplateArg} (h : argWellNamed arg) : IsEntry (argText arg) := by
  match arg with
  | .type type => exact isEntry_canonical (t := type) h
  | .value value => exact isEntry_of_unmarked (ConstValue.unmarked h) (ConstValue.text_ne_nil h)

theorem isEntry_args {args : List TemplateArg} (h : argsWellNamed args) :
    ∀ s ∈ args.map argText, IsEntry s := by
  match args with
  | [] => simp
  | arg :: rest =>
    simp only [argsWellNamed, Bool.and_eq_true] at h
    have harg := isEntry_arg h.1
    have hrest := isEntry_args h.2
    rw [List.map_cons]
    exact List.forall_mem_cons.mpr ⟨harg, hrest⟩

theorem isEntry_types {types : List SourceType} (h : allWellNamed types) :
    ∀ s ∈ types.map canonical, IsEntry s := by
  match types with
  | [] => simp
  | type :: rest =>
    simp only [allWellNamed, Bool.and_eq_true] at h
    have htype := isEntry_canonical h.1
    have hrest := isEntry_types h.2
    rw [List.map_cons]
    exact List.forall_mem_cons.mpr ⟨htype, hrest⟩

end

theorem intercalate_texts_injective {ss ts : List String} (hs : ∀ s ∈ ss, IsEntry s)
    (ht : ∀ t ∈ ts, IsEntry t) (h : String.intercalate "," ss = String.intercalate "," ts) :
    ss = ts := by
  have entries : ∀ {us : List String}, (∀ s ∈ us, IsEntry s) →
      ∀ w ∈ us.map String.toList, Item ',' w ∧ w ≠ [] := by
    intro us hus w hw
    obtain ⟨s, hs, rfl⟩ := List.mem_map.mp hw
    exact hus s hs
  have hchars := congrArg String.toList h
  rw [String.toList_intercalate, String.toList_intercalate] at hchars
  have hlists := intercalate_injective (entries hs) (entries ht) hchars
  exact List.map_injective_iff.mpr (fun _ _ => String.toList_injective) hlists

/-- A bracket that is closed at the end of a text is opened at one place. -/
theorem enclosed_unique {o c s s' t t' : String} {x : Char} (ho : o.toList = [x]) (hx : nesting x = 1)
    (ht : Balanced t.toList) (ht' : Balanced t'.toList)
    (h : s ++ o ++ t ++ c = s' ++ o ++ t' ++ c) : s = s' ∧ t = t' := by
  have hchars : s.toList ++ x :: t.toList = s'.toList ++ x :: t'.toList := by
    have := congrArg String.toList h
    simp only [String.toList_append, ho] at this
    simpa using List.append_cancel_right this
  obtain ⟨hs, ht⟩ := open_unique hx ht ht' hchars
  exact ⟨String.toList_injective hs, String.toList_injective ht⟩

/-! ### Below constness and aliases -/

theorem closer_strip (t : SourceType) : t.strip.closer = t.closer := by
  match t with
  | .const inner => exact closer_strip inner
  | .alias _ target => exact closer_strip target
  | .void | .scalar _ | .pointer _ | .array .. | .aggregate .. | .function .. | .templateParam _ => rfl

theorem plain_strip (t : SourceType) : t.strip.plain = t.plain := by
  match t with
  | .const inner => exact plain_strip inner
  | .alias _ target => exact plain_strip target
  | .void | .scalar _ | .pointer _ | .array .. | .aggregate .. | .function .. | .templateParam _ => rfl

theorem wellNamed_strip (t : SourceType) : t.strip.wellNamed = t.wellNamed := by
  match t with
  | .const inner => exact wellNamed_strip inner
  | .alias _ target => exact wellNamed_strip target
  | .void | .scalar _ | .pointer _ | .array .. | .aggregate .. | .function .. | .templateParam _ => rfl

/-- A type is built by one of the four constructors that leave a mark, or its text is a word. -/
theorem strip_cases (t : SourceType) :
    (∃ u, t.strip = .pointer u) ∨ (∃ u length, t.strip = .array u length) ∨
      (∃ name arg rest, t.strip = .aggregate name (arg :: rest)) ∨
      (∃ ret params variadic, t.strip = .function ret params variadic) ∨ t.strip.closer = none := by
  match t with
  | .pointer u => exact .inl ⟨u, rfl⟩
  | .array u length => exact .inr (.inl ⟨u, length, rfl⟩)
  | .aggregate name (arg :: rest) => exact .inr (.inr (.inl ⟨name, arg, rest, rfl⟩))
  | .function ret params variadic => exact .inr (.inr (.inr (.inl ⟨ret, params, variadic, rfl⟩)))
  | .const inner => exact strip_cases inner
  | .alias _ target => exact strip_cases target
  | .void | .scalar _ | .aggregate _ [] | .templateParam _ => exact .inr (.inr (.inr (.inr rfl)))

theorem named_scalar (kind : Scalar) : named kind.name = .scalar kind := by
  cases kind <;> rfl

/-- A word says which type it is. -/
theorem plain_of_closer_none {t : SourceType} (h : wellNamed t) (hc : closer t = none) :
    t.plain = named t.canonical := by
  match t with
  | .void => rfl
  | .scalar kind => exact (named_scalar kind).symm
  | .aggregate name [] =>
    have hname : isName name := by simpa [wellNamed, argsWellNamed] using h
    simp [plain, plainArgs, canonical, isName.named hname]
  | .templateParam name => simp [plain, canonical, isName.named h]
  | .const inner => exact plain_of_closer_none (t := inner) h hc
  | .alias _ target => exact plain_of_closer_none (t := target) h hc

/-- A word that is a type begins like a name and is no truth value. -/
theorem word_of_closer_none {t : SourceType} (h : wellNamed t) (hc : closer t = none) :
    startsName t.canonical ∧ t.canonical ≠ "true" ∧ t.canonical ≠ "false" := by
  match t with
  | .void => simp [canonical, startsName]
  | .scalar kind => cases kind <;> simp [canonical, Scalar.name, startsName]
  | .aggregate name [] =>
    have hname : isName name := by simpa [wellNamed, argsWellNamed] using h
    exact ⟨isName.starts hname, (isName.not_word hname).2⟩
  | .templateParam name => exact ⟨isName.starts h, (isName.not_word h).2⟩
  | .const inner => exact word_of_closer_none (t := inner) h hc
  | .alias _ target => exact word_of_closer_none (t := target) h hc

/-- The text of a type is no value's. -/
theorem canonical_ne_value {t : SourceType} (h : wellNamed t) {value : ConstValue}
    (hv : value.isIntOrBool) : t.canonical ≠ value.text := by
  intro heq
  have hc : closer t = none := by
    rw [← lastMark_canonical h, heq]
    exact lastMark_of_unmarked (ConstValue.unmarked hv)
  obtain ⟨hstart, htrue, hfalse⟩ := word_of_closer_none h hc
  rw [heq] at hstart htrue hfalse
  obtain hn | hn | hn := ConstValue.not_name hv
  · exact absurd hstart (by simp [hn])
  · exact htrue hn
  · exact hfalse hn

/-- The dots of a variadic function are no parameter. -/
theorem paramTexts_injective {ps qs : List SourceType} {v w : Bool} (hp : allWellNamed ps)
    (hq : allWellNamed qs) (h : paramTexts ps v = paramTexts qs w) :
    ps.map canonical = qs.map canonical ∧ v = w := by
  have dots : ∀ {ts us : List SourceType}, allWellNamed us → paramTexts ts true ≠ paramTexts us false := by
    intro ts us hus heq
    have hmem : "..." ∈ us.map canonical := by
      have : "..." ∈ paramTexts ts true := by simp [paramTexts]
      rw [heq] at this
      simpa only [paramTexts, Bool.false_eq_true, if_false, List.append_nil] using this
    obtain ⟨u, hu, htext⟩ := List.mem_map.mp hmem
    have hc := lastMark_canonical (of_mem_allWellNamed hus hu)
    rw [htext] at hc
    obtain ⟨_, hs⟩ | ⟨_, _, hs⟩ | ⟨_, _, _, hs⟩ | ⟨_, _, _, hs⟩ | hs := strip_cases u <;>
      rw [← closer_strip, hs] at hc <;> simp [lastMark, closer, isMark] at hc
  match v, w with
  | true, true => exact ⟨List.append_cancel_right h, rfl⟩
  | false, false => exact ⟨List.append_cancel_right h, rfl⟩
  | true, false => exact absurd h (dots hq)
  | false, true => exact absurd h.symm (dots hp)

/-! ### One text, one type -/

mutual

/-- The induction is on one of the types; the mark at the end of the common text says how the other one is
built below its constness and aliases. -/
theorem plain_eq_of_canonical_eq {a b : SourceType} (ha : wellNamed a) (hb : wellNamed b)
    (h : a.canonical = b.canonical) : a.plain = b.plain := by
  have hc : b.strip.closer = a.closer := by
    rw [closer_strip, ← lastMark_canonical hb, ← h, lastMark_canonical ha]
  have hcases := strip_cases b
  rw [← wellNamed_strip] at hb
  rw [← canonical_strip b] at h
  rw [← plain_strip b]
  generalize b.strip = u at hc hcases hb h ⊢
  match a with
  | .const inner => exact plain_eq_of_canonical_eq (a := inner) ha hb h
  | .alias _ target => exact plain_eq_of_canonical_eq (a := target) ha hb h
  | .pointer target =>
    obtain ⟨u, rfl⟩ | ⟨_, _, rfl⟩ | ⟨_, _, _, rfl⟩ | ⟨_, _, _, rfl⟩ | hu := hcases
    · have htext : target.canonical = u.canonical := by simpa [canonical] using h
      rw [plain, plain, plain_eq_of_canonical_eq (a := target) (b := u) ha hb htext]
    all_goals simp_all [closer]
  | .array element length =>
    obtain ⟨_, rfl⟩ | ⟨u, m, rfl⟩ | ⟨_, _, _, rfl⟩ | ⟨_, _, _, rfl⟩ | hu := hcases
    · simp [closer] at hc
    · simp only [wellNamed, Bool.and_eq_true] at ha hb
      obtain ⟨helement, hlength⟩ := enclosed_unique (x := '[') rfl rfl
        (ArrayLength.unmarked ha.2).flat.balanced (ArrayLength.unmarked hb.2).flat.balanced h
      rw [plain, plain, plain_eq_of_canonical_eq ha.1 hb.1 helement,
        ArrayLength.eq_of_text_eq ha.2 hb.2 hlength]
    all_goals simp_all [closer]
  | .aggregate name (arg :: rest) =>
    obtain ⟨_, rfl⟩ | ⟨_, _, rfl⟩ | ⟨name', arg', rest', rfl⟩ | ⟨_, _, _, rfl⟩ | hu := hcases
    · simp [closer] at hc
    · simp [closer] at hc
    · simp only [wellNamed, Bool.and_eq_true] at ha hb
      rw [canonical_generic, canonical_generic] at h
      obtain ⟨rfl, hargs⟩ := enclosed_unique (x := '<') rfl rfl
        (balanced_intercalate (isEntry_args ha.2)) (balanced_intercalate (isEntry_args hb.2)) h
      have htexts := intercalate_texts_injective (isEntry_args ha.2) (isEntry_args hb.2) hargs
      rw [plain, plain, plainArgs_eq_of_texts_eq ha.2 hb.2 htexts]
    all_goals simp_all [closer]
  | .function ret params variadic =>
    obtain ⟨_, rfl⟩ | ⟨_, _, rfl⟩ | ⟨_, _, _, rfl⟩ | ⟨ret', params', variadic', rfl⟩ | hu := hcases
    · simp [closer] at hc
    · simp [closer] at hc
    · simp [closer] at hc
    · simp only [wellNamed, Bool.and_eq_true] at ha hb
      rw [canonical_function, canonical_function] at h
      have hps := isEntry_paramTexts (isEntry_types ha.2) variadic
      have hqs := isEntry_paramTexts (isEntry_types hb.2) variadic'
      obtain ⟨hret, hparams⟩ := enclosed_unique (x := '(') rfl rfl (balanced_intercalate hps)
        (balanced_intercalate hqs) h
      obtain ⟨htexts, rfl⟩ := paramTexts_injective ha.2 hb.2
        (intercalate_texts_injective hps hqs hparams)
      rw [plain, plain, plain_eq_of_canonical_eq ha.1 hb.1 hret,
        plainTypes_eq_of_texts_eq ha.2 hb.2 htexts]
    · simp_all [closer]
  | .void | .scalar _ | .aggregate _ [] | .templateParam _ =>
    rw [plain_of_closer_none ha rfl, plain_of_closer_none hb hc, h]
termination_by structural a

theorem plainArg_eq_of_text_eq {x y : TemplateArg} (hx : argWellNamed x) (hy : argWellNamed y)
    (h : argText x = argText y) : plainArg x = plainArg y := by
  match x, y with
  | .type s, .type t =>
    have hst := plain_eq_of_canonical_eq (a := s) (b := t) hx hy h
    rw [plainArg, plainArg, hst]
  | .value v, .value w => rw [plainArg, plainArg, ConstValue.plain_eq_of_text_eq hx hy h]
  | .type s, .value w => exact absurd h (canonical_ne_value (t := s) hx hy)
  | .value v, .type t => exact absurd h.symm (canonical_ne_value (t := t) hy hx)
termination_by structural x

theorem plainArgs_eq_of_texts_eq {xs ys : List TemplateArg} (hx : argsWellNamed xs)
    (hy : argsWellNamed ys) (h : xs.map argText = ys.map argText) : plainArgs xs = plainArgs ys := by
  match xs, ys with
  | [], [] => rfl
  | x :: xs, y :: ys =>
    simp only [argsWellNamed, Bool.and_eq_true] at hx hy
    simp only [List.map_cons, List.cons.injEq] at h
    rw [plainArgs, plainArgs, plainArg_eq_of_text_eq hx.1 hy.1 h.1,
      plainArgs_eq_of_texts_eq hx.2 hy.2 h.2]
termination_by structural xs

theorem plainTypes_eq_of_texts_eq {ps qs : List SourceType} (hp : allWellNamed ps)
    (hq : allWellNamed qs) (h : ps.map canonical = qs.map canonical) :
    plainTypes ps = plainTypes qs := by
  match ps, qs with
  | [], [] => rfl
  | p :: ps, q :: qs =>
    simp only [allWellNamed, Bool.and_eq_true] at hp hq
    simp only [List.map_cons, List.cons.injEq] at h
    rw [plainTypes, plainTypes, plain_eq_of_canonical_eq hp.1 hq.1 h.1,
      plainTypes_eq_of_texts_eq hp.2 hq.2 h.2]
termination_by structural ps

end

/-- Canonical texts identify types: two well-named types are the same exactly when they are equal up to
constness, aliases, the kinds of integer arguments and template parameters read as bare names. -/
theorem canonical_eq_iff_plain_eq {a b : SourceType} (ha : wellNamed a) (hb : wellNamed b) :
    (a.canonical = b.canonical ↔ a.plain = b.plain) ∧ (a.sameAs b = true ↔ a.plain = b.plain) := by
  have htexts : a.canonical = b.canonical ↔ a.plain = b.plain := by
    constructor
    · exact plain_eq_of_canonical_eq ha hb
    · intro h
      rw [← canonical_plain a, h, canonical_plain b]
  constructor
  · exact htexts
  · rw [sameAs, beq_iff_eq]
    exact htexts

/-- A variadic function of boxes, written once with an alias and once with a qualifier. -/
theorem canonical_eq_of_boxes :
    let size : SourceType := .aggregate "N::Box" [.type .int, .value (.int 3 .long)]
    let box : SourceType := .aggregate "N::Box" [.type (.const .int), .value (.int 3 .int)]
    let f : SourceType := .function (.const .int) [.alias "Size" size, .pointer (.templateParam "T")] true
    let g : SourceType := .function .int [box, .pointer (.aggregate "T" [])] true
    f.wellNamed ∧ g.wellNamed ∧ f.canonical = g.canonical :=
  ⟨by decide +kernel, by decide +kernel,
    (canonical_eq_iff_plain_eq (by decide +kernel) (by decide +kernel)).1.mpr rfl⟩

end SourceType
end UnitCompiler
