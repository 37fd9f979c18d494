import Mathlib
import UnitCompiler.Proofs.Types.Canonical
import UnitCompiler.Types.Signature

/-!
# Signatures tell parameter lists apart

The encodings of a parameter list are joined by underscores.  Where no aggregate outside template
arguments has an underscore in its name, a signature can be read back, up to the sameness of types.
-/

namespace UnitCompiler

open Bracketed

namespace SourceType

mutual

/-- No template parameter is left in the type, and every length is a number. -/
def resolved : SourceType → Bool
  | .void | .scalar _ => true
  | .pointer inner | .const inner => resolved inner
  | .array element length => (length matches .fixed _) && resolved element
  | .aggregate _ args => argsResolved args
  | .function ret params _ => resolved ret && allResolved params
  | .templateParam _ => false
  | .alias _ target => resolved target

def argResolved : TemplateArg → Bool
  | .type type => resolved type
  | .value _ => true

def argsResolved : List TemplateArg → Bool
  | [] => true
  | arg :: rest => argResolved arg && argsResolved rest

def allResolved : List SourceType → Bool
  | [] => true
  | type :: rest => resolved type && allResolved rest

end

mutual

/-- No aggregate outside template arguments has an underscore in its name. -/
def unscored : SourceType → Bool
  | .void | .scalar _ | .templateParam _ => true
  | .pointer inner | .const inner | .array inner _ | .alias _ inner => unscored inner
  | .aggregate name _ => '_' ∉ name.toList
  | .function ret params _ => unscored ret && allUnscored params

def allUnscored : List SourceType → Bool
  | [] => true
  | type :: rest => unscored type && allUnscored rest

end

/-- A type that can stand in a signature that is to be read back. -/
def signable (t : SourceType) : Bool := t.wellNamed && t.resolved && t.unscored

def allSignable (types : List SourceType) : Bool :=
  allWellNamed types && allResolved types && allUnscored types

theorem signable_array {element : SourceType} {n : Nat} :
    signable (.array element (.fixed n)) = signable element := by
  simp [signable, wellNamed, resolved, unscored, ArrayLength.wellNamed]

theorem signable_function {ret : SourceType} {params : List SourceType} {variadic : Bool}
    (h : signable (.function ret params variadic)) : signable ret ∧ allSignable params := by
  simp only [signable, allSignable, wellNamed, resolved, unscored, Bool.and_eq_true] at h ⊢
  exact ⟨⟨⟨h.1.1.1, h.1.2.1⟩, h.2.1⟩, ⟨h.1.1.2, h.1.2.2⟩, h.2.2⟩

theorem allSignable_cons {type : SourceType} {rest : List SourceType}
    (h : allSignable (type :: rest)) : signable type ∧ allSignable rest := by
  simp only [signable, allSignable, allWellNamed, allResolved, allUnscored, Bool.and_eq_true] at h ⊢
  exact ⟨⟨⟨h.1.1.1, h.1.2.1⟩, h.2.1⟩, ⟨h.1.1.2, h.1.2.2⟩, h.2.2⟩

theorem encode_strip (t : SourceType) : t.strip.encode = t.encode := by
  match t with
  | .const inner => simpa [encode] using encode_strip inner
  | .alias _ target => simpa [encode] using encode_strip target
  | .void | .scalar _ | .pointer _ | .array .. | .aggregate .. | .function .. | .templateParam _ => rfl

theorem encodeList_eq_behind (types : List SourceType) :
    (encodeList types).toList = behind '_' (types.map (·.encode.toList)) := by
  induction types with
  | nil => rfl
  | cons type rest ih => simp [encodeList, String.toList_append, ih]

/-! ### Types that are the same are encoded alike -/

mutual

theorem encode_plain {t : SourceType} (h : t.resolved) : t.plain.encode = t.encode := by
  match t with
  | .void | .scalar _ => rfl
  | .pointer target => rw [plain, encode, encode, encode_plain (t := target) h]
  | .array element (.fixed n) =>
    simp only [resolved, Bool.and_eq_true] at h
    rw [plain, encode, encode, encode_plain h.2]
  | .aggregate name args =>
    have := canonical_plain (.aggregate name args)
    rw [plain] at this ⊢
    rw [encode, encode, this]
  | .const inner => simpa [plain, encode] using encode_plain (t := inner) h
  | .function ret params variadic =>
    simp only [resolved, Bool.and_eq_true] at h
    rw [plain, encode, encode, encode_plain h.1, encodeList_plainTypes h.2]
  | .alias _ target => simpa [plain, encode] using encode_plain (t := target) h

theorem encodeList_plainTypes {types : List SourceType} (h : allResolved types) :
    encodeList (plainTypes types) = encodeList types := by
  match types with
  | [] => rfl
  | type :: rest =>
    simp only [allResolved, Bool.and_eq_true] at h
    rw [plainTypes, encodeList, encodeList, encode_plain h.1, encodeList_plainTypes h.2]

end

/-! ### The first character of an encoding -/

end SourceType

/-- The first character of the code of a kind. -/
def Scalar.initial (kind : Scalar) : Char := kind.code.toList.headD ' '

theorem Scalar.ne_initial (kind : Scalar) :
    'v' ≠ kind.initial ∧ 'p' ≠ kind.initial ∧ 'a' ≠ kind.initial ∧ 's' ≠ kind.initial ∧
      'F' ≠ kind.initial := by
  cases kind <;> decide

theorem Scalar.code_injective {j k : Scalar} (h : j.code = k.code) : j = k := by
  have found : ∀ i : Scalar, all.find? (·.code == i.code) = some i := by
    intro i
    cases i <;> rfl
  have := found j
  rw [h, found k] at this
  exact (Option.some.inj this).symm

namespace SourceType

/-- The character a resolved type is encoded behind. -/
def tag : SourceType → Char
  | .void => 'v'
  | .scalar kind => kind.initial
  | .pointer _ => 'p'
  | .array .. => 'a'
  | .aggregate .. => 's'
  | .function .. => 'F'
  | .templateParam _ => 't'
  | .const inner | .alias _ inner => tag inner

theorem head?_encode (t : SourceType) : t.encode.toList.head? = some t.tag := by
  match t with
  | .scalar kind => cases kind <;> rfl
  | .array _ (.fixed _) | .array _ (.param _) | .array _ (.expr _) => simp [encode, tag, String.toList_append]
  | .void => rfl
  | .pointer _ | .aggregate .. | .templateParam _ => simp [encode, tag, String.toList_append]
  | .function .. => simp [encode, tag, String.toList_append]
  | .const inner => simpa [encode, tag] using head?_encode inner
  | .alias _ target => simpa [encode, tag] using head?_encode target

theorem tag_strip (t : SourceType) : t.strip.tag = t.tag := by
  match t with
  | .const inner => simpa [tag] using tag_strip inner
  | .alias _ target => simpa [tag] using tag_strip target
  | .void | .scalar _ | .pointer _ | .array .. | .aggregate .. | .function .. | .templateParam _ => rfl

theorem tag_not_digit (t : SourceType) : t.tag.isDigit = false := by
  match t with
  | .scalar kind => cases kind <;> rfl
  | .void | .pointer _ | .array .. | .aggregate .. | .function .. | .templateParam _ => rfl
  | .const inner => simpa [tag] using tag_not_digit inner
  | .alias _ target => simpa [tag] using tag_not_digit target

/-! ### An encoding is an item between underscores -/

theorem item_digits (n : Nat) : Item '_' (toString n).toList := by
  apply Item.of_flat (unmarked_nat n).flat
  intro h
  exact absurd (unmarked_digits n '_' h) (by decide)

theorem item_canonical_aggregate {name : String} {args : List TemplateArg}
    (h : wellNamed (.aggregate name args)) (hn : '_' ∉ name.toList) :
    Item '_' (canonical (.aggregate name args)).toList := by
  simp only [wellNamed, Bool.and_eq_true] at h
  have hname : Item '_' name.toList := .of_flat (isName.unmarked h.1).flat hn
  match args with
  | [] => simpa [canonical] using hname
  | arg :: rest =>
    have hargs := balanced_intercalate (isEntry_args h.2)
    have hbox := Item.enclose '_' (o := '<') (c := '>') rfl rfl rfl hargs
    rw [canonical_generic]
    simpa [String.toList_append] using hname.append hbox

mutual

theorem item_encode {t : SourceType} (hn : t.wellNamed) (hr : t.resolved) (hu : t.unscored) :
    Item '_' t.encode.toList := by
  match t with
  | .void => exact Item.of_flat (by simp [encode, Flat, nesting]) (by simp [encode])
  | .scalar kind =>
    apply Item.of_flat
    · cases kind <;> simp [encode, Scalar.code, Flat, nesting]
    · cases kind <;> simp [encode, Scalar.code]
  | .pointer target =>
    have hhead : Item '_' ['p'] := .of_flat (by simp [Flat, nesting]) (by simp)
    have := hhead.append (item_encode (t := target) hn hr hu)
    simpa [encode, String.toList_append] using this
  | .array element (.fixed n) =>
    simp only [wellNamed, resolved, Bool.and_eq_true] at hn hr
    have hhead : Item '_' ['a'] := .of_flat (by simp [Flat, nesting]) (by simp)
    have := (hhead.append (item_digits n)).append (item_encode (t := element) hn.1 hr.2 hu)
    simpa [encode, String.toList_append] using this
  | .aggregate name args =>
    have hhead : Item '_' ['s', '-'] := .of_flat (by simp [Flat, nesting]) (by simp)
    have hname : '_' ∉ name.toList := by simpa [unscored] using hu
    have := hhead.append (item_canonical_aggregate hn hname)
    simpa [encode, String.toList_append] using this
  | .const inner => simpa [encode] using item_encode (t := inner) hn hr hu
  | .function ret params variadic =>
    simp only [wellNamed, resolved, unscored, Bool.and_eq_true] at hn hr hu
    have hhead : Item '_' ['F'] := .of_flat (by simp [Flat, nesting]) (by simp)
    have hret := item_encode hn.1 hr.1 hu.1
    have hparams := balanced_encodeList hn.2 hr.2 hu.2
    have hbox := Item.enclose '_' (o := '[') (c := ']') rfl rfl rfl hparams
    have hmark : Item '_' (if variadic then ['V'] else []) := by
      cases variadic
      · exact Item.of_flat (by simp [Flat]) (by simp)
      · exact Item.of_flat (by simp [Flat, nesting]) (by simp)
    have := (hhead.append hret).append (hbox.append hmark)
    cases variadic <;> simpa [encode, String.toList_append] using this
  | .alias _ target => simpa [encode] using item_encode (t := target) hn hr hu

theorem items_encode {types : List SourceType} (hn : allWellNamed types) (hr : allResolved types)
    (hu : allUnscored types) : ∀ w ∈ types.map (·.encode.toList), Item '_' w := by
  match types with
  | [] => simp
  | type :: rest =>
    simp only [allWellNamed, allResolved, allUnscored, Bool.and_eq_true] at hn hr hu
    rw [List.map_cons]
    exact List.forall_mem_cons.mpr ⟨item_encode hn.1 hr.1 hu.1, items_encode hn.2 hr.2 hu.2⟩

theorem balanced_encodeList {types : List SourceType} (hn : allWellNamed types)
    (hr : allResolved types) (hu : allUnscored types) : Balanced (encodeList types).toList := by
  rw [encodeList_eq_behind]
  apply Balanced.behind rfl
  intro w hw
  exact (items_encode hn hr hu w hw).balanced

end

theorem items_of_allSignable {types : List SourceType} (h : allSignable types) :
    ∀ w ∈ types.map (·.encode.toList), Item '_' w := by
  simp only [allSignable, Bool.and_eq_true] at h
  exact items_encode h.1.1 h.1.2 h.2

theorem balanced_of_allSignable {types : List SourceType} (h : allSignable types) :
    Balanced (encodeList types).toList := by
  simp only [allSignable, Bool.and_eq_true] at h
  exact balanced_encodeList h.1.1 h.1.2 h.2

/-! ### Reading an encoding back -/

/-- A number in front of something that is no digit is read back. -/
theorem digits_split {m n : Nat} {c d : Char} {v w : List Char} (hc : c.isDigit = false)
    (hd : d.isDigit = false) (h : (toString m).toList ++ c :: v = (toString n).toList ++ d :: w) :
    m = n ∧ c :: v = d :: w := by
  have number : ∀ (k : Nat) (e : Char) (x : List Char), e.isDigit = false →
      ((toString k).toList ++ e :: x).takeWhile (·.isDigit) = (toString k).toList := by
    intro k e x he
    rw [List.takeWhile_append_of_pos (unmarked_digits k)]
    simp [he]
  have hnum := congrArg (List.takeWhile (·.isDigit)) h
  rw [number m c v hc, number n d w hd] at hnum
  have hmn : m = n := Nat.repr_injective (String.toList_injective hnum)
  subst hmn
  exact ⟨rfl, List.append_cancel_left h⟩

theorem resolved_strip (t : SourceType) : t.strip.resolved = t.resolved := by
  match t with
  | .const inner => exact resolved_strip inner
  | .alias _ target => exact resolved_strip target
  | .void | .scalar _ | .pointer _ | .array .. | .aggregate .. | .function .. | .templateParam _ => rfl

theorem unscored_strip (t : SourceType) : t.strip.unscored = t.unscored := by
  match t with
  | .const inner => exact unscored_strip inner
  | .alias _ target => exact unscored_strip target
  | .void | .scalar _ | .pointer _ | .array .. | .aggregate .. | .function .. | .templateParam _ => rfl

theorem signable_strip (t : SourceType) : t.strip.signable = t.signable := by
  rw [signable, wellNamed_strip, resolved_strip, unscored_strip]
  rfl

/-- The text of a signature's tail: what follows the return type of a function. -/
theorem toList_encode_function (ret : SourceType) (params : List SourceType) (variadic : Bool) :
    (encode (.function ret params variadic)).toList =
      ('F' :: ret.encode.toList) ++ '[' :: (encodeList params).toList ++
        (if variadic then [']', 'V'] else [']']) := by
  cases variadic <;> simp [encode, String.toList_append]

/-- Whether a function is variadic stands at the end of its encoding. -/
theorem variadic_of_encode {v w : Bool} {x y : List Char}
    (h : x ++ (if v then [']', 'V'] else [']']) = y ++ if w then [']', 'V'] else [']']) : v = w ∧ x = y := by
  have hlast := congrArg List.getLast? h
  have hvw : v = w := by cases v <;> cases w <;> simp [List.getLast?_append] at hlast ⊢
  subst hvw
  exact ⟨rfl, List.append_cancel_right h⟩

/-- How a resolved type is built below constness and aliases. -/
theorem resolved_cases {t : SourceType} (h : t.resolved) :
    t.strip = .void ∨ (∃ kind, t.strip = .scalar kind) ∨ (∃ u, t.strip = .pointer u) ∨
      (∃ u n, t.strip = .array u (.fixed n)) ∨ (∃ name args, t.strip = .aggregate name args) ∨
      ∃ ret params variadic, t.strip = .function ret params variadic := by
  match t with
  | .void => exact .inl rfl
  | .scalar kind => exact .inr (.inl ⟨kind, rfl⟩)
  | .pointer u => exact .inr (.inr (.inl ⟨u, rfl⟩))
  | .array u (.fixed n) => exact .inr (.inr (.inr (.inl ⟨u, n, rfl⟩)))
  | .aggregate name args => exact .inr (.inr (.inr (.inr (.inl ⟨name, args, rfl⟩))))
  | .function ret params variadic =>
    exact .inr (.inr (.inr (.inr (.inr ⟨ret, params, variadic, rfl⟩))))
  | .const inner => exact resolved_cases (t := inner) h
  | .alias _ target => exact resolved_cases (t := target) h

mutual

/-- The induction is on one of the types; the first character of the common encoding says how the other
one is built. -/
theorem canonical_eq_of_encode_eq {a b : SourceType} (ha : signable a) (hb : signable b)
    (h : a.encode = b.encode) : a.canonical = b.canonical := by
  have htag : a.tag = b.strip.tag := by
    have := head?_encode a
    rw [h, head?_encode b] at this
    rw [tag_strip]
    exact (Option.some.inj this).symm
  have hcases := resolved_cases (by simp only [signable, Bool.and_eq_true] at hb; exact hb.1.2)
  rw [← canonical_strip b]
  rw [← encode_strip b] at h
  rw [← signable_strip] at hb
  generalize b.strip = u at htag hcases hb h ⊢
  match a with
  | .const inner =>
    exact canonical_eq_of_encode_eq (a := inner) ha hb (by simpa [encode] using h)
  | .alias _ target =>
    exact canonical_eq_of_encode_eq (a := target) ha hb (by simpa [encode] using h)
  | .void =>
    obtain rfl | ⟨_, rfl⟩ | ⟨_, rfl⟩ | ⟨_, _, rfl⟩ | ⟨_, _, rfl⟩ | ⟨_, _, _, rfl⟩ := hcases
    · rfl
    all_goals simp [tag, Scalar.ne_initial] at htag
  | .scalar kind =>
    obtain rfl | ⟨_, rfl⟩ | ⟨_, rfl⟩ | ⟨_, _, rfl⟩ | ⟨_, _, rfl⟩ | ⟨_, _, _, rfl⟩ := hcases
    case inr.inl => rw [Scalar.code_injective h]
    all_goals exact absurd htag.symm (by simp [tag, Scalar.ne_initial])
  | .pointer target =>
    obtain rfl | ⟨_, rfl⟩ | ⟨u, rfl⟩ | ⟨_, _, rfl⟩ | ⟨_, _, rfl⟩ | ⟨_, _, _, rfl⟩ := hcases
    case inr.inr.inl =>
      have htarget : target.encode = u.encode := by simpa [encode] using h
      rw [canonical, canonical, canonical_eq_of_encode_eq (a := target) (b := u) ha hb htarget]
    all_goals simp [tag, Scalar.ne_initial] at htag
  | .array element (.fixed n) =>
    obtain rfl | ⟨_, rfl⟩ | ⟨_, rfl⟩ | ⟨u, m, rfl⟩ | ⟨_, _, rfl⟩ | ⟨_, _, _, rfl⟩ := hcases
    case inr.inr.inr.inl =>
      rw [signable_array] at ha hb
      obtain ⟨v, hv⟩ := List.head?_eq_some_iff.mp (head?_encode element)
      obtain ⟨w, hw⟩ := List.head?_eq_some_iff.mp (head?_encode u)
      have htext : (toString n).toList ++ element.tag :: v = (toString m).toList ++ u.tag :: w := by
        rw [← hv, ← hw]
        simpa [encode, String.toList_append] using congrArg String.toList h
      obtain ⟨rfl, helement⟩ := digits_split (tag_not_digit element) (tag_not_digit u) htext
      rw [← hv, ← hw] at helement
      have := canonical_eq_of_encode_eq ha hb (String.toList_injective helement)
      rw [canonical, canonical, this]
    all_goals simp [tag, Scalar.ne_initial] at htag
  | .aggregate name args =>
    obtain rfl | ⟨_, rfl⟩ | ⟨_, rfl⟩ | ⟨_, _, rfl⟩ | ⟨_, _, rfl⟩ | ⟨_, _, _, rfl⟩ := hcases
    case inr.inr.inr.inr.inl => simpa [encode] using h
    all_goals simp [tag, Scalar.ne_initial] at htag
  | .function ret params variadic =>
    obtain rfl | ⟨_, rfl⟩ | ⟨_, rfl⟩ | ⟨_, _, rfl⟩ | ⟨_, _, rfl⟩ | ⟨ret', params', variadic', rfl⟩ := hcases
    case inr.inr.inr.inr.inr =>
      obtain ⟨hret, hparams⟩ := signable_function ha
      obtain ⟨hret', hparams'⟩ := signable_function hb
      have htext := congrArg String.toList h
      rw [toList_encode_function, toList_encode_function] at htext
      obtain ⟨rfl, hbody⟩ := variadic_of_encode htext
      obtain ⟨hr, hp⟩ := open_unique rfl (balanced_of_allSignable hparams)
        (balanced_of_allSignable hparams') hbody
      have hrets := canonical_eq_of_encode_eq hret hret' (String.toList_injective (List.cons.inj hr).2)
      have htexts := texts_eq_of_encodeList_eq hparams hparams' (String.toList_injective hp)
      rw [canonical, canonical, typeTexts_eq_map, typeTexts_eq_map, hrets, htexts]
    all_goals simp [tag, Scalar.ne_initial] at htag
  | .array _ (.param _) | .array _ (.expr _) | .templateParam _ => simp [signable, resolved] at ha
termination_by structural a

theorem texts_eq_of_encodeList_eq {ps qs : List SourceType} (hp : allSignable ps)
    (hq : allSignable qs) (h : encodeList ps = encodeList qs) :
    ps.map canonical = qs.map canonical := by
  have hitems := congrArg String.toList h
  rw [encodeList_eq_behind, encodeList_eq_behind] at hitems
  have hwords := behind_injective (items_of_allSignable hp) (items_of_allSignable hq) hitems
  match ps, qs with
  | [], [] => rfl
  | p :: ps, q :: qs =>
    obtain ⟨hp, hps⟩ := allSignable_cons hp
    obtain ⟨hq, hqs⟩ := allSignable_cons hq
    simp only [List.map_cons, List.cons.injEq] at hwords
    have hrest : encodeList ps = encodeList qs := by
      apply String.toList_injective
      rw [encodeList_eq_behind, encodeList_eq_behind, hwords.2]
    rw [List.map_cons, List.map_cons,
      canonical_eq_of_encode_eq hp hq (String.toList_injective hwords.1),
      texts_eq_of_encodeList_eq hps hqs hrest]
termination_by structural ps

end

theorem encode_eq_of_canonical_eq {a b : SourceType} (ha : signable a) (hb : signable b)
    (h : a.canonical = b.canonical) : a.encode = b.encode := by
  simp only [signable, Bool.and_eq_true] at ha hb
  have hplain := plain_eq_of_canonical_eq ha.1.1 hb.1.1 h
  rw [← encode_plain ha.1.2, hplain, encode_plain hb.1.2]

theorem encodeList_eq_iff {ps qs : List SourceType} (hp : allSignable ps) (hq : allSignable qs) :
    encodeList ps = encodeList qs ↔ List.Forall₂ (fun p q => p.sameAs q = true) ps qs := by
  constructor
  · intro h
    have htexts := texts_eq_of_encodeList_eq hp hq h
    rw [← List.forall₂_eq_eq_eq, List.forall₂_map_left_iff, List.forall₂_map_right_iff] at htexts
    exact htexts.imp fun _ _ heq => by simpa [sameAs] using heq
  · intro h
    induction h with
    | nil => rfl
    | cons hsame _ ih =>
      obtain ⟨hp, hps⟩ := allSignable_cons hp
      obtain ⟨hq, hqs⟩ := allSignable_cons hq
      have hcanonical := by simpa [sameAs] using hsame
      rw [encodeList, encodeList, encode_eq_of_canonical_eq hp hq hcanonical, ih hps hqs]

end SourceType

open SourceType

/-- A signature, and the key of a function with a given name, tell which types the parameters are. -/
theorem signature_eq_iff_sameAs {ps qs : List SourceType} (hp : allSignable ps) (hq : allSignable qs) :
    (signature ps = signature qs ↔ List.Forall₂ (fun p q => p.sameAs q = true) ps qs) ∧
      ∀ name, functionKey name ps = functionKey name qs ↔
        List.Forall₂ (fun p q => p.sameAs q = true) ps qs := by
  have hsignature : signature ps = signature qs ↔ encodeList ps = encodeList qs := by
    constructor
    · intro h
      have hchars := congrArg String.toList h
      simp only [signature, String.toList_append] at hchars
      exact String.toList_injective (List.append_cancel_left (List.append_cancel_right hchars))
    · intro h
      rw [signature, signature, h]
  have hkey : ∀ name, functionKey name ps = functionKey name qs ↔ signature ps = signature qs := by
    intro name
    constructor
    · intro h
      have hchars := congrArg String.toList h
      simp only [functionKey, String.toList_append] at hchars
      exact String.toList_injective (List.append_cancel_left hchars)
    · intro h
      rw [functionKey, functionKey, h]
  constructor
  · rw [hsignature, encodeList_eq_iff hp hq]
  · intro name
    rw [hkey, hsignature, encodeList_eq_iff hp hq]

/-- Two functions that differ in what one of their parameters returns. -/
theorem signature_ne_of_callbacks :
    let ps : List SourceType := [.function .void [.int] true, .aggregate "N::Box" [.type .int]]
    let qs : List SourceType := [.function .int [.int] true, .aggregate "N::Box" [.type .int]]
    allSignable ps ∧ allSignable qs ∧ signature ps ≠ signature qs := by
  refine ⟨by decide +kernel, by decide +kernel, fun h => ?_⟩
  have hsame := (signature_eq_iff_sameAs (by decide +kernel) (by decide +kernel)).1.mp h
  exact absurd (List.forall₂_cons.mp hsame).1 (by decide)

/-- An underscore in a name reads like the border between two parameters. -/
example : signature [.aggregate "A" [], .int] = signature [.aggregate "A_i" []] := rfl

end UnitCompiler
