import Mathlib.Algebra.Order.Group.Nat
import Mathlib.Data.List.Induction
import UnitCompiler.Compile.Scope

/-!
# Histories of scopes

What has been done to a scope says which frames are open, which variables each of them holds, and which of
these has ever been the visible one of its name when that name was marked.  Nothing of this refers to how
scopes keep their frames.
-/

namespace UnitCompiler
namespace Scope

/-- An operation on a scope. -/
inductive Op where
  | push
  | pop
  | declare (v : LocalVar)
  | lookup (name : String)
  | markUsed (name : String)
  | declareAlias (name : String) (entry : AliasEntry)
  | alias (name : String)

/-- The scope after an operation.  A declaration that fails leaves it as it was. -/
def act (s : Scope) : Op → Scope
  | .push => s.push
  | .pop => s.pop.2
  | .declare v => (s.declare v).getD s
  | .markUsed name => s.markUsed name
  | .declareAlias name entry => (s.declareAlias name entry).2
  | .lookup _ | .alias _ => s

def after (s : Scope) (ops : List Op) : Scope := ops.foldl act s

/-- The scope that a history leads to. -/
def run (h : List Op) : Scope := after {} h

theorem after_append (s : Scope) (ops ops' : List Op) : s.after (ops ++ ops') = (s.after ops).after ops' :=
  List.foldl_append

theorem run_concat (h : List Op) (op : Op) : run (h ++ [op]) = (run h).act op := after_append {} h [op]

/-! ### What histories say -/

/-- The number of open frames.  There is nothing to close where none is open. -/
def depth (h : List Op) : Nat :=
  h.foldl (fun d op => match op with
    | .push => d + 1
    | .pop => d - 1
    | _ => d) 0

/-- The frame that is the innermost one after `k` operations has not been closed since. -/
def Lasts (h : List Op) (k : Nat) : Prop :=
  ∀ m, k ≤ m → m ≤ h.length → depth (h.take k) ≤ depth (h.take m)

/-- Operation number `k` declares a variable: a frame is open, and in the innermost one no variable of the
name has been declared before. -/
structure Declares (h : List Op) (k : Nat) (v : LocalVar) : Prop where
  op : h[k]? = some (.declare v)
  inside : 0 < depth (h.take k)
  first : ∀ j w, j < k → h[j]? = some (.declare w) → w.name = v.name →
    depth (h.take j) = depth (h.take k) → ¬Lasts (h.take k) j

/-- Open frame number `d`, from the outermost one on, holds a variable that operation `k` has declared. -/
structure Holds (h : List Op) (d k : Nat) (v : LocalVar) : Prop where
  declares : Declares h k v
  depth_eq : depth (h.take k) = d
  lasts : Lasts h k

/-- The variable is the one of its name in the innermost open frame that holds one. -/
structure Visible (h : List Op) (name : String) (k : Nat) (v : LocalVar) : Prop where
  name_eq : v.name = name
  innermost : ∃ d, Holds h d k v ∧ ∀ d' k' w, Holds h d' k' w → w.name = name → d' ≤ d

/-- The name of the variable has been marked while the variable was the visible one. -/
def Marked (h : List Op) (k : Nat) : Prop :=
  ∃ before name later v, h = before ++ .markUsed name :: later ∧ Visible before name k v

/-- The variable as it was declared, but for a flag that says whether it has been used since or was declared
as used. -/
structure Flagged (v : LocalVar) (used : Prop) (w : LocalVar) : Prop where
  same : w = { v with isUsed := w.isUsed }
  used_iff : w.isUsed = true ↔ v.isUsed = true ∨ used

theorem Flagged.name_eq {v w : LocalVar} {used : Prop} (h : Flagged v used w) : w.name = v.name := by
  rw [h.same]

theorem Flagged.unique {v w w' : LocalVar} {used : Prop} (h : Flagged v used w) (h' : Flagged v used w') :
    w = w' := by
  have hused : w.isUsed = w'.isUsed := Bool.eq_iff_iff.mpr (h.used_iff.trans h'.used_iff.symm)
  rw [h.same, h'.same, hused]

theorem Flagged.congr {v w : LocalVar} {used used' : Prop} (h : Flagged v used w) (hiff : used' ↔ used) :
    Flagged v used' w :=
  ⟨h.same, h.used_iff.trans (or_congr_right hiff.symm)⟩

section Histories

variable {h : List Op} {op : Op} {d d' k k' : Nat} {v w : LocalVar} {name : String}

theorem depth_concat (h : List Op) (op : Op) : depth (h ++ [op]) = match op with
    | .push => depth h + 1
    | .pop => depth h - 1
    | _ => depth h := by
  rw [depth, List.foldl_append]
  rfl

theorem Declares.lt (hk : Declares h k v) : k < h.length :=
  (List.getElem?_eq_some_iff.mp hk.op).1

theorem Holds.lt (hv : Holds h d k v) : k < h.length := hv.declares.lt

theorem Holds.le_depth (hv : Holds h d k v) : d ≤ depth h := by
  have hle := hv.lasts h.length hv.lt.le le_rfl
  rw [List.take_length, hv.depth_eq] at hle
  exact hle

theorem Holds.pos (hv : Holds h d k v) : 0 < d := hv.depth_eq ▸ hv.declares.inside

theorem Holds.same (hv : Holds h d k v) (hw : Holds h d' k w) : d = d' ∧ v = w := by
  refine ⟨hv.depth_eq.symm.trans hw.depth_eq, ?_⟩
  have heq := hv.declares.op.symm.trans hw.declares.op
  simpa using heq

/-- Operations at the end do not change what was so at the point before them. -/
theorem Lasts.take (hk : Lasts h k) (hle : k ≤ k') : Lasts (h.take k') k := by
  intro m hkm hm
  rw [List.length_take] at hm
  rw [List.take_take, List.take_take, min_eq_left hle, min_eq_left (hm.trans (min_le_left _ _))]
  exact hk m hkm (hm.trans (min_le_right _ _))

/-- A frame holds one variable of a name. -/
theorem Holds.unique (hv : Holds h d k v) (hw : Holds h d k' w) (hname : v.name = w.name) : k = k' := by
  have hnot {k k' : Nat} {v w : LocalVar} (hv : Holds h d k v) (hw : Holds h d k' w) (hname : v.name = w.name) :
      ¬k < k' := by
    intro hlt
    exact hw.declares.first k v hlt hv.declares.op hname (hv.depth_eq.trans hw.depth_eq.symm)
      (hv.lasts.take hlt.le)
  have := hnot hv hw hname
  have := hnot hw hv hname.symm
  omega

theorem Visible.unique (hv : Visible h name k v) (hw : Visible h name k' w) : k = k' ∧ v = w := by
  obtain ⟨d, hheld, hmax⟩ := hv.innermost
  obtain ⟨d', hheld', hmax'⟩ := hw.innermost
  obtain rfl : d = d' :=
    le_antisymm (hmax' d k v hheld hv.name_eq) (hmax d' k' w hheld' hw.name_eq)
  obtain rfl := hheld.unique hheld' (hv.name_eq.trans hw.name_eq.symm)
  exact ⟨rfl, (hheld.same hheld').2⟩

theorem Marked.lt (hk : Marked h k) : k < h.length := by
  obtain ⟨before, name, later, v, rfl, hvisible⟩ := hk
  obtain ⟨d, hheld, -⟩ := hvisible.innermost
  have := hheld.lt
  rw [List.length_append]
  omega

/-! ### One more operation -/

theorem take_concat_of_le (hk : k ≤ h.length) : (h ++ [op]).take k = h.take k :=
  List.take_append_of_le_length hk

theorem lasts_concat (hk : k ≤ h.length) :
    Lasts (h ++ [op]) k ↔ Lasts h k ∧ depth (h.take k) ≤ depth (h ++ [op]) := by
  have hall : (h ++ [op]).take (h.length + 1) = h ++ [op] := List.take_of_length_le (by simp)
  unfold Lasts
  rw [take_concat_of_le hk, List.length_append, List.length_singleton]
  constructor
  · intro hlasts
    refine ⟨fun m hkm hm => ?_, ?_⟩
    · have := hlasts m hkm (hm.trans (Nat.le_succ _))
      rwa [take_concat_of_le hm] at this
    · have := hlasts (h.length + 1) (hk.trans (Nat.le_succ _)) le_rfl
      rwa [hall] at this
  · rintro ⟨hlasts, hend⟩ m hkm hm
    obtain hm | rfl := Nat.le_succ_iff.mp hm
    · rw [take_concat_of_le hm]
      exact hlasts m hkm hm
    · rw [hall]
      exact hend

theorem declares_concat (hk : k < h.length) : Declares (h ++ [op]) k v ↔ Declares h k v := by
  have hop {j : Nat} (hj : j < h.length) : (h ++ [op])[j]? = h[j]? := List.getElem?_append_left hj
  constructor
  · rintro ⟨hdeclare, hinside, hfirst⟩
    rw [hop hk] at hdeclare
    rw [take_concat_of_le hk.le] at hinside hfirst
    refine ⟨hdeclare, hinside, fun j w hj hw hname hdepth => ?_⟩
    refine hfirst j w hj ?_ hname ?_
    · rw [hop (hj.trans hk)]
      exact hw
    · rw [take_concat_of_le (hj.trans hk).le]
      exact hdepth
  · rintro ⟨hdeclare, hinside, hfirst⟩
    refine ⟨(hop hk).trans hdeclare, ?_, fun j w hj hw hname hdepth => ?_⟩
    · rwa [take_concat_of_le hk.le]
    · rw [hop (hj.trans hk)] at hw
      rw [take_concat_of_le (hj.trans hk).le, take_concat_of_le hk.le] at hdepth
      rw [take_concat_of_le hk.le]
      exact hfirst j w hj hw hname hdepth

/-- Whoever tries to declare a name in the innermost frame finds or leaves a variable of the name there. -/
theorem exists_holds_of_attempt (hv : h[k]? = some (.declare v)) (hinside : 0 < depth h)
    (hdepth : depth (h.take k) = depth h) (hlasts : Lasts h k) :
    ∃ j w, Holds h (depth h) j w ∧ w.name = v.name := by
  induction k using Nat.strong_induction_on generalizing v with
  | _ k ih =>
    by_cases hfirst : ∀ j w, j < k → h[j]? = some (.declare w) → w.name = v.name →
        depth (h.take j) = depth (h.take k) → ¬Lasts (h.take k) j
    · exact ⟨k, v, ⟨⟨hv, hdepth ▸ hinside, hfirst⟩, hdepth, hlasts⟩, rfl⟩
    · push Not at hfirst
      obtain ⟨j, w, hj, hw, hname, hsame, hbefore⟩ := hfirst
      have hlasts' : Lasts h j := by
        intro m hjm hm
        obtain hmk | hkm := le_total m k
        · have hlen : m ≤ (h.take k).length := by
            rw [List.length_take]
            exact le_min hmk hm
          have := hbefore m hjm hlen
          rwa [List.take_take, List.take_take, min_eq_left hj.le, min_eq_left hmk] at this
        · rw [hsame]
          exact hlasts m hkm hm
      obtain ⟨i, u, hu, huname⟩ := ih j hj hw (hsame.trans hdepth) hlasts'
      exact ⟨i, u, hu, huname.trans hname⟩

/-- The innermost frame holds no variable of the name. -/
def Fresh (h : List Op) (name : String) : Prop := ∀ k w, Holds h (depth h) k w → w.name ≠ name

/-- Open frames hold what they held before and a variable that has been declared just now. -/
theorem holds_concat : Holds (h ++ [op]) d k v ↔
    Holds h d k v ∧ d ≤ depth (h ++ [op]) ∨
      op = .declare v ∧ k = h.length ∧ d = depth h ∧ 0 < depth h ∧ Fresh h v.name := by
  constructor
  · intro hv
    have hk := hv.lt
    rw [List.length_append, List.length_singleton] at hk
    obtain hk | rfl := Nat.lt_succ_iff_lt_or_eq.mp hk
    · have hdepth := hv.depth_eq
      rw [take_concat_of_le hk.le] at hdepth
      exact .inl ⟨⟨(declares_concat hk).mp hv.declares, hdepth, ((lasts_concat hk.le).mp hv.lasts).1⟩,
        hv.le_depth⟩
    · obtain ⟨⟨hop, hinside, hfirst⟩, hdepth, -⟩ := hv
      rw [List.take_left] at hinside hfirst hdepth
      refine .inr ⟨by simpa using hop, rfl, hdepth.symm, hinside, fun j w hw hname => ?_⟩
      refine hfirst j w hw.lt ?_ hname ?_ hw.lasts
      · rw [List.getElem?_append_left hw.lt]
        exact hw.declares.op
      · rw [take_concat_of_le hw.lt.le]
        exact hw.depth_eq
  · rintro (⟨hv, hle⟩ | ⟨rfl, rfl, rfl, hinside, hfresh⟩)
    · refine ⟨(declares_concat hv.lt).mpr hv.declares, ?_, (lasts_concat hv.lt.le).mpr ⟨hv.lasts, ?_⟩⟩
      · rw [take_concat_of_le hv.lt.le]
        exact hv.depth_eq
      · rw [hv.depth_eq]
        exact hle
    · refine ⟨⟨by simp, by rwa [List.take_left], ?_⟩, by rw [List.take_left], ?_⟩
      · intro j w hj hw hname hdepth hlasts
        rw [List.getElem?_append_left hj] at hw
        rw [take_concat_of_le hj.le, List.take_left] at hdepth
        rw [List.take_left] at hlasts
        obtain ⟨i, u, hu, huname⟩ := exists_holds_of_attempt hw hinside hdepth hlasts
        exact hfresh i u hu (huname.trans hname)
      · refine (lasts_concat le_rfl).mpr ⟨fun m hm hm' => ?_, ?_⟩
        · rw [le_antisymm hm' hm]
        · rw [List.take_length]
          exact (depth_concat h (.declare v)).ge

theorem marked_concat : Marked (h ++ [op]) k ↔
    Marked h k ∨ ∃ name v, op = .markUsed name ∧ Visible h name k v := by
  constructor
  · rintro ⟨before, name, later, v, heq, hvisible⟩
    obtain rfl | ⟨later, last, rfl⟩ := List.eq_nil_or_concat later
    · obtain ⟨rfl, hop⟩ := List.append_inj' heq rfl
      exact .inr ⟨name, v, by simpa using hop, hvisible⟩
    · rw [List.concat_eq_append, ← List.cons_append, ← List.append_assoc] at heq
      obtain ⟨rfl, -⟩ := List.append_inj' heq rfl
      exact .inl ⟨before, name, later, v, rfl, hvisible⟩
  · rintro (⟨before, name, later, v, rfl, hvisible⟩ | ⟨name, v, rfl, hvisible⟩)
    · exact ⟨before, name, later ++ [op], v, by simp, hvisible⟩
    · exact ⟨h, name, [], v, rfl, hvisible⟩

end Histories

end Scope
end UnitCompiler
