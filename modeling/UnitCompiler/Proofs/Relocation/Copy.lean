import Mathlib
import UnitCompiler.Proofs.Relocation.Tree

/-!
# Copying in relocated trees

A subtree copied in a tree and in the relocated tree gives the same copy, relocated.
-/

namespace UnitCompiler

namespace Relocation

variable {σ : Relocation}

/-- A node whose children are all below the base stays as it is. -/
theorem kind_of_lt {kind : NodeKind} (h : ∀ child ∈ kind.children, child.index < σ.base) :
    σ.kind kind = kind := by
  cases kind with
  | unary op operand | get operand name | cast type operand | defer operand | destroy operand =>
    simp only [Relocation.kind, node_of_lt (h operand (.head _))]
  | binary op lhs rhs | index lhs rhs | whileLoop lhs rhs =>
    simp only [Relocation.kind, node_of_lt (h lhs (.head _)), node_of_lt (h rhs (.tail _ (.head _)))]
  | call callee args =>
    simp only [Relocation.kind, node_of_lt (h callee (.head _)),
      map_node_of_lt fun id hid => h id (.tail _ hid)]
  | arrayLit values | aggregateLit type values | block values | space name values =>
    have hvalues : values.map σ.node = values := map_node_of_lt h
    simp only [Relocation.kind, hvalues]
  | builtin name args =>
    have hargs : args.map σ.builtinArg = args := by
      refine (List.map_congr_left fun arg harg => ?_).trans (List.map_id' _)
      cases arg with
      | type type => rfl
      | expr id =>
        rw [builtinArg, node_of_lt (h id (List.mem_filterMap.mpr ⟨_, harg, rfl⟩))]
    simp only [Relocation.kind, hargs]
  | ifElse cond yes no | staticIf cond yes no =>
    simp only [Relocation.kind, node_of_lt (h cond (.head _)), node_of_lt (h yes (.tail _ (.head _))),
      option_node_of_lt fun id hid => h id (.tail _ (.tail _ hid))]
  | forLoop init cond step body =>
    simp only [NodeKind.children, List.mem_append, List.mem_singleton] at h
    simp only [Relocation.kind, node_of_lt (h body (by simp)),
      option_node_of_lt fun id hid => h id (.inl (.inl (.inl hid))),
      option_node_of_lt fun id hid => h id (.inl (.inl (.inr hid))),
      option_node_of_lt fun id hid => h id (.inl (.inr hid))]
  | foreach name data length body =>
    simp only [NodeKind.children, List.cons_append, List.mem_cons, List.mem_append,
      List.not_mem_nil, or_false] at h
    simp only [Relocation.kind, node_of_lt (h data (.inl rfl)), node_of_lt (h body (.inr (.inr rfl))),
      option_node_of_lt fun id hid => h id (.inr (.inl hid))]
  | switch value cases default =>
    simp only [NodeKind.children, List.cons_append, List.mem_cons, List.mem_append, List.mem_flatMap,
      List.not_mem_nil, or_false] at h
    have hcases : cases.map σ.case = cases := by
      refine (List.map_congr_left fun case hcase => ?_).trans (List.map_id' _)
      rw [Relocation.case, node_of_lt (h _ (.inr (.inl ⟨case, hcase, .inl rfl⟩))),
        node_of_lt (h _ (.inr (.inl ⟨case, hcase, .inr rfl⟩)))]
    simp only [Relocation.kind, node_of_lt (h value (.inl rfl)), hcases,
      option_node_of_lt fun id hid => h id (.inr (.inr hid))]
  | ret value =>
    have hvalue : value.map σ.node = value := option_node_of_lt h
    simp only [Relocation.kind, hvalue]
  | «variable» decl =>
    have hinit : decl.init.map σ.node = decl.init := option_node_of_lt h
    simp only [Relocation.kind, variableDecl, hinit]
  | function decl =>
    have hbody : decl.body.map σ.node = decl.body := option_node_of_lt h
    simp only [Relocation.kind, functionDecl, hbody]
  | aggregate decl =>
    simp only [NodeKind.children, List.mem_append, List.mem_filterMap] at h
    have hfields : decl.fields.map σ.fieldDecl = decl.fields := by
      refine (List.map_congr_left fun field hfield => ?_).trans (List.map_id' _)
      rw [fieldDecl, option_node_of_lt fun id hid => h id (.inl ⟨field, hfield, by simpa using hid⟩)]
    simp only [Relocation.kind, aggregateDecl, hfields, map_node_of_lt fun id hid => h id (.inr hid)]
  | «alias» decl =>
    obtain ⟨name, target⟩ := decl
    cases target with
    | type type => rfl
    | value id => simp only [Relocation.kind, aliasDecl, aliasTarget, node_of_lt (h id (.head _))]
  | int _ | float _ | bool _ | char _ | str _ | null | ident _ _ | sizeOf _ | breakLoop
  | continueLoop => rfl

end Relocation

/-- A tree and its relocated form: the same files, and each node at its new number with its children
moved. -/
structure Tree.Relocated (σ : Relocation) (t u : Tree) : Prop where
  files : u.files = t.files
  base_le : σ.base ≤ t.size
  size : u.size = t.size + σ.gap
  node : ∀ id, u.node? (σ.node id) = (t.node? id).map fun n => { n with kind := σ.kind n.kind }

section Push

variable {σ : Relocation} {t u : Tree}

theorem Tree.Relocated.push (h : t.Relocated σ u) (kind : NodeKind) (span : Span) :
    (t.push kind span).2.Relocated σ (u.push (σ.kind kind) span).2 ∧
      (u.push (σ.kind kind) span).1 = σ.node (t.push kind span).1 := by
  have hid : (⟨u.size⟩ : NodeId) = σ.node ⟨t.size⟩ := by
    have hnode : σ.node ⟨t.size⟩ = ⟨t.size + σ.gap⟩ := Relocation.node_of_le h.base_le
    rw [hnode, h.size]
  refine ⟨⟨h.files, ?_, ?_, fun id => ?_⟩, hid⟩
  · rw [Tree.size_push]
    exact Nat.le_succ_of_le h.base_le
  · rw [Tree.size_push, Tree.size_push, h.size, Nat.add_right_comm]
  · rw [Tree.node?_push, Tree.node?_push]
    have hiff : (σ.node id).index = u.size ↔ id.index = t.size := by
      constructor
      · intro heq
        have : σ.node id = σ.node ⟨t.size⟩ := by
          rw [← hid, ← heq]
        rw [Relocation.node_injective this]
      · intro heq
        rw [show id = ⟨t.size⟩ from congrArg NodeId.mk heq, ← hid]
    by_cases heq : id.index = t.size
    · rw [if_pos (hiff.mpr heq), if_pos heq]
      rfl
    · rw [if_neg (mt hiff.mp heq), if_neg heq]
      exact h.node id

theorem Tree.node?_modifyKind (t : Tree) (id id' : NodeId) (f : NodeKind → NodeKind) :
    (t.modifyKind id f).node? id' =
      if id = id' then (t.node? id').map fun n => { n with kind := f n.kind } else t.node? id' := by
  obtain ⟨i⟩ := id
  obtain ⟨j⟩ := id'
  simp only [Tree.node?, Tree.modifyKind, Array.getElem?_modify, NodeId.mk.injEq]

theorem Tree.size_modifyKind (t : Tree) (id : NodeId) (f : NodeKind → NodeKind) :
    (t.modifyKind id f).size = t.size :=
  Array.size_modify

theorem Tree.Relocated.modifyKind (h : t.Relocated σ u) (id : NodeId) {f g : NodeKind → NodeKind}
    (hfg : ∀ kind, g (σ.kind kind) = σ.kind (f kind)) :
    (t.modifyKind id f).Relocated σ (u.modifyKind (σ.node id) g) := by
  refine ⟨h.files, ?_, ?_, fun id' => ?_⟩
  · rw [Tree.size_modifyKind]
    exact h.base_le
  · rw [Tree.size_modifyKind, Tree.size_modifyKind, h.size]
  · rw [Tree.node?_modifyKind, Tree.node?_modifyKind, h.node]
    by_cases heq : id = id'
    · subst heq
      rw [if_pos rfl, if_pos rfl]
      cases t.node? id with
      | none => rfl
      | some n => simp only [Option.map_some, hfg]
    · rw [if_neg heq, if_neg (Relocation.node_injective.ne heq)]

end Push

/-! ### Copies -/

/-- Two trees that grow alike from the trees before a copy. -/
structure Growth (σ : Relocation) (start t u : Tree) : Prop where
  relocated : t.Relocated σ u
  ranked : ∃ rank, t.Ranked rank
  bounded : ∀ {id node}, t.node? id = some node → node.kind.Bounded σ.base
  kept : ∀ {id}, id.index < start.size → t.node? id = start.node? id
  le : start.size ≤ t.size
  files : t.files = start.files

/-- A node that refers to known nodes is added to both trees. -/
theorem Growth.push {σ : Relocation} {start t u : Tree} (h : Growth σ start t u) {kind : NodeKind}
    (hchildren : ∀ child ∈ kind.children, child.index < t.size) (hbounded : kind.Bounded σ.base)
    (span : Span) : Growth σ start (t.push kind span).2 (u.push (σ.kind kind) span).2 := by
  obtain ⟨rank, hrank⟩ := h.ranked
  refine ⟨(h.relocated.push kind span).1, ⟨_, hrank.push hchildren span⟩, fun {id node} hnode => ?_,
    fun {id} hid => ?_, ?_, h.files⟩
  · rw [Tree.node?_push] at hnode
    split_ifs at hnode
    · cases hnode
      exact hbounded
    · exact h.bounded hnode
  · have := h.le
    rw [Tree.node?_push, if_neg (by omega), h.kept hid]
  · rw [Tree.size_push]
    exact Nat.le_succ_of_le h.le

/-- Both copiers succeed from trees of at least `n` nodes, with results that `move` relates and of which
`holds` holds in the tree that the first ends in. -/
def Copies (σ : Relocation) (start : Tree) (n : Nat) {α : Type} (move : α → α) (holds : Nat → α → Prop)
    (x y : StateT Tree (Except Tree.CopyError) α) : Prop :=
  ∀ t u, Growth σ start t u → n ≤ t.size → ∃ a t' u', x t = .ok (a, t') ∧ y u = .ok (move a, u') ∧
    Growth σ start t' u' ∧ t.size ≤ t'.size ∧ holds t'.size a

namespace Copies

variable {σ : Relocation} {start : Tree} {n : Nat} {α β : Type} {move : α → α} {moveTo : β → β}
  {holds : Nat → α → Prop} {holdsTo : Nat → β → Prop} {x y : StateT Tree (Except Tree.CopyError) α}

theorem pure {a : α} (h : ∀ m, n ≤ m → holds m a) :
    Copies σ start n move holds (Pure.pure a) (Pure.pure (move a)) :=
  fun t u hgrowth hn => ⟨a, t, u, rfl, rfl, hgrowth, le_refl _, h _ hn⟩

theorem bind {f g : α → StateT Tree (Except Tree.CopyError) β} (hx : Copies σ start n move holds x y)
    (hf : ∀ a m, n ≤ m → holds m a → Copies σ start m moveTo holdsTo (f a) (g (move a))) :
    Copies σ start n moveTo holdsTo (x >>= f) (y >>= g) := by
  intro t u hgrowth hn
  obtain ⟨a, t', u', hxt, hyu, hgrowth', hle, ha⟩ := hx t u hgrowth hn
  obtain ⟨b, t'', u'', hft, hgu, hgrowth'', hle', hb⟩ :=
    hf a t'.size (hn.trans hle) ha t' u' hgrowth' (le_refl _)
  refine ⟨b, t'', u'', ?_, ?_, hgrowth'', hle.trans hle', hb⟩
  · change Except.bind (x t) _ = _
    rw [hxt]
    exact hft
  · change Except.bind (y u) _ = _
    rw [hyu]
    exact hgu

theorem map {f g : α → β} (hx : Copies σ start n move holds x y)
    (hf : ∀ a m, n ≤ m → holds m a → g (move a) = moveTo (f a) ∧ ∀ m', m ≤ m' → holdsTo m' (f a)) :
    Copies σ start n moveTo holdsTo (f <$> x) (g <$> y) := by
  rw [map_eq_pure_bind, map_eq_pure_bind]
  refine hx.bind fun a m hm ha => ?_
  obtain ⟨hmove, hholds⟩ := hf a m hm ha
  rw [hmove]
  exact pure hholds

end Copies

/-- The nodes are among the first `m`. -/
def Below (m : Nat) (ids : List NodeId) : Prop := ∀ id ∈ ids, id.index < m

namespace Below

variable {m m' : Nat} {id : NodeId} {ids ids' : List NodeId}

theorem mono (h : Below m ids) (hle : m ≤ m') : Below m' ids := fun id hid => (h id hid).trans_le hle

theorem nil : Below m [] := nofun

theorem cons (h : id.index < m) (h' : Below m ids) : Below m (id :: ids) := by
  intro id' hid
  rcases List.mem_cons.mp hid with rfl | hid
  · exact h
  · exact h' id' hid

theorem append (h : Below m ids) (h' : Below m ids') : Below m (ids ++ ids') := by
  intro id hid
  rcases List.mem_append.mp hid with hid | hid
  · exact h id hid
  · exact h' id hid

end Below

/-- The nodes of a list are copied alike. -/
def CopiesEach (σ : Relocation) (start : Tree) (f g : NodeId → StateT Tree (Except Tree.CopyError) NodeId)
    (ids : List NodeId) : Prop :=
  ∀ id ∈ ids, ∀ n, Copies σ start n σ.node (fun m id => id.index < m) (f id) (g (σ.node id))

namespace CopiesEach

variable {σ : Relocation} {start : Tree} {f g : NodeId → StateT Tree (Except Tree.CopyError) NodeId}
  {n : Nat}

theorem option (id : Option NodeId) (h : CopiesEach σ start f g id.toList) (n : Nat) :
    Copies σ start n (Option.map σ.node) (fun m id => Below m id.toList) (NodeKind.mapOption f id)
      (NodeKind.mapOption g (id.map σ.node)) := by
  cases id with
  | none => exact .pure fun m _ => .nil
  | some i =>
    exact (h i (.head _) n).map fun i' m _ hi => ⟨rfl, fun m' hm => .cons (hi.trans_le hm) .nil⟩

theorem list {ids : List NodeId} (h : CopiesEach σ start f g ids) (n : Nat) :
    Copies σ start n (List.map σ.node) Below (ids.mapM f) ((ids.map σ.node).mapM g) := by
  induction ids generalizing n with
  | nil => exact .pure fun m _ => .nil
  | cons id rest ih =>
    rw [List.mapM_cons, List.map_cons, List.mapM_cons]
    refine (h id List.mem_cons_self n).bind fun id' m _ hid => ?_
    refine (ih (fun i hi => h i (List.mem_cons_of_mem _ hi)) m).bind fun rest' k hk hrest => ?_
    exact .pure fun k' hk' => .cons (hid.trans_le (hk.trans hk')) (hrest.mono hk')

theorem cases {cases : List SwitchCase}
    (h : CopiesEach σ start f g (cases.flatMap fun case => [case.value, case.body])) (n : Nat) :
    Copies σ start n (List.map σ.case)
      (fun m cases => Below m (cases.flatMap fun case => [case.value, case.body]))
      (cases.mapM (NodeKind.mapCase f)) ((cases.map σ.case).mapM (NodeKind.mapCase g)) := by
  induction cases generalizing n with
  | nil => exact .pure fun m _ => .nil
  | cons case rest ih =>
    rw [List.mapM_cons, List.map_cons, List.mapM_cons]
    have hcase : Copies σ start n σ.case (fun m case => Below m [case.value, case.body])
        (NodeKind.mapCase f case) (NodeKind.mapCase g (σ.case case)) := by
      refine (h case.value (.head _) n).bind fun value m _ hvalue => ?_
      refine (h case.body (.tail _ (.head _)) m).bind fun body k hk hbody => ?_
      exact .pure fun k' hk' => .cons (hvalue.trans_le (hk.trans hk')) (.cons (hbody.trans_le hk') .nil)
    refine hcase.bind fun case' m _ hcase' => ?_
    refine (ih (fun i hi => h i (.tail _ (.tail _ hi))) m).bind fun rest' k hk hrest => ?_
    exact .pure fun k' hk' => (hcase'.mono (hk.trans hk')).append (hrest.mono hk')

theorem builtinArgs {name : String} {args : List BuiltinArg}
    (h : CopiesEach σ start f g (NodeKind.builtin name args).children) (n : Nat) :
    Copies σ start n (List.map σ.builtinArg)
      (fun m args' => Below m (NodeKind.builtin name args').children ∧
        (NodeKind.builtin name args').types = (NodeKind.builtin name args).types)
      (args.mapM (NodeKind.mapBuiltinArg f))
      ((args.map σ.builtinArg).mapM (NodeKind.mapBuiltinArg g)) := by
  induction args generalizing n with
  | nil => exact .pure fun m _ => ⟨.nil, rfl⟩
  | cons arg rest ih =>
    rw [List.mapM_cons, List.map_cons, List.mapM_cons]
    cases arg with
    | type type =>
      have harg : Copies σ start n σ.builtinArg (fun _ arg => arg = .type type)
          (NodeKind.mapBuiltinArg f (.type type)) (NodeKind.mapBuiltinArg g (.type type)) :=
        .pure fun _ _ => rfl
      refine harg.bind fun arg' m _ harg' => ?_
      subst harg'
      refine (ih h m).bind fun rest' k hk hrest => ?_
      exact .pure fun k' hk' => ⟨hrest.1.mono hk', congrArg (type :: ·) hrest.2⟩
    | expr id =>
      have harg : Copies σ start n σ.builtinArg
          (fun m arg => ∃ id : NodeId, arg = .expr id ∧ id.index < m)
          (NodeKind.mapBuiltinArg f (.expr id)) (NodeKind.mapBuiltinArg g (σ.builtinArg (.expr id))) :=
        (h id (.head _) n).map fun id' m _ hid => ⟨rfl, fun m' hm => ⟨id', rfl, hid.trans_le hm⟩⟩
      refine harg.bind fun arg' m _ harg' => ?_
      obtain ⟨id', rfl, hid⟩ := harg'
      refine (ih (fun i hi => h i (.tail _ hi)) m).bind fun rest' k hk hrest => ?_
      exact .pure fun k' hk' => ⟨.cons (hid.trans_le (hk.trans hk')) (hrest.1.mono hk'), hrest.2⟩

theorem fields {fields : List FieldDecl}
    (h : CopiesEach σ start f g (fields.filterMap (·.default))) (n : Nat) :
    Copies σ start n (List.map σ.fieldDecl)
      (fun m fields' => Below m (fields'.filterMap (·.default)) ∧
        fields'.map (·.type) = fields.map (·.type))
      (fields.mapM (NodeKind.mapField f)) ((fields.map σ.fieldDecl).mapM (NodeKind.mapField g)) := by
  induction fields generalizing n with
  | nil => exact .pure fun m _ => ⟨.nil, rfl⟩
  | cons field rest ih =>
    obtain ⟨name, type, default⟩ := field
    simp only [List.mapM_cons, List.map_cons]
    have hfield : Copies σ start n σ.fieldDecl
        (fun m field => ∃ default : Option NodeId, field = ⟨name, type, default⟩ ∧
          Below m default.toList)
        (NodeKind.mapField f ⟨name, type, default⟩)
        (NodeKind.mapField g (σ.fieldDecl ⟨name, type, default⟩)) := by
      refine (option default (fun i hi => h i ?_) n).bind fun default' m _ hdefault => ?_
      · cases default with
        | none => cases hi
        | some i' =>
          cases List.mem_singleton.mp hi
          exact .head _
      · exact .pure fun m' hm => ⟨default', rfl, hdefault.mono hm⟩
    refine hfield.bind fun field' m _ hfield' => ?_
    obtain ⟨default', rfl, hdefault⟩ := hfield'
    refine (ih (fun i hi => h i ?_) m).bind fun rest' k hk hrest => ?_
    · cases default with
      | none => exact hi
      | some i' => exact .tail _ hi
    · refine .pure fun k' hk' => ⟨?_, congrArg (type :: ·) hrest.2⟩
      cases default' with
      | none => exact hrest.1.mono hk'
      | some i' => exact .cons (hdefault i' (.head _) |>.trans_le (hk.trans hk')) (hrest.1.mono hk')

/-- A node whose children are copied alike is rebuilt alike, with the types that it had. -/
theorem mapChildren {kind : NodeKind} (h : CopiesEach σ start f g kind.children) (n : Nat) :
    Copies σ start n σ.kind (fun m kind' => Below m kind'.children ∧ kind'.types = kind.types)
      (kind.mapChildren f) ((σ.kind kind).mapChildren g) := by
  cases kind with
  | unary op operand | cast type operand | defer operand | destroy operand =>
    exact (h operand (.head _) n).map fun id m _ hid =>
      ⟨rfl, fun m' hm => ⟨.cons (hid.trans_le hm) .nil, rfl⟩⟩
  | get operand name =>
    refine (h operand (.head _) n).bind fun operand' m _ hoperand => ?_
    exact .pure fun m' hm => ⟨.cons (hoperand.trans_le hm) .nil, rfl⟩
  | binary op lhs rhs | index lhs rhs | whileLoop lhs rhs =>
    refine (h lhs (.head _) n).bind fun lhs' m _ hlhs => ?_
    refine (h rhs (.tail _ (.head _)) m).bind fun rhs' k hk hrhs => ?_
    exact .pure fun k' hk' =>
      ⟨.cons (hlhs.trans_le (hk.trans hk')) (.cons (hrhs.trans_le hk') .nil), rfl⟩
  | call callee args =>
    refine (h callee (.head _) n).bind fun callee' m _ hcallee => ?_
    refine (list (fun id hid => h id (.tail _ hid)) m).bind fun args' k hk hargs => ?_
    exact .pure fun k' hk' => ⟨.cons (hcallee.trans_le (hk.trans hk')) (hargs.mono hk'), rfl⟩
  | arrayLit values | aggregateLit type values | block values | space name values =>
    exact (list h n).map fun values' m _ hvalues => ⟨rfl, fun m' hm => ⟨hvalues.mono hm, rfl⟩⟩
  | builtin name args =>
    exact (builtinArgs h n).map fun args' m _ hargs =>
      ⟨rfl, fun m' hm => ⟨hargs.1.mono hm, hargs.2⟩⟩
  | ifElse cond yes no | staticIf cond yes no =>
    refine (h cond (.head _) n).bind fun cond' m _ hcond => ?_
    refine (h yes (.tail _ (.head _)) m).bind fun yes' k hk hyes => ?_
    refine (option _ (fun id hid => h id (.tail _ (.tail _ hid))) k).bind fun no' l hl hno => ?_
    exact .pure fun l' hl' => ⟨.cons (hcond.trans_le (hk.trans (hl.trans hl')))
      (.cons (hyes.trans_le (hl.trans hl')) (hno.mono hl')), rfl⟩
  | forLoop init cond step body =>
    refine (option init (fun id hid => h id ?_) n).bind fun init' m _ hinit => ?_
    · simp [NodeKind.children, Option.mem_toList.mp hid]
    refine (option cond (fun id hid => h id ?_) m).bind fun cond' k hk hcond => ?_
    · simp [NodeKind.children, Option.mem_toList.mp hid]
    refine (option step (fun id hid => h id ?_) k).bind fun step' l hl hstep => ?_
    · simp [NodeKind.children, Option.mem_toList.mp hid]
    refine (h body (by simp [NodeKind.children]) l).bind fun body' j hj hbody => ?_
    exact .pure fun j' hj' => ⟨(((hinit.mono (hk.trans (hl.trans (hj.trans hj')))).append
      (hcond.mono (hl.trans (hj.trans hj')))).append (hstep.mono (hj.trans hj'))).append
      (.cons (hbody.trans_le hj') .nil), rfl⟩
  | foreach name data length body =>
    refine (h data (.head _) n).bind fun data' m _ hdata => ?_
    refine (option length (fun id hid => h id ?_) m).bind fun length' k hk hlength => ?_
    · simp [NodeKind.children, Option.mem_toList.mp hid]
    refine (h body (by simp [NodeKind.children]) k).bind fun body' l hl hbody => ?_
    exact .pure fun l' hl' => ⟨.cons (hdata.trans_le (hk.trans (hl.trans hl')))
      ((hlength.mono (hl.trans hl')).append (.cons (hbody.trans_le hl') .nil)), rfl⟩
  | switch value cases default =>
    refine (h value (.head _) n).bind fun value' m _ hvalue => ?_
    refine (CopiesEach.cases (fun id hid => h id (List.mem_append_left _ (.tail _ hid))) m).bind
      fun cases' k hk hcases => ?_
    refine (option _ (fun id hid => h id (List.mem_append_right _ hid)) k).bind
      fun default' l hl hdefault => ?_
    exact .pure fun l' hl' => ⟨(Below.cons (hvalue.trans_le (hk.trans (hl.trans hl')))
      (hcases.mono (hl.trans hl'))).append (hdefault.mono hl'), rfl⟩
  | ret value =>
    exact (option _ h n).map fun value' m _ hvalue => ⟨rfl, fun m' hm => ⟨hvalue.mono hm, rfl⟩⟩
  | «variable» decl =>
    refine (option decl.init h n).bind fun init m _ hinit => ?_
    exact .pure fun m' hm => ⟨hinit.mono hm, rfl⟩
  | function decl =>
    refine (option decl.body h n).bind fun body m _ hbody => ?_
    exact .pure fun m' hm => ⟨hbody.mono hm, rfl⟩
  | aggregate decl =>
    refine (CopiesEach.fields (fun id hid => h id (List.mem_append_left _ hid)) n).bind
      fun fields m _ hfields => ?_
    refine (list (fun id hid => h id (List.mem_append_right _ hid)) m).bind
      fun methods k hk hmethods => ?_
    exact .pure fun k' hk' => ⟨(hfields.1.mono (hk.trans hk')).append (hmethods.mono hk'),
      congrArg (decl.base.toList ++ ·) hfields.2⟩
  | «alias» decl =>
    obtain ⟨name, target⟩ := decl
    cases target with
    | type type => exact .pure fun m _ => ⟨.nil, rfl⟩
    | value id =>
      have htarget : Copies σ start n σ.aliasTarget
          (fun m target => ∃ id : NodeId, target = .value id ∧ id.index < m)
          (NodeKind.mapAliasTarget f (.value id))
          (NodeKind.mapAliasTarget g (σ.aliasTarget (.value id))) :=
        (h id (.head _) n).map fun id' m _ hid => ⟨rfl, fun m' hm => ⟨id', rfl, hid.trans_le hm⟩⟩
      refine htarget.bind fun target' m _ htarget' => ?_
      obtain ⟨id', rfl, hid⟩ := htarget'
      exact .pure fun m' hm => ⟨.cons (hid.trans_le hm) .nil, rfl⟩
  | int _ | float _ | bool _ | char _ | str _ | null | ident _ _ | sizeOf _ | breakLoop
  | continueLoop => exact .pure fun m _ => ⟨.nil, rfl⟩

end CopiesEach

section Subtrees

variable {σ : Relocation} {start t u : Tree} {rank : NodeId → Nat}

/-- A node is copied after its children. -/
theorem Tree.copyWithin_of_some {fuel : Nat} {id : NodeId} {node : Node} (h : t.node? id = some node) :
    (Tree.copyWithin (fuel + 1) id).run t = (do
      let kind ← node.kind.mapChildren (Tree.copyWithin fuel)
      modifyGet fun t : Tree => t.push kind node.span).run t := by
  rw [Tree.copyWithin, StateT.run_bind, StateT.run_get]
  simp only [pure_bind, h]

theorem Tree.copyWithin_of_none {fuel : Nat} {id : NodeId} (h : t.node? id = none) :
    (Tree.copyWithin (fuel + 1) id).run t = .error (.missing id) := by
  rw [Tree.copyWithin, StateT.run_bind, StateT.run_get]
  simp only [pure_bind, h]
  rfl

theorem Copies.push {n : Nat} {kind : NodeKind} (hchildren : Below n kind.children)
    (hbounded : kind.Bounded σ.base) (span : Span) :
    Copies σ start n σ.node (fun m id => σ.base ≤ id.index ∧ id.index < m)
      (modifyGet fun t => t.push kind span) (modifyGet fun u => u.push (σ.kind kind) span) := by
  intro t u hgrowth hn
  refine ⟨⟨t.size⟩, (t.push kind span).2, (u.push (σ.kind kind) span).2, rfl, ?_,
    hgrowth.push (hchildren.mono hn) hbounded span, ?_, hgrowth.relocated.base_le, ?_⟩
  · rw [show σ.node ⟨t.size⟩ = (u.push (σ.kind kind) span).1 from
      (hgrowth.relocated.push kind span).2.symm]
    rfl
  · rw [Tree.size_push]
    exact Nat.le_succ _
  · rw [Tree.size_push]
    exact Nat.lt_succ_self _

/-- Fuel above the rank of a node is enough to copy it; how much more there is does not matter. -/
theorem copies_copyWithin (hrank : start.Ranked rank) : ∀ (fuel fuel' : Nat) (id : NodeId),
    rank id < fuel → rank id < fuel' → id.index < start.size → ∀ n,
      Copies σ start n σ.node (fun m copy => σ.base ≤ copy.index ∧ copy.index < m)
        (Tree.copyWithin fuel id) (Tree.copyWithin fuel' (σ.node id))
  | fuel + 1, fuel' + 1, id, hfuel, hfuel', hid, n => by
    obtain ⟨node, hnode⟩ := Tree.exists_node? hid
    have hchildren : CopiesEach σ start (Tree.copyWithin fuel) (Tree.copyWithin fuel')
        node.kind.children := by
      intro child hchild n
      obtain ⟨hlt, hlow⟩ := hrank.child ⟨node, hnode, hchild⟩
      intro t u hgrowth hn
      obtain ⟨a, t', u', hx, hy, hgrowth', hle, ha⟩ := copies_copyWithin hrank fuel fuel' child
        (by omega) (by omega) hlt n t u hgrowth hn
      exact ⟨a, t', u', hx, hy, hgrowth', hle, ha.2⟩
    intro t u hgrowth hn
    have ht : t.node? id = some node := (hgrowth.kept hid).trans hnode
    have hu : u.node? (σ.node id) = some { node with kind := σ.kind node.kind } := by
      rw [hgrowth.relocated.node, ht]
      rfl
    have hbounded : node.kind.Bounded σ.base := hgrowth.bounded ht
    have hcopy : Copies σ start n σ.node (fun m copy => σ.base ≤ copy.index ∧ copy.index < m)
        (do
          let kind ← node.kind.mapChildren (Tree.copyWithin fuel)
          modifyGet fun t => t.push kind node.span)
        (do
          let kind ← (σ.kind node.kind).mapChildren (Tree.copyWithin fuel')
          modifyGet fun t => t.push kind node.span) := by
      refine (hchildren.mapChildren n).bind fun kind m _ hkind => Copies.push hkind.1 ?_ node.span
      rw [NodeKind.Bounded, hkind.2]
      exact hbounded
    obtain ⟨copy, t', u', hx, hy, hrest⟩ := hcopy t u hgrowth hn
    refine ⟨copy, t', u', ?_, ?_, hrest⟩
    · exact (Tree.copyWithin_of_some ht).trans hx
    · exact (Tree.copyWithin_of_some hu).trans hy

/-- Both trees copy a subtree alike, to new nodes. -/
theorem Growth.exists_copySubtree (h : Growth σ start t u) {id : NodeId} (hid : id.index < t.size) :
    ∃ copy t' u', t.copySubtree id = .ok (copy, t') ∧ u.copySubtree (σ.node id) = .ok (σ.node copy, u') ∧
      Growth σ start t' u' ∧ σ.base ≤ copy.index := by
  obtain ⟨rank, hrank⟩ := h.ranked
  have hlt := hrank.lt_size (Tree.exists_node? hid).choose_spec
  have hsame : Growth σ t t u := ⟨h.relocated, ⟨rank, hrank⟩, h.bounded, fun _ => rfl, le_refl _, rfl⟩
  obtain ⟨copy, t', u', ht, hu, hgrowth, hle, hcopy, -⟩ :=
    copies_copyWithin hrank (t.size + 1) (u.size + 1) id (by omega)
      (by rw [h.relocated.size]; omega) hid t.size t u hsame (le_refl _)
  refine ⟨copy, t', u', ht, hu, ⟨hgrowth.relocated, hgrowth.ranked, hgrowth.bounded,
    fun hid' => ?_, h.le.trans hle, hgrowth.files.trans h.files⟩, hcopy⟩
  rw [hgrowth.kept (hid'.trans_le h.le), h.kept hid']

/-- Both trees copy a subtree alike, to new nodes, or both lack it. -/
theorem Growth.copySubtree (h : Growth σ start t u) (id : NodeId) :
    (∃ copy t' u', t.copySubtree id = .ok (copy, t') ∧
      u.copySubtree (σ.node id) = .ok (σ.node copy, u') ∧ Growth σ start t' u' ∧
      σ.base ≤ copy.index) ∨
    (t.copySubtree id = .error (.missing id) ∧
      u.copySubtree (σ.node id) = .error (.missing (σ.node id))) := by
  by_cases hid : id.index < t.size
  · exact .inl (h.exists_copySubtree hid)
  · have ht : t.node? id = none := Tree.node?_eq_none (Nat.le_of_not_lt hid)
    have hu : u.node? (σ.node id) = none := by
      rw [h.relocated.node, ht]
      rfl
    exact .inr ⟨Tree.copyWithin_of_none ht, Tree.copyWithin_of_none hu⟩

/-- A node that was added later is changed in both trees; what it refers to stays. -/
theorem Growth.modifyKind (h : Growth σ start t u) {id : NodeId} (hid : start.size ≤ id.index)
    {f : NodeKind → NodeKind} (hmove : ∀ kind, f (σ.kind kind) = σ.kind (f kind))
    (hchildren : ∀ kind, (f kind).children = kind.children)
    (htypes : ∀ kind, (f kind).types = kind.types) :
    Growth σ start (t.modifyKind id f) (u.modifyKind (σ.node id) f) := by
  have hold : ∀ {id' node'}, (t.modifyKind id f).node? id' = some node' → ∃ node,
      t.node? id' = some node ∧ node'.kind.children = node.kind.children ∧
        node'.kind.types = node.kind.types := by
    intro id' node' hnode'
    rw [Tree.node?_modifyKind] at hnode'
    split_ifs at hnode'
    · obtain ⟨node, hnode, rfl⟩ := Option.map_eq_some_iff.mp hnode'
      exact ⟨node, hnode, hchildren _, htypes _⟩
    · exact ⟨node', hnode', rfl, rfl⟩
  obtain ⟨rank, hrank⟩ := h.ranked
  refine ⟨h.relocated.modifyKind id hmove, ⟨rank, fun hnode' => ?_, fun hchild => ?_⟩,
    fun hnode' => ?_, fun {id'} hid' => ?_, ?_, h.files⟩
  · obtain ⟨node, hnode, -, -⟩ := hold hnode'
    rw [Tree.size_modifyKind]
    exact hrank.lt_size hnode
  · obtain ⟨node', hnode', hmem⟩ := hchild
    obtain ⟨node, hnode, hsame, -⟩ := hold hnode'
    rw [Tree.size_modifyKind]
    exact hrank.child ⟨node, hnode, hsame ▸ hmem⟩
  · obtain ⟨node, hnode, -, hsame⟩ := hold hnode'
    rw [NodeKind.Bounded, hsame]
    exact h.bounded hnode
  · rw [Tree.node?_modifyKind, if_neg ?_, h.kept hid']
    rintro rfl
    omega
  · rw [Tree.size_modifyKind]
    exact h.le

end Subtrees

end UnitCompiler
