import Mathlib.Data.List.Forall2
import UnitCompiler.Proofs.Compile.ScopeHistory

/-!
# Scopes as stacks of environments

A scope keeps the frames that its history leaves open, each with the variables that the frame holds, and an
operation keeps it so.  All answers of the scope follow from that.
-/

namespace UnitCompiler
namespace Scope

/-! ### What scopes keep -/

theorem length_markFrames (name : String) (frames : List Frame) :
    (markFrames name frames).length = frames.length := by
  induction frames with
  | nil => rfl
  | cons frame rest ih =>
    unfold markFrames
    split
    · rfl
    · exact congrArg (· + 1) ih

/-- The variables are those that open frame number `d` holds, in the order of their declarations. -/
def Lists (h : List Op) (d : Nat) (vars : List LocalVar) : Prop :=
  ∃ ks : List Nat, ks.Pairwise (· < ·) ∧
    List.Forall₂ (fun k w => ∃ v, Holds h d k v ∧ Flagged v (Marked h k) w) ks vars ∧
    ∀ k, k ∈ ks ↔ ∃ v, Holds h d k v

/-- The frames, the innermost first, are the open ones. -/
def Tracks (h : List Op) : List Frame → Prop
  | [] => True
  | frame :: rest => Lists h (rest.length + 1) frame.vars ∧ Tracks h rest

section Frames

variable {h h' : List Op} {d : Nat} {vars : List LocalVar} {frame : Frame} {frames rest : List Frame}
  {name : String}

theorem Lists.congr (hvars : Lists h d vars) (hheld : ∀ k v, Holds h' d k v ↔ Holds h d k v)
    (hmarked : ∀ k v, Holds h d k v → (Marked h' k ↔ Marked h k)) : Lists h' d vars := by
  obtain ⟨ks, hsorted, hks, hall⟩ := hvars
  refine ⟨ks, hsorted, hks.imp fun k w => ?_, fun k => (hall k).trans (exists_congr fun v => (hheld k v).symm)⟩
  rintro ⟨v, hv, hflagged⟩
  exact ⟨v, (hheld k v).mpr hv, hflagged.congr (hmarked k v hv)⟩

theorem Tracks.congr (hframes : Tracks h frames)
    (hheld : ∀ d ≤ frames.length, ∀ k v, Holds h' d k v ↔ Holds h d k v)
    (hmarked : ∀ d ≤ frames.length, ∀ k v, Holds h d k v → (Marked h' k ↔ Marked h k)) :
    Tracks h' frames := by
  induction frames with
  | nil => trivial
  | cons frame rest ih =>
    refine ⟨hframes.1.congr (hheld _ le_rfl) (hmarked _ le_rfl), ih hframes.2 ?_ ?_⟩
    · exact fun d hd => hheld d (hd.trans (Nat.le_succ _))
    · exact fun d hd => hmarked d (hd.trans (Nat.le_succ _))

theorem Lists.exists_of_mem (hvars : Lists h d vars) {w : LocalVar} (hw : w ∈ vars) :
    ∃ k v, Holds h d k v ∧ Flagged v (Marked h k) w := by
  obtain ⟨ks, -, hks, -⟩ := hvars
  obtain ⟨n, hn, rfl⟩ := List.getElem_of_mem hw
  obtain ⟨v, hv⟩ := (List.forall₂_iff_get.mp hks).2 n (hks.length_eq ▸ hn) hn
  exact ⟨_, v, hv⟩

theorem Lists.exists_mem (hvars : Lists h d vars) {k : Nat} {v : LocalVar} (hv : Holds h d k v) :
    ∃ w ∈ vars, Flagged v (Marked h k) w := by
  obtain ⟨ks, -, hks, hall⟩ := hvars
  obtain ⟨n, hn, rfl⟩ := List.getElem_of_mem ((hall k).mpr ⟨v, hv⟩)
  have hn' : n < vars.length := hks.length_eq ▸ hn
  obtain ⟨v', hv', hflagged⟩ := (List.forall₂_iff_get.mp hks).2 n hn hn'
  obtain ⟨-, rfl⟩ := hv.same hv'
  exact ⟨_, List.getElem_mem hn', hflagged⟩

theorem Lists.isSome_var?_iff (hframe : Lists h d frame.vars) :
    (frame.var? name).isSome ↔ ∃ k v, Holds h d k v ∧ v.name = name := by
  rw [Frame.var?, List.find?_isSome]
  constructor
  · rintro ⟨w, hw, hname⟩
    obtain ⟨k, v, hv, hflagged⟩ := hframe.exists_of_mem hw
    exact ⟨k, v, hv, hflagged.name_eq.symm.trans (by simpa using hname)⟩
  · rintro ⟨k, v, hv, rfl⟩
    obtain ⟨w, hw, hflagged⟩ := hframe.exists_mem hv
    exact ⟨w, hw, by simpa using hflagged.name_eq⟩

/-- The frames inside of these hold no variable of the name. -/
def HiddenBeyond (h : List Op) (name : String) (n : Nat) : Prop :=
  ∀ d k v, Holds h d k v → v.name = name → d ≤ n

/-- What is found in the frames is the visible variable. -/
theorem Tracks.findSome?_spec (hframes : Tracks h frames) (hbeyond : HiddenBeyond h name frames.length) :
    match frames.findSome? (·.var? name) with
    | some w => ∃ k v, Visible h name k v ∧ Flagged v (Marked h k) w
    | none => ∀ d k v, Holds h d k v → v.name ≠ name := by
  induction frames with
  | nil =>
    intro d k v hv hname
    have := hbeyond d k v hv hname
    exact absurd hv.pos (Nat.not_lt.mpr this)
  | cons frame rest ih =>
    rw [List.findSome?_cons]
    cases hvar : frame.var? name with
    | some w =>
      obtain ⟨k, v, hv, hflagged⟩ := hframes.1.exists_of_mem (List.mem_of_find?_eq_some hvar)
      have hname : w.name = name := by simpa using List.find?_some hvar
      exact ⟨k, v, ⟨hflagged.name_eq.symm.trans hname, _, hv, hbeyond⟩, hflagged⟩
    | none =>
      refine ih hframes.2 fun d k v hv hname => ?_
      have hle := hbeyond d k v hv hname
      have hne : d ≠ rest.length + 1 := by
        rintro rfl
        have := hframes.1.isSome_var?_iff.mpr ⟨k, v, hv, hname⟩
        rw [hvar] at this
        cases this
      rw [List.length_cons] at hle
      omega

theorem Visible.of_holds {k : Nat} {v w : LocalVar} (hv : Holds h d k v) (hvisible : Visible h name k w) :
    v.name = name ∧ ∀ d' k' u, Holds h d' k' u → u.name = name → d' ≤ d := by
  obtain ⟨hname, d', hheld, hmax⟩ := hvisible
  obtain ⟨rfl, rfl⟩ := hv.same hheld
  exact ⟨hname, hmax⟩

/-- A history that has marked a name at its end. -/
structure Marks (h h' : List Op) (name : String) : Prop where
  held : ∀ d k v, Holds h' d k v ↔ Holds h d k v
  marked : ∀ k, Marked h' k ↔ Marked h k ∨ ∃ v, Visible h name k v

theorem Marks.elsewhere (hmarks : Marks h h' name) {k : Nat} (hk : ∀ v, ¬Visible h name k v) :
    Marked h' k ↔ Marked h k :=
  (hmarks.marked k).trans (or_iff_left fun ⟨v, hv⟩ => hk v hv)

theorem Lists.markUsed (hframe : Lists h d frame.vars) (hbeyond : HiddenBeyond h name d)
    (hmarks : Marks h h' name) : Lists h' d (frame.markUsed name).vars := by
  obtain ⟨ks, hsorted, hks, hall⟩ := hframe
  refine ⟨ks, hsorted, ?_, fun k => (hall k).trans (exists_congr fun v => (hmarks.held d k v).symm)⟩
  rw [Frame.markUsed, List.forall₂_map_right_iff]
  refine hks.imp fun k w => ?_
  rintro ⟨v, hv, hflagged⟩
  refine ⟨v, (hmarks.held d k v).mpr hv, ?_⟩
  have hname : w.name = v.name := hflagged.name_eq
  by_cases hw : v.name = name
  · have hmarked : Marked h' k := (hmarks.marked k).mpr (.inr ⟨v, hw, d, hv, hbeyond⟩)
    rw [if_pos (by simpa [hname] using hw)]
    refine ⟨?_, ?_⟩
    · rw [hflagged.same]
    · simp [hmarked]
  · rw [if_neg (by simpa [hname] using hw)]
    exact hflagged.congr (hmarks.elsewhere fun u hu => hw (hu.of_holds hv).1)

/-- A mark goes to the visible variable and to no other. -/
theorem Tracks.markFrames (hframes : Tracks h frames) (hbeyond : HiddenBeyond h name frames.length)
    (hmarks : Marks h h' name) : Tracks h' (Scope.markFrames name frames) := by
  induction frames with
  | nil => trivial
  | cons frame rest ih =>
    unfold Scope.markFrames
    split
    next hsome =>
      obtain ⟨k₀, v₀, hv₀, hname₀⟩ := hframes.1.isSome_var?_iff.mp hsome
      refine ⟨hframes.1.markUsed hbeyond hmarks, hframes.2.congr (fun d _ => hmarks.held d) ?_⟩
      intro d hd k v hv
      refine hmarks.elsewhere fun w hw => ?_
      have := (hw.of_holds hv).2 _ k₀ v₀ hv₀ hname₀
      omega
    next hnone =>
      have hnot {k : Nat} {v : LocalVar} (hv : Holds h (rest.length + 1) k v) : v.name ≠ name :=
        fun hname => hnone (hframes.1.isSome_var?_iff.mpr ⟨k, v, hv, hname⟩)
      refine ⟨?_, ?_⟩
      · rw [length_markFrames]
        exact hframes.1.congr (hmarks.held _) fun k v hv => hmarks.elsewhere fun w hw => hnot hv (hw.of_holds hv).1
      · refine ih hframes.2 fun d k v hv hname => ?_
        have hle := hbeyond d k v hv hname
        have hne : d ≠ rest.length + 1 := by
          rintro rfl
          exact hnot hv hname
        rw [List.length_cons] at hle
        omega

end Frames

/-- The scope keeps the frames that are open after the history, each with the variables it holds. -/
structure Keeps (h : List Op) (s : Scope) : Prop where
  length : s.frames.length = depth h
  tracks : Tracks h s.frames

section Steps

variable {h : List Op} {s : Scope} {name : String}

theorem declare_cons (frame : Frame) (rest : List Frame) (v : LocalVar) :
    Scope.declare ⟨frame :: rest⟩ v = if (frame.var? v.name).isSome then none
      else some ⟨{ frame with vars := frame.vars ++ [v] } :: rest⟩ := rfl

theorem Keeps.hiddenBeyond (hs : Keeps h s) (name : String) : HiddenBeyond h name s.frames.length := by
  intro d k v hv _
  rw [hs.length]
  exact hv.le_depth

/-- Frames are as they were after an operation that neither declares nor marks. -/
theorem Tracks.concat {frames : List Frame} {op : Op} (hframes : Tracks h frames)
    (hle : frames.length ≤ depth (h ++ [op])) (hdeclare : ∀ v, op ≠ .declare v)
    (hmark : ∀ name, op ≠ .markUsed name) : Tracks (h ++ [op]) frames := by
  refine hframes.congr (fun d hd k v => ?_) fun d _ k v _ => ?_
  · rw [holds_concat, and_iff_left (hd.trans hle), or_iff_left]
    rintro ⟨rfl, -⟩
    exact hdeclare v rfl
  · rw [marked_concat, or_iff_left]
    rintro ⟨name, -, rfl, -⟩
    exact hmark name rfl

theorem lists_nil {d : Nat} (hnone : ∀ k v, ¬Holds h d k v) : Lists h d [] :=
  ⟨[], .nil, .nil, fun k => iff_of_false List.not_mem_nil fun ⟨v, hv⟩ => hnone k v hv⟩

/-- A variable that is declared last is the last of its frame. -/
theorem Lists.concat {d : Nat} {vars : List LocalVar} {v : LocalVar} (hvars : Lists h d vars)
    (hheld : ∀ k w, Holds (h ++ [.declare v]) d k w ↔ Holds h d k w ∨ w = v ∧ k = h.length)
    (hmarked : ∀ k, Marked (h ++ [.declare v]) k ↔ Marked h k) :
    Lists (h ++ [.declare v]) d (vars ++ [v]) := by
  obtain ⟨ks, hsorted, hks, hall⟩ := hvars
  refine ⟨ks ++ [h.length], ?_, ?_, fun k => ?_⟩
  · refine List.pairwise_append.mpr ⟨hsorted, List.pairwise_singleton _ _, fun k hk k' hk' => ?_⟩
    obtain ⟨w, hw⟩ := (hall k).mp hk
    rw [List.mem_singleton.mp hk']
    exact hw.lt
  · refine List.rel_append (hks.imp fun k w => ?_) (.cons ⟨v, (hheld _ v).mpr (.inr ⟨rfl, rfl⟩), rfl, ?_⟩ .nil)
    · rintro ⟨u, hu, hflagged⟩
      exact ⟨u, (hheld k u).mpr (.inl hu), hflagged.congr (hmarked k)⟩
    · rw [hmarked, or_iff_left]
      exact fun hlast => Nat.lt_irrefl _ hlast.lt
  · rw [List.mem_append, List.mem_singleton, hall]
    constructor
    · rintro (⟨w, hw⟩ | rfl)
      · exact ⟨w, (hheld k w).mpr (.inl hw)⟩
      · exact ⟨v, (hheld _ v).mpr (.inr ⟨rfl, rfl⟩)⟩
    · rintro ⟨w, hw⟩
      exact ((hheld k w).mp hw).imp (fun hw => ⟨w, hw⟩) And.right

theorem Keeps.push (hs : Keeps h s) : Keeps (h ++ [.push]) s.push := by
  have hdepth : depth (h ++ [.push]) = depth h + 1 := depth_concat h .push
  refine ⟨?_, lists_nil fun k v hv => ?_, ?_⟩
  · rw [hdepth, ← hs.length]
    rfl
  · change Holds (h ++ [.push]) (s.frames.length + 1) k v at hv
    obtain ⟨hv, -⟩ | ⟨⟨⟩, -⟩ := holds_concat.mp hv
    have := hv.le_depth
    have := hs.length
    omega
  · refine hs.tracks.concat ?_ nofun nofun
    rw [hdepth, hs.length]
    exact Nat.le_succ _

theorem Keeps.pop (hs : Keeps h s) : Keeps (h ++ [.pop]) s.pop.2 := by
  have hdepth : depth (h ++ [.pop]) = depth h - 1 := depth_concat h .pop
  obtain ⟨frames⟩ := s
  cases frames with
  | nil =>
    have hzero : 0 = depth h := hs.length
    have hnone : 0 = depth (h ++ [.pop]) := by rw [hdepth, ← hzero]
    exact ⟨hnone, trivial⟩
  | cons frame rest =>
    have hlength : rest.length + 1 = depth h := hs.length
    have hrest : rest.length = depth (h ++ [.pop]) := by omega
    exact ⟨hrest, hs.tracks.2.concat hrest.le nofun nofun⟩

/-- A variable is declared unless no frame is open or the innermost one has a variable of the name. -/
theorem Keeps.declare_eq_none_iff (hs : Keeps h s) (v : LocalVar) :
    s.declare v = none ↔ depth h = 0 ∨ ∃ k w, Holds h (depth h) k w ∧ w.name = v.name := by
  obtain ⟨frames⟩ := s
  rw [← hs.length]
  cases frames with
  | nil => exact ⟨fun _ => .inl rfl, fun _ => rfl⟩
  | cons frame rest =>
    have hframe : (frame.var? v.name).isSome ↔ ∃ k w, Holds h (rest.length + 1) k w ∧ w.name = v.name :=
      hs.tracks.1.isSome_var?_iff
    rw [List.length_cons, or_iff_right (Nat.succ_ne_zero _), ← hframe, declare_cons]
    split_ifs with hsome
    · exact iff_of_true rfl hsome
    · exact iff_of_false nofun hsome

theorem Keeps.declare (hs : Keeps h s) (v : LocalVar) :
    Keeps (h ++ [.declare v]) ((s.declare v).getD s) := by
  have hdepth : depth (h ++ [.declare v]) = depth h := depth_concat h (.declare v)
  have hmarked (k : Nat) : Marked (h ++ [.declare v]) k ↔ Marked h k := by
    rw [marked_concat, or_iff_left]
    rintro ⟨name, w, ⟨⟩, -⟩
  have hfails := hs.declare_eq_none_iff v
  cases hdeclare : s.declare v with
  | none =>
    -- the name is taken, so nothing new is held
    have hheld (d k : Nat) (w : LocalVar) : Holds (h ++ [.declare v]) d k w ↔ Holds h d k w := by
      rw [holds_concat, hdepth, and_iff_left_of_imp Holds.le_depth, or_iff_left]
      rintro ⟨⟨⟩, -, -, hinside, hfresh⟩
      obtain hzero | ⟨k', w', hw', hname⟩ := hfails.mp hdeclare
      · omega
      · exact hfresh k' w' hw' hname
    exact ⟨hs.length.trans hdepth.symm, hs.tracks.congr (fun d _ => hheld d) fun _ _ k _ _ => hmarked k⟩
  | some s' =>
    rw [hdeclare, iff_false_left nofun] at hfails
    push Not at hfails
    obtain ⟨hinside, hfresh⟩ := hfails
    have hheld (d k : Nat) (w : LocalVar) : Holds (h ++ [.declare v]) d k w ↔
        Holds h d k w ∨ w = v ∧ k = h.length ∧ d = depth h := by
      rw [holds_concat, hdepth, and_iff_left_of_imp Holds.le_depth]
      refine or_congr_right ⟨?_, ?_⟩
      · rintro ⟨⟨⟩, hk, hd, -, -⟩
        exact ⟨rfl, hk, hd⟩
      · rintro ⟨rfl, hk, hd⟩
        exact ⟨rfl, hk, hd, Nat.pos_of_ne_zero hinside, hfresh⟩
    obtain ⟨frames⟩ := s
    cases frames with
    | nil => cases hdeclare
    | cons frame rest =>
      have hlength : rest.length + 1 = depth h := hs.length
      have hframes : s'.frames = { frame with vars := frame.vars ++ [v] } :: rest := by
        rw [declare_cons] at hdeclare
        split_ifs at hdeclare
        cases hdeclare
        rfl
      rw [Option.getD_some]
      refine ⟨?_, ?_⟩
      · rw [hframes, hdepth]
        exact hlength
      rw [hframes]
      refine ⟨hs.tracks.1.concat (fun k w => ?_) hmarked,
        hs.tracks.2.congr (fun d hd k w => ?_) fun _ _ k _ _ => hmarked k⟩
      · rw [hheld, hlength]
        simp
      · rw [hheld, or_iff_left]
        rintro ⟨-, -, rfl⟩
        omega

theorem Keeps.markUsed (hs : Keeps h s) (name : String) : Keeps (h ++ [.markUsed name]) (s.markUsed name) := by
  have hdepth : depth (h ++ [.markUsed name]) = depth h := depth_concat h (.markUsed name)
  have hmarks : Marks h (h ++ [.markUsed name]) name := by
    refine ⟨fun d k v => ?_, fun k => ?_⟩
    · rw [holds_concat, hdepth, and_iff_left_of_imp Holds.le_depth, or_iff_left]
      rintro ⟨⟨⟩, -⟩
    · rw [marked_concat]
      refine or_congr_right ⟨?_, ?_⟩
      · rintro ⟨_, v, ⟨⟩, hv⟩
        exact ⟨v, hv⟩
      · rintro ⟨v, hv⟩
        exact ⟨name, v, rfl, hv⟩
  refine ⟨?_, hs.tracks.markFrames (hs.hiddenBeyond name) hmarks⟩
  rw [hdepth, ← hs.length]
  exact length_markFrames name s.frames

theorem Keeps.declareAlias (hs : Keeps h s) (name : String) (entry : AliasEntry) :
    Keeps (h ++ [.declareAlias name entry]) (s.declareAlias name entry).2 := by
  have hdepth : depth (h ++ [.declareAlias name entry]) = depth h := depth_concat h (.declareAlias name entry)
  have htracks : Tracks (h ++ [.declareAlias name entry]) s.frames :=
    hs.tracks.concat (hs.length.trans hdepth.symm).le nofun nofun
  obtain ⟨frames⟩ := s
  cases frames with
  | nil => exact ⟨hs.length.trans hdepth.symm, htracks⟩
  | cons frame rest => exact ⟨hs.length.trans hdepth.symm, htracks⟩

theorem Keeps.act (hs : Keeps h s) (op : Op) : Keeps (h ++ [op]) (s.act op) := by
  cases op with
  | push => exact hs.push
  | pop => exact hs.pop
  | declare v => exact hs.declare v
  | markUsed name => exact hs.markUsed name
  | declareAlias name entry => exact hs.declareAlias name entry
  | lookup name =>
    have hdepth := hs.length.trans (depth_concat h (.lookup name)).symm
    exact ⟨hdepth, hs.tracks.concat hdepth.le nofun nofun⟩
  | «alias» name =>
    have hdepth := hs.length.trans (depth_concat h (.alias name)).symm
    exact ⟨hdepth, hs.tracks.concat hdepth.le nofun nofun⟩

/-- The scope that a history leads to keeps what the history says. -/
theorem keeps_run (h : List Op) : Keeps h (run h) := by
  induction h using List.reverseRecOn with
  | nil => exact ⟨rfl, trivial⟩
  | append_singleton h op ih =>
    rw [run_concat]
    exact ih.act op

end Steps

/-! ### Answers -/

theorem Keeps.lookup_eq_some_iff {h : List Op} {s : Scope} (hs : Keeps h s) {name : String} {w : LocalVar} :
    s.lookup name = some w ↔ ∃ k v, Visible h name k v ∧ Flagged v (Marked h k) w := by
  have hspec := hs.tracks.findSome?_spec (hs.hiddenBeyond name)
  rw [lookup]
  constructor
  · intro hw
    rw [hw] at hspec
    exact hspec
  · rintro ⟨k, v, hvisible, hflagged⟩
    cases hfound : s.frames.findSome? (·.var? name) with
    | none =>
      rw [hfound] at hspec
      obtain ⟨d, hheld, -⟩ := hvisible.innermost
      exact absurd hvisible.name_eq (hspec d k v hheld)
    | some w' =>
      rw [hfound] at hspec
      obtain ⟨k', v', hvisible', hflagged'⟩ := hspec
      obtain ⟨rfl, rfl⟩ := hvisible.unique hvisible'
      rw [hflagged.unique hflagged']

/-- The items that pass a test have a part of the positions, and so have the others the rest. -/
theorem exists_forall₂_filter {α β : Type} {R : α → β → Prop} {as : List α} {bs : List β}
    (h : List.Forall₂ R as bs) (p : β → Bool) : ∃ as', as'.Sublist as ∧
      List.Forall₂ (fun a b => R a b ∧ p b = true) as' (bs.filter p) ∧
      ∀ a ∈ as, a ∈ as' ∨ ∃ b, R a b ∧ p b = false := by
  induction h with
  | nil => exact ⟨[], .slnil, .nil, nofun⟩
  | @cons a b as bs hab _ ih =>
    obtain ⟨as', hsub, hrel, hrest⟩ := ih
    cases hp : p b with
    | true =>
      refine ⟨a :: as', hsub.cons_cons a, ?_, List.forall_mem_cons.mpr ⟨.inl List.mem_cons_self, ?_⟩⟩
      · rw [List.filter_cons_of_pos hp]
        exact .cons ⟨hab, hp⟩ hrel
      · exact fun a' ha' => (hrest a' ha').imp_left (List.mem_cons_of_mem a)
    | false =>
      refine ⟨as', hsub.cons a, ?_, List.forall_mem_cons.mpr ⟨.inr ⟨b, hab, hp⟩, hrest⟩⟩
      rw [List.filter_cons_of_neg (by simp [hp])]
      exact hrel

/-- A variable that is reported when its frame closes: no parameter, not declared as used, and never marked. -/
structure Unused (h : List Op) (k : Nat) (v : LocalVar) : Prop where
  held : Holds h (depth h) k v
  isParam : v.isParam = false
  isUsed : v.isUsed = false
  unmarked : ¬Marked h k

theorem Flagged.unused_iff {h : List Op} {k : Nat} {v w : LocalVar} (hv : Holds h (depth h) k v)
    (hw : Flagged v (Marked h k) w) : (!w.isUsed && !w.isParam) = true ↔ Unused h k v := by
  have hparam : w.isParam = v.isParam := by rw [hw.same]
  have hused := hw.used_iff
  constructor
  · intro h
    simp only [Bool.and_eq_true, Bool.not_eq_true'] at h
    rw [h.1, iff_false_left Bool.false_ne_true, not_or] at hused
    exact ⟨hv, hparam ▸ h.2, by simpa using hused.1, hused.2⟩
  · rintro ⟨-, hp, hu, hm⟩
    have hfalse : w.isUsed = false := by
      rw [← Bool.not_eq_true, hused, not_or]
      exact ⟨by simp [hu], hm⟩
    simp [hfalse, hparam, hp]

/-- What closing the innermost frame reports, by the numbers of the declarations. -/
theorem Keeps.pop_unused {h : List Op} {s : Scope} (hs : Keeps h s) :
    ∃ ks : List Nat, ks.Pairwise (· < ·) ∧ (∀ k, k ∈ ks ↔ ∃ v, Unused h k v) ∧
      List.Forall₂ (fun k v => h[k]? = some (.declare v)) ks s.pop.1 := by
  obtain ⟨frames⟩ := s
  cases frames with
  | nil =>
    refine ⟨[], .nil, fun k => iff_of_false List.not_mem_nil ?_, .nil⟩
    rintro ⟨v, hunused⟩
    have hzero : 0 = depth h := hs.length
    have := hunused.held.pos
    omega
  | cons frame rest =>
    have hlength : rest.length + 1 = depth h := hs.length
    obtain ⟨ks, hsorted, hks, hall⟩ := hs.tracks.1
    rw [hlength] at hks hall
    obtain ⟨ks', hsub, hreported, hothers⟩ := exists_forall₂_filter hks fun w => !w.isUsed && !w.isParam
    have hunused {k : Nat} {w : LocalVar} (hw : ∃ v, Holds h (depth h) k v ∧ Flagged v (Marked h k) w)
        (hp : (!w.isUsed && !w.isParam) = true) : Unused h k w := by
      obtain ⟨v, hv, hflagged⟩ := hw
      have hunused := (hflagged.unused_iff hv).mp hp
      rw [hflagged.unique ⟨rfl, (or_iff_left hunused.unmarked).symm⟩]
      exact hunused
    refine ⟨ks', hsorted.sublist hsub, fun k => ⟨fun hk => ?_, ?_⟩, hreported.imp fun k w hw => ?_⟩
    · obtain ⟨n, hn, rfl⟩ := List.getElem_of_mem hk
      have hn' := hreported.length_eq ▸ hn
      obtain ⟨hw, hp⟩ := (List.forall₂_iff_get.mp hreported).2 n hn hn'
      exact ⟨_, hunused hw hp⟩
    · rintro ⟨v, hv⟩
      obtain hk | ⟨w, ⟨v', hv', hflagged⟩, hp⟩ := hothers k ((hall k).mpr ⟨v, hv.held⟩)
      · exact hk
      · obtain ⟨-, rfl⟩ := hv.held.same hv'
        rw [(hflagged.unused_iff hv').mpr hv] at hp
        cases hp
    · exact (hunused hw.1 hw.2).held.declares.op

/-! ### Segments -/

/-- In the segment every frame that is opened is closed again, and no other. -/
inductive Closed : List Op → Prop
  | nil : Closed []
  | other {op : Op} {rest : List Op} (hpush : op ≠ .push) (hpop : op ≠ .pop) (h : Closed rest) :
    Closed (op :: rest)
  | block {body rest : List Op} (hbody : Closed body) (hrest : Closed rest) :
    Closed (.push :: body ++ .pop :: rest)

/-- The variable without the flag that it has been used. -/
def unflagged (v : LocalVar) : LocalVar := { v with isUsed := false }

/-- The frame without the flags of its variables. -/
def plain (frame : Frame) : Frame := { frame with vars := frame.vars.map unflagged }

theorem var?_plain (frame : Frame) (name : String) :
    (plain frame).var? name = (frame.var? name).map unflagged := by
  rw [plain, Frame.var?, Frame.var?, List.find?_map]
  rfl

theorem map_lookup_unflagged (s : Scope) (name : String) :
    (s.lookup name).map unflagged = (s.frames.map plain).findSome? (·.var? name) := by
  rw [lookup, List.findSome?_map, List.map_findSome?]
  refine congrArg (fun f => s.frames.findSome? f) (funext fun frame => ?_)
  exact (var?_plain frame name).symm

theorem alias?_eq_plain (s : Scope) (name : String) :
    s.alias? name = (s.frames.map plain).findSome? (·.aliases.get? name) := by
  rw [alias?, List.findSome?_map]
  rfl

theorem plain_markUsed (frame : Frame) (name : String) : plain (frame.markUsed name) = plain frame := by
  rw [plain, plain, Frame.markUsed, List.map_map]
  refine congrArg (fun vars => { frame with vars }) (List.map_congr_left fun v _ => ?_)
  rw [Function.comp_apply]
  split <;> rfl

theorem map_plain_markFrames (name : String) (frames : List Frame) :
    (markFrames name frames).map plain = frames.map plain := by
  induction frames with
  | nil => rfl
  | cons frame rest ih =>
    unfold markFrames
    split
    · rw [List.map_cons, List.map_cons, plain_markUsed]
    · rw [List.map_cons, List.map_cons, ih]

/-- The frames below the innermost one are the same but for flags. -/
structure SameBelow (s s' : Scope) : Prop where
  length : s'.frames.length = s.frames.length
  below : s'.frames.tail.map plain = s.frames.tail.map plain

theorem SameBelow.trans {s s' s'' : Scope} (h : SameBelow s s') (h' : SameBelow s' s'') : SameBelow s s'' :=
  ⟨h'.length.trans h.length, h'.below.trans h.below⟩

theorem sameBelow_act {op : Op} (hpush : op ≠ .push) (hpop : op ≠ .pop) (s : Scope) :
    SameBelow s (s.act op) := by
  obtain ⟨frames⟩ := s
  cases op with
  | push => exact absurd rfl hpush
  | pop => exact absurd rfl hpop
  | lookup name => exact ⟨rfl, rfl⟩
  | «alias» name => exact ⟨rfl, rfl⟩
  | markUsed name =>
    refine ⟨length_markFrames name frames, ?_⟩
    have hframes := congrArg List.tail (map_plain_markFrames name frames)
    rwa [← List.map_tail, ← List.map_tail] at hframes
  | declareAlias name entry => cases frames <;> exact ⟨rfl, rfl⟩
  | declare v =>
    cases frames with
    | nil => exact ⟨rfl, rfl⟩
    | cons frame rest =>
      rw [act, declare_cons]
      split_ifs <;> exact ⟨rfl, rfl⟩

theorem frames_pop (s : Scope) : s.pop.2.frames = s.frames.tail := by
  obtain ⟨frames⟩ := s
  cases frames <;> rfl

/-- The frames are the same but for flags once a segment has been closed. -/
theorem map_plain_pop {s s' : Scope} (h : SameBelow s.push s') :
    s'.pop.2.frames.map plain = s.frames.map plain := by
  rw [frames_pop]
  exact h.below

theorem after_block (s : Scope) (body rest : List Op) :
    s.after (.push :: body ++ .pop :: rest) = ((s.push.after body).pop.2).after rest := by
  rw [after_append]
  rfl

/-- A segment that closes what it opens works on the innermost frame and, but for flags, on no other. -/
theorem Closed.sameBelow {body : List Op} (hbody : Closed body) {s : Scope} (hopen : s.frames ≠ []) :
    SameBelow s (s.after body) := by
  induction hbody generalizing s with
  | nil => exact ⟨rfl, rfl⟩
  | other hpush hpop _ ih =>
    have hstep := sameBelow_act hpush hpop s
    refine hstep.trans (ih ?_)
    rwa [← List.length_pos_iff, hstep.length, List.length_pos_iff]
  | @block body rest _ _ ih ih' =>
    have hframes := map_plain_pop (ih (s := s.push) (List.cons_ne_nil _ _))
    have hblock : SameBelow s (s.push.after body).pop.2 := by
      refine ⟨by simpa using congrArg List.length hframes, ?_⟩
      rw [List.map_tail, List.map_tail, hframes]
    rw [after_block]
    refine hblock.trans (ih' ?_)
    rwa [← List.length_pos_iff, hblock.length, List.length_pos_iff]

/-- A scope is a stack of environments, whatever has been done to it.  A name is looked up in the innermost
open frame that holds a variable of it.  A segment from a `push` to its `pop` leaves all variables, but for
flags that they have been used, and all aliases as they were.  A variable is declared unless no frame is open
or the innermost one holds a variable of the name.  And what closing a frame reports are the variables of the
frame, in the order of their declarations, that are no parameters, were not declared as used and have not
been marked while they were the visible ones. -/
theorem run_environments (h : List Op) :
    (∀ name w, (run h).lookup name = some w ↔ ∃ k v, Visible h name k v ∧ Flagged v (Marked h k) w) ∧
    (∀ body, Closed body → ∀ name,
      ((run (h ++ .push :: body ++ [.pop])).lookup name).map unflagged = ((run h).lookup name).map unflagged ∧
      (run (h ++ .push :: body ++ [.pop])).alias? name = (run h).alias? name) ∧
    (∀ v, (run h).declare v = none ↔ depth h = 0 ∨ ∃ k w, Holds h (depth h) k w ∧ w.name = v.name) ∧
    ∃ ks : List Nat, ks.Pairwise (· < ·) ∧ (∀ k, k ∈ ks ↔ ∃ v, Unused h k v) ∧
      List.Forall₂ (fun k v => h[k]? = some (.declare v)) ks (run h).pop.1 := by
  have hkeeps := keeps_run h
  refine ⟨fun name w => hkeeps.lookup_eq_some_iff, fun body hbody name => ?_, hkeeps.declare_eq_none_iff,
    hkeeps.pop_unused⟩
  have hframes : (run (h ++ .push :: body ++ [.pop])).frames.map plain = (run h).frames.map plain := by
    rw [List.append_assoc, run, after_append, after_block]
    exact map_plain_pop (hbody.sameBelow (List.cons_ne_nil _ _))
  rw [map_lookup_unflagged, map_lookup_unflagged, alias?_eq_plain, alias?_eq_plain, hframes]
  exact ⟨rfl, rfl⟩

/-- A variable of type `int`. -/
def intVar (name : String) (isParam isUsed : Bool) : LocalVar :=
  { name, type := .scalar .int, slot := .null (.ptr .i32), span := default, isParam, isUsed }

/-- A parameter and a variable in the frame of a function. -/
def parameterAndVariable : List Op :=
  [.push, .declare (intVar "p" true false), .declare (intVar "x" false false)]

/-- A declaration that shadows the variable, and a mark. -/
def shadowing : List Op := [.declare (intVar "x" false false), .markUsed "x"]

/-- The outer variable is found again once the inner one is gone, and it is reported: the mark was not its. -/
theorem run_environments_shadowing : Closed shadowing ∧
    ((run (parameterAndVariable ++ .push :: shadowing ++ [.pop])).lookup "x").map unflagged =
      ((run parameterAndVariable).lookup "x").map unflagged ∧
    (run (parameterAndVariable ++ .push :: shadowing ++ [.pop])).pop.1 = [intVar "x" false false] := by
  have hclosed : Closed shadowing := .other nofun nofun (.other nofun nofun .nil)
  exact ⟨hclosed, ((run_environments parameterAndVariable).2.1 shadowing hclosed "x").1, rfl⟩

/-- A variable that was declared as used, as the value under construction is, is not reported though it is no
parameter and has never been marked. -/
theorem pop_omits_declared_used : let v := intVar "this" false true
    let h : List Op := [.push, .declare v]
    Holds h (depth h) 1 v ∧ v.isParam = false ∧ ¬Marked h 1 ∧ (run h).pop.1 = [] := by
  intro v h
  have hfresh : Fresh [.push] v.name := by
    intro k w hw
    obtain rfl : k = 0 := Nat.lt_one_iff.mp hw.lt
    cases hw.declares.op
  refine ⟨?_, rfl, ?_, rfl⟩
  · exact holds_concat.mpr (.inr ⟨rfl, rfl, rfl, by decide, hfresh⟩)
  · rintro ⟨before, name, later, w, heq, -⟩
    have hmem : Op.markUsed name ∈ h := by
      rw [heq]
      exact List.mem_append_right before List.mem_cons_self
    simp [h] at hmem

end Scope
end UnitCompiler
