import Mathlib

/-!
# Bracketed text

Words in which `( )`, `[ ]` and `< >` pair up.  Two facts make a notation built from such words readable:
an opening bracket before a balanced word has only one place, and a word without a separator outside its
brackets ends where the separator stands.
-/

namespace UnitCompiler.Bracketed

/-- `1` for an opening bracket, `-1` for a closing one. -/
def nesting : Char → Int
  | '(' | '[' | '<' => 1
  | ')' | ']' | '>' => -1
  | _ => 0

/-- Opening brackets minus closing ones. -/
def depth (w : List Char) : Int := (w.map nesting).sum

@[simp] theorem depth_nil : depth [] = 0 := rfl

@[simp] theorem depth_cons (c : Char) (w : List Char) : depth (c :: w) = nesting c + depth w := by
  simp [depth]

@[simp] theorem depth_append (v w : List Char) : depth (v ++ w) = depth v + depth w := by
  simp [depth]

/-- Every bracket of the word has its partner in the word. -/
structure Balanced (w : List Char) : Prop where
  nonneg : ∀ u, u <+: w → 0 ≤ depth u
  closed : depth w = 0

/-- No `sep` stands outside the brackets of the word. -/
def Guards (sep : Char) (w : List Char) : Prop := ∀ u, u ++ [sep] <+: w → depth u ≠ 0

/-- No bracket is in the word. -/
def Flat (w : List Char) : Prop := ∀ c ∈ w, nesting c = 0

theorem Flat.depth {w : List Char} (h : Flat w) : depth w = 0 := by
  induction w with
  | nil => rfl
  | cons c w ih =>
    have hc := h c (by simp)
    have hw := ih fun d hd => h d (by simp [hd])
    simp [hc, hw]

theorem Flat.balanced {w : List Char} (h : Flat w) : Balanced w := by
  constructor
  · intro u hu
    have hflat : Flat u := fun c hc => h c (hu.subset hc)
    rw [hflat.depth]
  · exact h.depth

theorem Guards.of_notMem {sep : Char} {w : List Char} (h : sep ∉ w) : Guards sep w := by
  intro u hu
  exact absurd (hu.subset (by simp)) h

/-- A beginning of two words in a row stays in the first or reaches into the second. -/
theorem prefix_append_cases {u v w : List Char} (h : u <+: v ++ w) :
    u <+: v ∨ ∃ t, u = v ++ t ∧ t <+: w := by
  obtain ⟨r, hr⟩ := h
  obtain ⟨m, hm, -⟩ | ⟨m, hm, hrest⟩ := List.append_eq_append_iff.mp hr
  · exact .inl ⟨m, hm.symm⟩
  · exact .inr ⟨m, hm, r, hrest.symm⟩

theorem Balanced.nil : Balanced [] := Flat.balanced (by simp [Flat])

theorem Balanced.append {v w : List Char} (hv : Balanced v) (hw : Balanced w) : Balanced (v ++ w) := by
  constructor
  · intro u hu
    obtain hu | ⟨t, rfl, ht⟩ := prefix_append_cases hu
    · exact hv.nonneg u hu
    · simpa [hv.closed] using hw.nonneg t ht
  · simp [hv.closed, hw.closed]

/-- A separator that is no bracket may stand between balanced words. -/
theorem Balanced.cons {c : Char} {w : List Char} (hc : nesting c = 0) (hw : Balanced w) :
    Balanced (c :: w) :=
  (Flat.balanced (w := [c]) (by simpa [Flat] using hc)).append hw

theorem Guards.append {sep : Char} {v w : List Char} (hb : Balanced v) (hv : Guards sep v)
    (hw : Guards sep w) : Guards sep (v ++ w) := by
  intro u hu
  obtain hu | ⟨t, ht, hpre⟩ := prefix_append_cases hu
  · exact hv u hu
  · obtain rfl | ⟨s, rfl⟩ : t = [] ∨ ∃ s, t = s ++ [sep] := by
      obtain rfl | ⟨s, c, rfl⟩ := List.eq_nil_or_concat' t
      · exact .inl rfl
      · have := congrArg List.getLast? ht
        simp at this
        exact .inr ⟨s, by rw [this]⟩
    · exact hv u (by simp [ht])
    · have hu' : u = v ++ s := by
        rw [← List.append_assoc] at ht
        exact List.append_cancel_right ht
      simpa [hu', hb.closed] using hw s hpre

section Enclosing

variable {o c : Char} {w : List Char}

/-- Inside its own pair of brackets, a word is one level down. -/
theorem depth_pos_inside (ho : nesting o = 1) (hw : Balanced w) {u : List Char} (hu : u <+: w) :
    0 < depth (o :: u) := by
  have := hw.nonneg u hu
  simp [ho]
  omega

theorem Balanced.enclose (ho : nesting o = 1) (hc : nesting c = -1) (hw : Balanced w) :
    Balanced (o :: (w ++ [c])) := by
  have hclosed : Bracketed.depth (o :: (w ++ [c])) = 0 := by simp [ho, hc, hw.closed]
  constructor
  · intro u hu
    obtain rfl | ⟨t, rfl, ht⟩ := List.prefix_cons_iff.mp hu
    · simp
    · obtain rfl | ht := List.prefix_concat_iff.mp ht
      · exact hclosed.ge
      · exact (depth_pos_inside ho hw ht).le
  · exact hclosed

theorem Guards.enclose {sep : Char} (hs : nesting sep = 0) (ho : nesting o = 1) (hc : nesting c = -1)
    (hw : Balanced w) : Guards sep (o :: (w ++ [c])) := by
  intro u hu
  obtain rfl | ⟨t, rfl⟩ : u = [] ∨ ∃ t, u = o :: t := by
    cases u with
    | nil => exact .inl rfl
    | cons d t => exact .inr ⟨t, by simp_all⟩
  · have : sep = o := by simpa using hu
    rw [this, ho] at hs
    exact absurd hs (by decide)
  · have hpre : t ++ [sep] <+: w ++ [c] := by simpa using hu
    obtain heq | hpre := List.prefix_concat_iff.mp hpre
    · have : sep = c := by simpa using congrArg List.getLast? heq
      rw [this, hc] at hs
      exact absurd hs (by decide)
    · exact (depth_pos_inside ho hw ((List.prefix_append t [sep]).trans hpre)).ne'

end Enclosing

/-- The bracket that opens the last balanced word of a text has one place. -/
theorem open_unique {o : Char} {v v' w w' : List Char} (ho : nesting o = 1) (hw : Balanced w)
    (hw' : Balanced w') (h : v ++ o :: w = v' ++ o :: w') : v = v' ∧ w = w' := by
  -- if one of the words were longer, its overhang would be an unpaired bracket
  have longer : ∀ {a b x y : List Char}, Balanced x → Balanced y → a ++ o :: x = b ++ o :: y →
      ∀ m, b ++ [o] = a ++ [o] ++ m → x = m ++ y → m = [] := by
    intro a b x y hx hy _ m hm hxy
    obtain rfl | ⟨n, d, rfl⟩ := List.eq_nil_or_concat' m
    · rfl
    · have hd : o = d := by simpa [List.getLast?_cons] using congrArg List.getLast? hm
      subst hd
      have hn := hx.nonneg n ⟨[o] ++ y, by simp [hxy]⟩
      have hc := hx.closed
      rw [hxy] at hc
      simp [ho, hy.closed] at hc
      omega
  have hsplit : v ++ [o] ++ w = v' ++ [o] ++ w' := by simpa using h
  obtain ⟨m, hv, hm⟩ | ⟨m, hv, hm⟩ := List.append_eq_append_iff.mp hsplit
  · have := longer hw hw' h m hv hm
    subst this
    exact ⟨by simpa using hv.symm, by simpa using hm⟩
  · have := longer hw' hw h.symm m hv hm
    subst this
    exact ⟨by simpa using hv, by simpa using hm.symm⟩

/-- A word that can be followed by a separator: balanced, and without that separator outside brackets. -/
structure Item (sep : Char) (w : List Char) : Prop where
  balanced : Balanced w
  guards : Guards sep w

theorem Item.append {sep : Char} {v w : List Char} (hv : Item sep v) (hw : Item sep w) :
    Item sep (v ++ w) :=
  ⟨hv.balanced.append hw.balanced, hv.guards.append hv.balanced hw.guards⟩

theorem Item.of_flat {sep : Char} {w : List Char} (h : Flat w) (hs : sep ∉ w) : Item sep w :=
  ⟨h.balanced, .of_notMem hs⟩

theorem Item.enclose {o c : Char} {w : List Char} (sep : Char) (hs : nesting sep = 0) (ho : nesting o = 1)
    (hc : nesting c = -1) (hw : Balanced w) : Item sep (o :: (w ++ [c])) :=
  ⟨hw.enclose ho hc, .enclose hs ho hc hw⟩

/-- Where a text goes on behind an item, it goes on with the separator or ends. -/
def Ends (sep : Char) (r : List Char) : Prop := r = [] ∨ ∃ s, r = sep :: s

/-- Two items in front of the same text are equal. -/
theorem Item.split {sep : Char} {v w r s : List Char} (hv : Item sep v) (hw : Item sep w)
    (hr : Ends sep r) (hs : Ends sep s) (h : v ++ r = w ++ s) : v = w ∧ r = s := by
  have longer : ∀ {a b x y m : List Char}, Item sep a → Item sep b → Ends sep x →
      b = a ++ m → x = m ++ y → m = [] := by
    intro a b x y m ha hb hx hm hxy
    cases m with
    | nil => rfl
    | cons d n =>
      obtain rfl | ⟨z, rfl⟩ := hx
      · simp at hxy
      · have hd : d = sep := by simpa using (congrArg List.head? hxy).symm
        subst hd
        exact absurd ha.balanced.closed (hb.guards a ⟨n, by simp [hm]⟩)
  obtain ⟨m, hm, hrest⟩ | ⟨m, hm, hrest⟩ := List.append_eq_append_iff.mp h
  · have := longer hv hw hr hm hrest
    subst this
    simp_all
  · have := longer hw hv hs hm hrest
    subst this
    simp_all

/-- The words of a list, each behind the separator. -/
def behind (sep : Char) (ws : List (List Char)) : List Char := ws.flatMap (sep :: ·)

@[simp] theorem behind_nil (sep : Char) : behind sep [] = [] := rfl

@[simp] theorem behind_cons (sep : Char) (w : List Char) (ws : List (List Char)) :
    behind sep (w :: ws) = sep :: w ++ behind sep ws := rfl

theorem ends_behind (sep : Char) (ws : List (List Char)) : Ends sep (behind sep ws) := by
  cases ws with
  | nil => exact .inl rfl
  | cons w ws => exact .inr ⟨w ++ behind sep ws, rfl⟩

theorem Balanced.behind {sep : Char} (hs : nesting sep = 0) {ws : List (List Char)}
    (h : ∀ w ∈ ws, Balanced w) : Balanced (behind sep ws) := by
  induction ws with
  | nil => exact .nil
  | cons w ws ih =>
    have hw := h w (by simp)
    have hrest := ih fun v hv => h v (by simp [hv])
    exact (hw.cons hs).append hrest

/-- Items are read off the text they make, one by one. -/
theorem behind_injective {sep : Char} {vs ws : List (List Char)} (hv : ∀ v ∈ vs, Item sep v)
    (hw : ∀ w ∈ ws, Item sep w) (h : behind sep vs = behind sep ws) : vs = ws := by
  induction vs generalizing ws with
  | nil => cases ws <;> simp_all
  | cons v vs ih =>
    cases ws with
    | nil => simp at h
    | cons w ws =>
      have htext : v ++ Bracketed.behind sep vs = w ++ Bracketed.behind sep ws := by simpa using h
      obtain ⟨rfl, hrest⟩ := (hv v (by simp)).split (hw w (by simp)) (ends_behind sep vs)
        (ends_behind sep ws) htext
      rw [ih (fun x hx => hv x (by simp [hx])) (fun x hx => hw x (by simp [hx])) hrest]

theorem intercalate_cons (sep : Char) (w : List Char) (ws : List (List Char)) :
    [sep].intercalate (w :: ws) = w ++ behind sep ws := by
  induction ws generalizing w with
  | nil => simp
  | cons v ws ih => rw [List.intercalate_cons_cons, ih]; simp

theorem Balanced.intercalate {sep : Char} (hs : nesting sep = 0) {ws : List (List Char)}
    (h : ∀ w ∈ ws, Balanced w) : Balanced ([sep].intercalate ws) := by
  cases ws with
  | nil => simpa using Balanced.nil
  | cons w ws =>
    rw [intercalate_cons]
    exact (h w (by simp)).append (.behind hs fun v hv => h v (by simp [hv]))

/-- A separated list of items that are not empty is read off its text. -/
theorem intercalate_injective {sep : Char} {vs ws : List (List Char)}
    (hv : ∀ v ∈ vs, Item sep v ∧ v ≠ []) (hw : ∀ w ∈ ws, Item sep w ∧ w ≠ [])
    (h : [sep].intercalate vs = [sep].intercalate ws) : vs = ws := by
  match vs, ws with
  | [], [] => rfl
  | [], w :: ws => simp_all [intercalate_cons]
  | v :: vs, [] => simp_all [intercalate_cons]
  | v :: vs, w :: ws =>
    have htext : behind sep (v :: vs) = behind sep (w :: ws) := by
      simpa [intercalate_cons] using h
    exact behind_injective (fun x hx => (hv x hx).1) (fun x hx => (hw x hx).1) htext

end UnitCompiler.Bracketed
