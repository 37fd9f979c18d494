import UnitCompiler.Proofs.Compile.Defers

/-!
# Emission of statements

The code that is emitted for a statement does what the statement does, wherever in a function it
stands.  The deferred assignments that have code are those that can be reached, in their order.
-/

namespace UnitCompiler
open Machine

namespace CompileM

mutual

/-- The emission of every statement is right. -/
theorem emitStmt_spec : ∀ s : Stmt, StmtWorks s
  | .block body => blockWorks_of_itemsWork (emitItems_spec body)
  | .simple s => by
    intro hat hsite ho _ h
    obtain ⟨F', L', hscope, hemits⟩ := emitSimple_spec hsite ho hat h
    exact ⟨F', L', .of_simple hemits hscope⟩
  | .ifThen _ yes => stmtWorks_ifThen (blockWorks_of_itemsWork (emitItems_spec yes))
  | .ifElse _ yes no => stmtWorks_ifElse (blockWorks_of_itemsWork (emitItems_spec yes))
      (blockWorks_of_itemsWork (emitItems_spec no))
  | .whileLoop _ body => stmtWorks_while (blockWorks_of_itemsWork (emitItems_spec body))
  | .forLoop _ _ _ body => stmtWorks_for (blockWorks_of_itemsWork (emitItems_spec body))
  | .switch _ cases => stmtWorks_switch (emitCases_spec cases)
  | .leave => stmtWorks_leave
  | .again => stmtWorks_again
  | .ret _ => stmtWorks_ret
  | .defer _ => stmtWorks_defer

theorem emitItems_spec : ∀ body : Body, ItemsWork body
  | .nil => itemsWork_nil
  | .cons first rest => itemsWork_cons (emitStmt_spec first) (emitItems_spec rest)

theorem emitCases_spec : ∀ cases : Cases, CasesWork cases
  | .nil => casesWork_nil
  | .default body => casesWork_default (blockWorks_of_itemsWork (emitItems_spec body))
  | .case _ body rest => casesWork_case (blockWorks_of_itemsWork (emitItems_spec body))
      (emitCases_spec rest)

end

end CompileM

/-- The numbers of some deferred assignments lie in a range, and no two are the same. -/
structure Numbered (lo hi : Nat) (defers : List Deferred) : Prop where
  mem : ∀ d ∈ defers, lo ≤ d.number ∧ d.number < hi
  nodup : (defers.map (·.number)).Nodup

namespace Numbered

variable {lo mid hi : Nat} {defers defers' : List Deferred}

theorem nil : Numbered lo hi [] := ⟨by simp, by simp⟩

theorem append (h : Numbered lo mid defers) (h' : Numbered mid hi defers') (hlo : lo ≤ mid)
    (hhi : mid ≤ hi) : Numbered lo hi (defers ++ defers') := by
  refine ⟨fun d hd => ?_, ?_⟩
  · rcases List.mem_append.mp hd with hd | hd
    · exact ⟨(h.mem d hd).1, (h.mem d hd).2.trans_le hhi⟩
    · exact ⟨hlo.trans (h'.mem d hd).1, (h'.mem d hd).2⟩
  · rw [List.map_append, List.nodup_append]
    refine ⟨h.nodup, h'.nodup, fun n hn n' hn' heq => ?_⟩
    obtain ⟨d, hd, rfl⟩ := List.mem_map.mp hn
    obtain ⟨d', hd', rfl⟩ := List.mem_map.mp hn'
    have hlt := (h.mem d hd).2
    have hle := (h'.mem d' hd').1
    omega

end Numbered

mutual

theorem Stmt.numbered (E : Env) : ∀ s : Stmt, Numbered E.next (E.next + s.count) (s.defers E)
  | .block body => body.numbered E
  | .ifThen _ yes => yes.numbered E
  | .ifElse _ yes no => by
    have hno := no.numbered (E.skip yes.count)
    rw [Env.skip, Nat.add_assoc] at hno
    exact (yes.numbered E).append hno (Nat.le_add_right _ _) (by simp [Stmt.count])
  | .whileLoop _ body => body.numbered E
  | .forLoop init _ _ body => by
    have hbody := body.numbered (Simple.afterAll E init)
    rcases init with _ | decl | a
    · exact hbody
    · refine ⟨fun d hd => ?_, hbody.nodup⟩
      obtain ⟨hle, hlt⟩ := hbody.mem d hd
      exact ⟨(Nat.le_succ _).trans hle, hlt.trans_eq (Nat.add_assoc _ _ _)⟩
    · exact hbody
  | .switch _ cases => cases.numbered E
  | .simple _ => .nil
  | .leave => .nil
  | .again => .nil
  | .ret _ => .nil
  | .defer a => ⟨by simp [Stmt.defers, Stmt.count], by simp [Stmt.defers]⟩

theorem Body.numbered (E : Env) : ∀ body : Body, Numbered E.next (E.next + body.count) (body.defers E)
  | .nil => .nil
  | .cons first rest => by
    have hrest := rest.numbered (first.after E)
    rw [first.next_after, Nat.add_assoc] at hrest
    exact (first.numbered E).append hrest (Nat.le_add_right _ _) (by simp [Body.count])

theorem Cases.numbered (E : Env) :
    ∀ cases : Cases, Numbered E.next (E.next + cases.count) (cases.defers E)
  | .nil => .nil
  | .default body => body.numbered E
  | .case _ body rest => by
    have hrest := rest.numbered (E.skip body.count)
    rw [Env.skip, Nat.add_assoc] at hrest
    exact (body.numbered E).append hrest (Nat.le_add_right _ _) (by simp [Cases.count])

end

theorem Assignment.reached_run {a : Assignment} {names : List (String × Nat)} {s s' : Store}
    (h : a.run names s = some s') : s'.reached = s.reached := by
  obtain ⟨n, -, h⟩ := Option.bind_eq_some_iff.mp h
  obtain ⟨x, -, rfl⟩ := Option.map_eq_some_iff.mp h
  rfl

/-- Deferred assignments that have not been reached may be left out. -/
theorem runDefers_sublist {new defers : List Deferred} (hsub : new.Sublist defers)
    (hnodup : (defers.map (·.number)).Nodup) {s : Store}
    (hreached : ∀ d ∈ defers, s.reached d.number = true → d.number ∈ new.map (·.number)) :
    runDefers new s = runDefers defers s := by
  induction hsub generalizing s with
  | slnil => rfl
  | @cons new rest d hsub ih =>
    rw [List.map_cons, List.nodup_cons] at hnodup
    have hskip : ¬ s.reached d.number = true := fun hd =>
      hnodup.1 ((hsub.map _).subset (hreached d List.mem_cons_self hd))
    rw [runDefers, if_neg hskip, Option.bind_some]
    exact ih hnodup.2 fun d' hd' => hreached d' (List.mem_cons_of_mem _ hd')
  | @cons_cons new rest d hsub ih =>
    rw [List.map_cons, List.nodup_cons] at hnodup
    have hrest (s' : Store) (hs' : s'.reached = s.reached) : runDefers new s' = runDefers rest s' := by
      refine ih hnodup.2 fun d' hd' hd'' => ?_
      rw [hs'] at hd''
      rcases List.mem_cons.mp (hreached d' (List.mem_cons_of_mem _ hd') hd'') with heq | hmem
      · exact absurd (List.mem_map.mpr ⟨d', hd', heq⟩) hnodup.1
      · exact hmem
    rw [runDefers, runDefers]
    by_cases hd : s.reached d.number = true
    · rw [if_pos hd]
      cases hrun : d.assignment.run d.names s with
      | none => rfl
      | some s' => exact hrest s' (Assignment.reached_run hrun)
    · rw [if_neg hd]
      exact hrest s rfl

end UnitCompiler
