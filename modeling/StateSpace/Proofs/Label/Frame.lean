import StateSpace.Proofs.Label.Successor

/-!
# Frames are closed

The frame of an effect holds every precondition that shares a variable with the effect or with a
precondition of the frame (`Label.mem_frame_of_free`). So what an effect leaves out of the
precondition speaks of other variables, and values for the one and values for the other can be put
together (`Label.WellScoped.exists_fires_of_agree`). From a state that leaves each variable only one
value, a label therefore fires to whatever its successor describes
(`Label.Hygienic.exists_fires_of_determined`).
-/

namespace StateSpace

open Environment Renaming

/-! ## Collecting a frame -/

namespace Frame

variable {conjuncts : List Expr} {f g h : Frame} {n i : Nat} {e : Expr} {y : Variable}

/-- Taking in a conjunct makes its variables relevant. -/
theorem mem_relevant_takeIn : y ∈ (f.takeIn i e).relevant ↔ y ∈ f.relevant ∨ e.Free y := by
  suffices hFold : ∀ (ys xs : List Variable),
      y ∈ ys.foldl (fun xs x => Expr.insertVariable x xs) xs ↔ y ∈ xs ∨ y ∈ ys by
    rw [← Expr.mem_freeVariables]
    exact hFold e.freeVariables f.relevant
  intro ys
  induction ys with
  | nil => simp
  | cons x ys ih =>
    intro xs
    rw [List.foldl_cons, ih, Expr.mem_insertVariable, List.mem_cons]
    tauto

/-- More conjuncts are taken in, and so are their variables. -/
structure Grows (f g : Frame) : Prop where
  relevant : f.relevant ⊆ g.relevant
  included : f.included ⊆ g.included

theorem Grows.refl (f : Frame) : f.Grows f :=
  ⟨List.Subset.refl _, List.Subset.refl _⟩

theorem Grows.trans (hfg : f.Grows g) (hgh : g.Grows h) : f.Grows h :=
  ⟨List.Subset.trans hfg.relevant hgh.relevant, List.Subset.trans hfg.included hgh.included⟩

theorem grows_takeIn (f : Frame) (i : Nat) (e : Expr) : f.Grows (f.takeIn i e) :=
  ⟨fun _ hy => mem_relevant_takeIn.mpr (.inl hy), List.subset_append_left _ _⟩

/-- The variables of the conjuncts taken in are relevant. -/
def Absorbs (conjuncts : List Expr) (f : Frame) : Prop :=
  ∀ i ∈ f.included, ∀ e, conjuncts[i]? = some e → ∀ y, e.Free y → y ∈ f.relevant

/-- Taking in a conjunct keeps the variables of all of them relevant. -/
theorem Absorbs.takeIn (hf : f.Absorbs conjuncts) (hi : conjuncts[i]? = some e) :
    (f.takeIn i e).Absorbs conjuncts := by
  intro j hj e' he' y hy
  rw [mem_relevant_takeIn]
  rcases List.mem_append.mp hj with hj | hj
  · exact .inl (hf j hj e' he' y hy)
  · obtain rfl := List.mem_singleton.mp hj
    rw [hi] at he'
    cases he'
    exact .inr hy

/-- A scan only takes in, it keeps what was absorbed, and it leaves out no conjunct below its end
that mentions a relevant variable. -/
theorem collect_spec (conjuncts : List Expr) (n : Nat) (f : Frame) :
    f.Grows (collect conjuncts n f) ∧
    (f.Absorbs conjuncts → (collect conjuncts n f).Absorbs conjuncts) ∧
    ∀ i < n, ∀ e, conjuncts[i]? = some e → ∀ y ∈ (collect conjuncts n f).relevant, e.Free y →
      i ∈ (collect conjuncts n f).included := by
  induction n generalizing f with
  | zero => exact ⟨.refl f, id, fun i hi => absurd hi (Nat.not_lt_zero i)⟩
  | succ n ih =>
    obtain ⟨hGrows, hAbsorbs, hClosed⟩ := ih f
    unfold collect
    dsimp only
    -- `g` is closed below `n`; the conjunct at `n` may change that
    generalize collect conjuncts n f = g at hGrows hAbsorbs hClosed
    cases hn : conjuncts[n]? with
    | none =>
      refine ⟨hGrows, hAbsorbs, fun i hi e he y hy hFree => ?_⟩
      have hne : i ≠ n := by
        rintro rfl
        rw [hn] at he
        cases he
      exact hClosed i (by omega) e he y hy hFree
    | some conjunct =>
      dsimp only
      split
      · -- the conjunct is taken in, and those before it are scanned again
        obtain ⟨hGrows', hAbsorbs', hClosed'⟩ := ih (g.takeIn n conjunct)
        have hAll := (grows_takeIn g n conjunct).trans hGrows'
        refine ⟨hGrows.trans hAll, fun hf => hAbsorbs' ((hAbsorbs hf).takeIn hn),
          fun i hi e he y hy hFree => ?_⟩
        by_cases hne : i = n
        · subst hne
          exact hGrows'.included (List.mem_append_right _ (List.mem_singleton.mpr rfl))
        · exact hClosed' i (by omega) e he y hy hFree
      · next hSkip =>
        refine ⟨hGrows, hAbsorbs, fun i hi e he y hy hFree => ?_⟩
        by_cases hne : i = n
        · subst hne
          rw [hn] at he
          cases he
          have hMentions : conjunct.mentionsAny g.relevant = true :=
            List.any_eq_true.mpr
              ⟨y, hy, List.contains_iff_mem.mpr (Expr.mem_freeVariables.mpr hFree)⟩
          simpa [hMentions] using hSkip
        · exact hClosed i (by omega) e he y hy hFree

end Frame

namespace Label

variable {xs : List Variable} {l : Label} {s : SymbolicState} {t i : Nat} {x y : Variable}
  {e effect : Expr} {β γ after ρ τ : Environment}

/-! ## The variables of an effect -/

theorem free_effectOn_of_none (h : l.explicitEffect? x = none) (hy : (l.effectOn x).Free y) :
    y = x.primed ∨ y = x := by
  rw [effectOn, h] at hy
  have hNext : (Expr.var x.primed).Within [x.primed, x] := Expr.within_var (by simp)
  have hCurrent : (Expr.var x).Within [x.primed, x] := Expr.within_var (by simp)
  simpa using (hNext.equal hCurrent).inScope y hy

/-- An effect on a variable mentions what the conjuncts of its frame do. -/
theorem free_effectOn_of_some (h : l.explicitEffect? x = some effect) :
    (l.effectOn x).Free y ↔
      effect.Free y ∨ ∃ i ∈ l.frame effect, ∃ e, l.preconditions[i]? = some e ∧ e.Free y := by
  simp only [effectOn, h]
  cases l.frame effect with
  | nil => simp
  | cons i positions =>
    show (Expr.conj _).Free y ∨ effect.Free y ↔ _
    rw [Expr.free_conj, or_comm]
    simp only [List.mem_filterMap]
    grind

/-- **Frames are closed.** A precondition that shares a variable with the effect on a variable,
frame included, belongs to the frame. -/
theorem mem_frame_of_free (h : l.explicitEffect? x = some effect)
    (hi : l.preconditions[i]? = some e)
    (hy : (l.effectOn x).Free y) (hye : e.Free y) : i ∈ l.frame effect := by
  obtain ⟨hGrows, hAbsorbs, hClosed⟩ := Frame.collect_spec l.preconditions l.preconditions.length
    { relevant := effect.freeVariables }
  refine hClosed i (List.getElem?_eq_some_iff.mp hi).1 e hi y ?_ hye
  rcases (free_effectOn_of_some h).mp hy with hy | ⟨j, hj, e', he', hy⟩
  · exact hGrows.relevant (Expr.mem_freeVariables.mpr hy)
  · exact hAbsorbs (fun j hj => absurd hj List.not_mem_nil) j hj e' he' y hy

/-! ## Putting values together -/

/-- Values under which the effects hold and values under which the precondition holds, if they agree
on the state variables that the effects read, combine to values from which the label fires. -/
theorem WellScoped.exists_fires_of_agree [Reals] (hl : l.WellScoped xs)
    (hPre : l.precondition.holds γ = true)
    (hEffect : ∀ x ∈ xs, (l.effectOn x).holds (across xs β after) = true)
    (hAgree : ∀ x ∈ xs, ∀ y ∈ xs, (l.effectOn x).Free y → β.get y = γ.get y) :
    ∃ before, AgreeOn xs before γ ∧ l.Fires before after := by
  classical
  -- what an effect reads comes from the first values, all else from the second
  let before := patched (fun y => ∃ x ∈ xs, (l.effectOn x).Free y) β fun _ => γ
  have hRead : ∀ x ∈ xs, ∀ y, (l.effectOn x).Free y → before.get y = β.get y :=
    fun x hx y hy => get_patched_of ⟨x, hx, hy⟩
  have hUnread : ∀ y, ¬(∃ x ∈ xs, (l.effectOn x).Free y) → before.get y = γ.get y :=
    fun y hy => get_patched_of_not hy
  have hState : AgreeOn xs before γ := by
    intro y hy
    by_cases hEx : ∃ x ∈ xs, (l.effectOn x).Free y
    · obtain ⟨x, hx, hFree⟩ := hEx
      rw [hRead x hx y hFree]
      exact hAgree x hx y hy hFree
    · exact hUnread y hEx
  refine ⟨before, hState, hl.fires_of_holds_effectOn ?_ fun x hx => ?_⟩
  · rw [precondition, Expr.holds_conj] at hPre ⊢
    intro e he
    obtain ⟨i, hi, rfl⟩ := List.mem_iff_getElem.mp he
    have hGet := List.getElem?_eq_getElem hi
    have hWithin := hl.preconditions _ he
    by_cases hFramed : ∃ x ∈ xs, ∃ effect, l.explicitEffect? x = some effect ∧ i ∈ l.frame effect
    · -- the precondition belongs to a frame, and speaks of what that effect reads
      obtain ⟨x, hx, effect, hExplicit, hFrame⟩ := hFramed
      have hTrue := ((holds_effectOn_of_some hExplicit).mp (hEffect x hx)).2 i hFrame _ hGet
      rw [hl.holds_across_of_declared hWithin] at hTrue
      rw [← hTrue]
      refine Expr.holds_congr fun y hy => hRead x hx y ?_
      exact (free_effectOn_of_some hExplicit).mpr (.inr ⟨i, hFrame, _, hGet, hy⟩)
    · -- it belongs to none, and shares with effects no variable but state variables
      rw [← hPre _ he]
      refine Expr.holds_congr fun y hy => ?_
      by_cases hEx : ∃ x ∈ xs, (l.effectOn x).Free y
      · obtain ⟨x, hx, hFree⟩ := hEx
        cases hExplicit : l.explicitEffect? x with
        | some effect =>
          exact absurd ⟨x, hx, effect, hExplicit, mem_frame_of_free hExplicit hGet hFree hy⟩ hFramed
        | none =>
          rcases free_effectOn_of_none hExplicit hFree with rfl | rfl
          · exact absurd rfl (hl.ne_primed (hWithin.inScope _ hy) x)
          · exact hState y hx
      · exact hUnread y hEx
  · rw [← hEffect x hx]
    exact hl.holds_across_congr hx (hl.effectOn hx) (fun y _ hy => hRead x hx y hy) rfl

/-- From a state whose formulas leave each state variable one value, a label that is enabled there
fires to whatever satisfies the successor. -/
theorem Hygienic.exists_fires_of_determined [Reals] (hl : l.Hygienic xs) (hs : s.Tidy xs t)
    (hFormula : ∀ y ∈ xs, ∃ e, s.get? y = some e ∧
      ∀ ρ ρ', e.holds ρ = true → e.holds ρ' = true → ρ.get y = ρ'.get y)
    (hGuard : (l.guardOn s.toExpr).holds ρ = true) (id : Nat)
    (h : (l.applyTo s t id).toExpr.holds τ = true) :
    ∃ before, AgreeOn xs before ρ ∧ l.Fires before τ := by
  rw [guardOn, Expr.holds_and, Bool.and_eq_true, SymbolicState.holds_toExpr] at hGuard
  rw [hl.holds_applyTo hs] at h
  refine hl.exists_fires_of_agree hGuard.2
    (fun x hx => holds_effectOn_of_successorFormula (h x hx)) fun x hx y hy hFree => ?_
  obtain ⟨e, he, hOne⟩ := hFormula y hy
  exact hOne _ _ (hl.holds_of_read hs (h x hx) hy hFree he)
    (hGuard.1 _ (Formulas.mem_of_lookup he))

end Label

end StateSpace
