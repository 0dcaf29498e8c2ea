import StateSpace.Execution
import StateSpace.Label.Successor
import StateSpace.Proofs.Coverage
import StateSpace.Proofs.Label.Scope

/-!
# What successors describe

The formulas of a successor hold under some values exactly if the successor formulas hold under the
values hidden in them, together with the values afterwards (`holds_applyTo`). From there one firing
is followed in both directions:

* whatever a label leads to from described values, the successor describes
  (`Hygienic.describes_applyTo`), and the label is enabled on the state
  (`Hygienic.exists_holds_guardOn`);
* if the effects of the label together read every state variable and frame every precondition, or
  read nothing at all, the successor describes nothing else
  (`Hygienic.exists_fires_of_holds_applyTo`).
-/

namespace StateSpace

open Environment Renaming

variable {xs : List Variable} {before before' after after' : Environment} {x y : Variable}

/-! ## Values before and after a step -/

namespace Environment

/-- A primed state variable has the value afterwards. -/
theorem get_across_primed [Reals] (hx : x ∈ xs) :
    (across xs before after).get x.primed = after.get x := by
  cases hFind : xs.find? fun z => z.primed = x.primed with
  | none => simpa using List.find?_eq_none.mp hFind x hx
  | some z =>
    have hz : z.primed = x.primed := by simpa using List.find?_some hFind
    rw [Variable.primed_injective hz] at hFind
    simp only [get, across, hFind]
    rfl

/-- Any other variable has the value before. -/
theorem get_across_of_ne [Reals] (hy : ∀ x ∈ xs, y.name ≠ x.primed.name) :
    (across xs before after).get y = before.get y := by
  have hFind : (xs.find? fun z => z.primed = y) = none := by
    rw [List.find?_eq_none]
    intro z hz hPrimed
    exact hy z hz (by rw [of_decide_eq_true hPrimed])
  simp only [get, across, hFind]

end Environment

namespace Label

variable {l : Label} {s : SymbolicState} {t : Nat} {ν ν' ρ τ : Environment}

/-- A formula of the scope of an effect looks at the values before of what it mentions, and at one
value afterwards. -/
theorem WellScoped.holds_across_congr [Reals] (hl : l.WellScoped xs) {e : Expr} (hx : x ∈ xs)
    (he : e.Within (xs ++ l.parameters ++ [x.primed]))
    (hBefore : ∀ y ∈ xs ++ l.parameters, e.Free y → before.get y = before'.get y)
    (hAfter : after.get x = after'.get x) :
    e.holds (across xs before after) = e.holds (across xs before' after') := by
  refine Expr.holds_congr fun y hy => ?_
  rcases List.mem_append.mp (he.inScope y hy) with hMem | hMem
  · rw [get_across_of_ne fun z _ => hl.ne_primed hMem z,
      get_across_of_ne fun z _ => hl.ne_primed hMem z]
    exact hBefore y hMem hy
  · rw [List.mem_singleton.mp hMem, get_across_primed hx, get_across_primed hx]
    exact hAfter

theorem WellScoped.holds_across_of_declared [Reals] (hl : l.WellScoped xs) {e : Expr}
    (he : e.Within (xs ++ l.parameters)) : e.holds (across xs before after) = e.holds before :=
  Expr.holds_congr fun y hy => get_across_of_ne fun z _ => hl.ne_primed (he.inScope y hy) z

theorem WellScoped.holds_precondition [Reals] (hl : l.WellScoped xs) (after : Environment) :
    l.precondition.holds before = true ↔
      ∀ e ∈ l.preconditions, e.holds (across xs before after) = true := by
  rw [precondition, Expr.holds_conj]
  exact forall₂_congr fun e he => by rw [hl.holds_across_of_declared (hl.preconditions e he)]

/-- Whether a label fires depends on the values of state variables and parameters alone. -/
theorem WellScoped.fires_congr [Reals] (hl : l.WellScoped xs)
    (hBefore : AgreeOn (xs ++ l.parameters) before before') (hAfter : AgreeOn xs after after')
    (h : l.Fires before after) : l.Fires before' after' := by
  obtain ⟨hPre, hEffects⟩ := h
  rw [hl.ranges] at hEffects
  rw [Fires, hl.ranges]
  constructor
  · rw [precondition, Expr.holds_conj] at hPre ⊢
    intro e he
    rw [← hPre e he]
    exact Expr.holds_congr fun y hy => (hBefore y ((hl.preconditions e he).inScope y hy)).symm
  · intro x hx
    have hEffect := hEffects x hx
    cases hExplicit : l.explicitEffect? x with
    | some effect =>
      simp only [hExplicit] at hEffect
      have hWithin := (hl.effects _ (Formulas.mem_of_lookup hExplicit)).2
      show effect.holds _ = true
      rw [← hEffect]
      exact (hl.holds_across_congr hx hWithin (fun y hy _ => hBefore y hy) (hAfter x hx)).symm
    | none =>
      simp only [hExplicit] at hEffect
      show after'.get x = before'.get x
      rw [← hAfter x hx, ← hBefore x (List.mem_append_left _ hx)]
      exact hEffect

theorem holds_effectOn_of_none [Reals] (h : l.explicitEffect? x = none) :
    (l.effectOn x).holds ρ = true ↔ ρ.get x.primed = ρ.get x := by
  rw [Label.effectOn, h]
  exact Expr.holds_equal_var (x := x.primed) (y := x) rfl

/-- An effect with its frame holds if the effect and the conjuncts of its frame do. -/
theorem holds_effectOn_of_some [Reals] {effect : Expr} (h : l.explicitEffect? x = some effect) :
    (l.effectOn x).holds ρ = true ↔
      effect.holds ρ = true ∧
        ∀ i ∈ l.frame effect, ∀ e, l.preconditions[i]? = some e → e.holds ρ = true := by
  simp only [Label.effectOn, h]
  cases l.frame effect with
  | nil => simp
  | cons i positions =>
    rw [Expr.holds_and, Bool.and_eq_true, Expr.holds_conj, and_comm]
    simp only [List.mem_filterMap]
    grind

/-- A label that fires makes its effect on every variable true. -/
theorem WellScoped.holds_effectOn [Reals] (hl : l.WellScoped xs) (h : l.Fires before after)
    (hx : x ∈ xs) : (l.effectOn x).holds (across xs before after) = true := by
  obtain ⟨hPre, hEffects⟩ := h
  have hEffect := hEffects x (by rwa [hl.ranges])
  rw [hl.ranges] at hEffect
  cases hExplicit : l.explicitEffect? x with
  | none =>
    simp only [hExplicit] at hEffect
    rw [holds_effectOn_of_none hExplicit, get_across_primed hx,
      get_across_of_ne fun z _ => hl.ne_primed (List.mem_append_left _ hx) z]
    exact hEffect
  | some effect =>
    simp only [hExplicit] at hEffect
    refine (holds_effectOn_of_some hExplicit).mpr ⟨hEffect, fun i _ e he => ?_⟩
    exact (hl.holds_precondition after).mp hPre e (List.mem_of_getElem? he)

/-- Formulas of a tidy state do not look at the values afterwards. -/
theorem Hygienic.holds_across_of_tidy [Reals] (hl : l.Hygienic xs) (hs : s.Tidy xs t)
    {entry : Variable × Expr} (hEntry : entry ∈ s.formulas) (after : Environment) :
    entry.2.holds (across xs before after) = entry.2.holds before := by
  refine Expr.holds_congr fun y hy => get_across_of_ne fun z _ => ?_
  rcases hs.known entry hEntry y hy with hMem | ⟨k, -, hHidden⟩
  · exact hl.ne_primed (List.mem_append_left _ hMem) z
  · exact hHidden.ne_primed z

/-! ## The formulas of a successor -/

/-- What the formula of a variable in a successor says: the successor formula, about the values that
the renaming of the transition has hidden and the value afterwards. -/
theorem Hygienic.holds_hidden [Reals] (hl : l.Hygienic xs) (hs : s.Tidy xs t) (hx : x ∈ xs) :
    (((l.successorFormula s x).rename (ofTransition xs l.parameters t)).rename
        (ofList [(x.primed.name, x.name)])).holds τ =
      (l.successorFormula s x).holds (across xs (τ.along (ofTransition xs l.parameters t)) τ) := by
  have hqf := hl.quantifierFree_successorFormula hs hx
  rw [Expr.holds_rename hqf.rename.renamable, Expr.holds_rename hqf.renamable]
  refine Expr.holds_congr fun y hy => ?_
  rw [get_along, get_along]
  rcases hl.free_successorFormula hs hx hy with rfl | hKnown
  · rw [hl.move_primed, move_restore_primed, get_across_primed hx]
  · obtain ⟨k, -, hHidden⟩ := hl.isHiddenAt_move hKnown
    rw [move_restore_of_ne (hHidden.ne_primed x),
      get_across_of_ne fun z _ => Hygienic.Known.ne_primed hl hKnown z, get_along]

/-- What the formulas of a successor say together. -/
theorem Hygienic.holds_applyTo [Reals] (hl : l.Hygienic xs) (hs : s.Tidy xs t) {id : Nat} :
    (l.applyTo s t id).toExpr.holds τ = true ↔
      ∀ x ∈ xs, (l.successorFormula s x).holds
        (across xs (τ.along (ofTransition xs l.parameters t)) τ) = true := by
  rw [SymbolicState.holds_toExpr, formulas_applyTo, hl.ranges, List.forall_mem_map]
  exact forall₂_congr fun x hx => by rw [hl.holds_hidden hs hx]

/-- A successor formula holds where the effect and the state do. -/
theorem Hygienic.holds_successorFormula [Reals] (hl : l.Hygienic xs) (hs : s.Tidy xs t)
    (hEffect : (l.effectOn x).holds (across xs before after) = true)
    (hState : s.toExpr.holds before = true) :
    (l.successorFormula s x).holds (across xs before after) = true := by
  refine (Expr.holds_foldl_and _).mpr ⟨hEffect, fun e he => ?_⟩
  obtain ⟨y, -, -, hMem⟩ := mem_read he
  rw [hl.holds_across_of_tidy hs hMem after]
  exact SymbolicState.holds_toExpr.mp hState _ hMem

theorem holds_effectOn_of_successorFormula [Reals] (h : (l.successorFormula s x).holds ρ = true) :
    (l.effectOn x).holds ρ = true :=
  ((Expr.holds_foldl_and _).mp h).1

/-- A successor formula says of a variable that the effect reads what the state does. -/
theorem Hygienic.holds_of_read [Reals] (hl : l.Hygienic xs) (hs : s.Tidy xs t)
    (h : (l.successorFormula s x).holds (across xs before after) = true) {e : Expr} (hy : y ∈ xs)
    (hRead : (l.effectOn x).Free y) (he : s.get? y = some e) : e.holds before = true := by
  rw [← hl.holds_across_of_tidy hs (Formulas.mem_of_lookup he) after]
  refine ((Expr.holds_foldl_and _).mp h).2 e (List.mem_filterMap.mpr ⟨y, ?_, he⟩)
  rw [hl.ranges, List.mem_filter, List.contains_iff_mem]
  exact ⟨hy, Expr.mem_freeVariables.mpr hRead⟩

/-! ## Completeness -/

/-- Values that satisfy a state and values that a label fires from combine to values that do both:
what earlier transitions have hidden comes from the first, all else from the second. -/
theorem Hygienic.exists_joint [Reals] (hl : l.Hygienic xs) (hs : s.Tidy xs t)
    (hρ : s.toExpr.holds ρ = true) (hAgree : AgreeOn xs ρ before) :
    ∃ β, AgreeOn (xs ++ l.parameters) β before ∧ s.toExpr.holds β = true := by
  classical
  let β := patched (·.HiddenBefore t) ρ fun _ => before
  have hVisible : AgreeOn (xs ++ l.parameters) β before := by
    intro y hy
    have hNot : ¬y.HiddenBefore t := fun ⟨k, _, hHidden⟩ => by
      simpa [hHidden.isHidden] using hl.visible y hy
    exact get_patched_of_not hNot
  refine ⟨β, hVisible, SymbolicState.holds_toExpr.mpr fun entry hEntry => ?_⟩
  rw [← SymbolicState.holds_toExpr.mp hρ entry hEntry]
  refine Expr.holds_congr fun y hy => ?_
  rcases hs.known entry hEntry y hy with hMem | hHidden
  · rw [hVisible y (List.mem_append_left _ hMem), hAgree y hMem]
  · exact get_patched_of hHidden

/-- Whatever is known before a transition can be hidden, behind any values afterwards. -/
theorem Hygienic.exists_hiding [Reals] (hl : l.Hygienic xs) (β after : Environment) :
    ∃ τ, AgreeOn xs τ after ∧
      ∀ y, Hygienic.Known xs l t y →
        (τ.along (ofTransition xs l.parameters t)).get y = β.get y := by
  classical
  let R := ofTransition xs l.parameters t
  let τ : Environment := fun z =>
    if z ∈ xs then after z
    else if h : ∃ y, Hygienic.Known xs l t y ∧ R.move y = z then β h.choose else 0
  refine ⟨τ, fun x hx => ?_, fun y hy => ?_⟩
  · simp only [Environment.get, τ, if_pos hx]
  · have hEx : ∃ z, Hygienic.Known xs l t z ∧ R.move z = R.move y := ⟨y, hy, rfl⟩
    have hChoose : hEx.choose = y :=
      hl.move_injective hEx.choose_spec.1 hy hEx.choose_spec.2
    rw [get_along]
    simp only [Environment.get, τ]
    rw [if_neg (hl.move_notMem hy), dif_pos hEx, hChoose]
    rfl

/-- Hidden values make the same successor formulas true as the values themselves. -/
theorem Hygienic.exists_hidden [Reals] (hl : l.Hygienic xs) (hs : s.Tidy xs t)
    (β after : Environment) : ∃ τ, AgreeOn xs τ after ∧ ∀ x ∈ xs,
      (l.successorFormula s x).holds (across xs (τ.along (ofTransition xs l.parameters t)) τ) =
        (l.successorFormula s x).holds (across xs β after) := by
  obtain ⟨τ, hτ, hHidden⟩ := hl.exists_hiding (t := t) β after
  refine ⟨τ, hτ, fun x hx => Expr.holds_congr fun y hy => ?_⟩
  rcases hl.free_successorFormula hs hx hy with rfl | hKnown
  · rw [get_across_primed hx, get_across_primed hx]
    exact hτ x hx
  · rw [get_across_of_ne fun z _ => Hygienic.Known.ne_primed hl hKnown z,
      get_across_of_ne fun z _ => Hygienic.Known.ne_primed hl hKnown z]
    exact hHidden y hKnown

/-- Where a label is enabled on described values, its guard on the state can be satisfied. -/
theorem Hygienic.exists_holds_guardOn [Reals] (hl : l.Hygienic xs) (hs : s.Tidy xs t)
    (hν : s.Describes xs ν) (hBefore : AgreeOn xs before ν)
    (hPre : l.precondition.holds before = true) :
    ∃ β, (l.guardOn s.toExpr).holds β = true := by
  obtain ⟨ρ, hρ, hHolds⟩ := hν
  obtain ⟨β, hβ, hState⟩ := hl.exists_joint hs hHolds (hρ.trans hBefore.symm)
  refine ⟨β, ?_⟩
  have hGuard : l.precondition.holds β = true := by
    rw [precondition, Expr.holds_conj] at hPre ⊢
    intro e he
    rw [← hPre e he]
    exact Expr.holds_congr fun y hy => hβ y ((hl.preconditions e he).inScope y hy)
  simp [guardOn, hState, hGuard]

/-- Whatever a label leads to from described values, the successor describes. -/
theorem Hygienic.describes_applyTo [Reals] (hl : l.Hygienic xs) (hs : s.Tidy xs t) (id : Nat)
    (hν : s.Describes xs ν) (hBefore : AgreeOn xs before ν) (hFires : l.Fires before ν') :
    (l.applyTo s t id).Describes xs ν' := by
  obtain ⟨ρ, hρ, hHolds⟩ := hν
  obtain ⟨β, hβ, hState⟩ := hl.exists_joint hs hHolds (hρ.trans hBefore.symm)
  obtain ⟨τ, hτ, hSame⟩ := hl.exists_hidden hs β ν'
  have hFires := hl.fires_congr hβ.symm (AgreeOn.refl xs ν') hFires
  refine ⟨τ, hτ, (hl.holds_applyTo hs).mpr fun x hx => ?_⟩
  rw [hSame x hx]
  exact hl.holds_successorFormula hs (hl.holds_effectOn hFires hx) hState

/-! ## Exactness -/

/-- The effects of a label together read every state variable and frame every precondition. -/
structure FramesAll (l : Label) : Prop where
  reads : ∀ y ∈ l.stateVariables, ∃ x ∈ l.stateVariables, y ∈ (l.effectOn x).freeVariables
  guards : ∀ i < l.preconditions.length, ∃ x ∈ l.stateVariables,
    ∃ effect ∈ l.explicitEffect? x, i ∈ l.frame effect

/-- The effects of a label read nothing of what was before. -/
def Resets (l : Label) : Prop :=
  ∀ x ∈ l.stateVariables, ∀ y ∈ (l.effectOn x).freeVariables, y = x.primed

/-- A label fires where its precondition and all its effects hold. -/
theorem WellScoped.fires_of_holds_effectOn [Reals] (hl : l.WellScoped xs)
    (hPre : l.precondition.holds before = true)
    (hEffect : ∀ x ∈ xs, (l.effectOn x).holds (across xs before after) = true) :
    l.Fires before after := by
  refine ⟨hPre, ?_⟩
  rw [hl.ranges]
  intro x hx
  have hTrue := hEffect x hx
  cases hExplicit : l.explicitEffect? x with
  | some effect => exact ((holds_effectOn_of_some hExplicit).mp hTrue).1
  | none =>
    rwa [holds_effectOn_of_none hExplicit, get_across_primed hx,
      get_across_of_ne fun z _ => hl.ne_primed (List.mem_append_left _ hx) z] at hTrue

/-- If nothing of the state or the precondition is left out, then the values that the formulas of
the successor hide satisfy the state, and the label fires from them. -/
theorem Hygienic.fires_of_framesAll [Reals] (hl : l.Hygienic xs) (hs : s.Tidy xs t)
    (hFunctional : s.Functional) (hFrames : l.FramesAll) (id : Nat)
    (h : (l.applyTo s t id).toExpr.holds τ = true) :
    s.toExpr.holds (τ.along (ofTransition xs l.parameters t)) = true ∧
      l.Fires (τ.along (ofTransition xs l.parameters t)) τ := by
  generalize hBefore : τ.along (ofTransition xs l.parameters t) = before
  rw [hl.holds_applyTo hs, hBefore] at h
  have hEffect : ∀ x ∈ xs, (l.effectOn x).holds (across xs before τ) = true :=
    fun x hx => holds_effectOn_of_successorFormula (h x hx)
  refine ⟨SymbolicState.holds_toExpr.mpr fun entry hEntry => ?_,
    hl.fires_of_holds_effectOn ?_ hEffect⟩
  · -- the formula is among those taken along by some effect that reads its variable
    have hKey := hs.keys entry hEntry
    obtain ⟨x, hx, hRead⟩ := hFrames.reads entry.1 (by rwa [hl.ranges])
    rw [hl.ranges] at hx
    exact hl.holds_of_read hs (h x hx) hKey (Expr.mem_freeVariables.mp hRead)
      (hFunctional entry hEntry)
  · refine (hl.holds_precondition τ).mpr fun e he => ?_
    obtain ⟨i, hi, rfl⟩ := List.mem_iff_getElem.mp he
    obtain ⟨x, hx, effect, hExplicit, hFrame⟩ := hFrames.guards i hi
    rw [hl.ranges] at hx
    exact ((holds_effectOn_of_some hExplicit).mp (hEffect x hx)).2 i hFrame _
      (List.getElem?_eq_getElem hi)

/-- If the effects read nothing, then the label fires from any values on which it is enabled. -/
theorem Hygienic.fires_of_resets [Reals] (hl : l.Hygienic xs) (hs : s.Tidy xs t)
    (hResets : l.Resets) (id : Nat)
    (hPre : l.precondition.holds ρ = true) (h : (l.applyTo s t id).toExpr.holds τ = true) :
    l.Fires ρ τ := by
  refine hl.fires_of_holds_effectOn hPre fun x hx => ?_
  rw [← holds_effectOn_of_successorFormula ((hl.holds_applyTo hs).mp h x hx)]
  refine Expr.holds_congr fun y hy => ?_
  rw [hResets x (by rwa [hl.ranges]) y (Expr.mem_freeVariables.mpr hy), get_across_primed hx,
    get_across_primed hx]

/-- Where nothing or everything is left out, a state on which a label is enabled has values from
which the label fires to whatever satisfies the successor. -/
theorem Hygienic.exists_fires_of_holds_applyTo [Reals] (hl : l.Hygienic xs) (hs : s.Tidy xs t)
    (hFunctional : s.Functional) (hKeeps : l.FramesAll ∨ l.Resets)
    (hGuard : (l.guardOn s.toExpr).holds ρ = true) (id : Nat)
    (h : (l.applyTo s t id).toExpr.holds τ = true) :
    ∃ before, s.toExpr.holds before = true ∧ l.Fires before τ := by
  rcases hKeeps with hFrames | hResets
  · exact ⟨_, hl.fires_of_framesAll hs hFunctional hFrames id h⟩
  · rw [guardOn, Expr.holds_and, Bool.and_eq_true] at hGuard
    exact ⟨ρ, hGuard.1, hl.fires_of_resets hs hResets id hGuard.2 h⟩

theorem functional_applyTo (l : Label) (s : SymbolicState) (t id : Nat) :
    (l.applyTo s t id).Functional :=
  SymbolicState.functional_of_map (l.formulas_applyTo s t id)

end Label

end StateSpace
