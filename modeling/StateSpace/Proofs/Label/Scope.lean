import StateSpace.Label.Successor
import StateSpace.Proofs.Expr.HiddenName
import StateSpace.Proofs.Expr.Scope
import StateSpace.System

/-!
# Scopes of labels and states

The preconditions of a label mention state variables and parameters, an effect also the next value
of its variable. The formulas of a state mention state variables and what earlier transitions have
hidden. Where no declared name looks like a hidden one, the renaming of a transition keeps all of
these apart (`Label.Hygienic.move_injective`), and the successor of a tidy state is tidy again
(`Label.Hygienic.tidy_applyTo`).
-/

namespace StateSpace

open Renaming

theorem Formulas.mem_of_lookup {fs : Formulas} {x : Variable} {e : Expr}
    (h : fs.lookup x = some e) : (x, e) ∈ fs := by
  obtain ⟨before, after, heq, -⟩ := List.lookup_eq_some_iff.mp h
  simp [heq]

theorem Formulas.mem_set {x : Variable} {e : Expr} {fs : Formulas} {entry : Variable × Expr}
    (h : entry ∈ Formulas.set x e fs) : entry = (x, e) ∨ entry ∈ fs := by
  induction fs with
  | nil => exact .inl (List.mem_singleton.mp h)
  | cons head rest ih =>
    obtain ⟨y, old⟩ := head
    simp only [set] at h
    split at h <;> grind

/-- A name of name characters carries no prime. -/
theorem Variable.primed_name_not_isName (x : Variable) :
    Text.isName x.primed.name.toList = false := by
  have hPrime : Variable.primeMark ∈ x.primed.name.toList := by simp [primed]
  have hNot : Text.isNameChar Variable.primeMark = false := by decide
  rw [Text.isName, Bool.and_eq_false_iff]
  exact .inr (List.all_eq_false.mpr ⟨_, hPrime, by simp [hNot]⟩)

/-! ## Definitions -/

/-- The name of a variable consists of name characters. -/
def Variable.Named (x : Variable) : Prop :=
  Text.isName x.name.toList = true

/-- A label ranges over the given state variables, and its formulas stay within their scopes. -/
structure Label.WellScoped (xs : List Variable) (l : Label) : Prop where
  ranges : l.stateVariables = xs
  named : ∀ x ∈ xs ++ l.parameters, x.Named
  preconditions : ∀ e ∈ l.preconditions, e.Within (xs ++ l.parameters)
  effects : ∀ entry ∈ l.effects,
    entry.1 ∈ xs ∧ entry.2.Within (xs ++ l.parameters ++ [entry.1.primed])

/-- A well-scoped label none of whose declared names looks like a hidden one. -/
structure Label.Hygienic (xs : List Variable) (l : Label) : Prop extends l.WellScoped xs where
  visible : ∀ x ∈ xs ++ l.parameters, isHidden x.name = false

/-- The variables that a system declares: its state variables and the parameters of its labels. -/
def System.declared (s : System) : List Variable :=
  s.stateVariables ++ s.labels.flatMap Label.parameters

/-- Labels range over all state variables, and all formulas stay within their scopes. -/
structure System.WellScoped (s : System) : Prop where
  nodup : s.stateVariables.Nodup
  named : ∀ x ∈ s.stateVariables, x.Named
  initialValues : ∀ entry ∈ s.initialValues,
    entry.1 ∈ s.stateVariables ∧ entry.2.Within s.stateVariables
  labels : ∀ l ∈ s.labels, l.WellScoped s.stateVariables

/-- A well-scoped system none of whose declared names looks like a hidden one. -/
structure System.Hygienic (s : System) : Prop extends s.WellScoped where
  visible : ∀ x ∈ s.declared, isHidden x.name = false

theorem System.Hygienic.label {s : System} (h : s.Hygienic) {l : Label} (hl : l ∈ s.labels) :
    l.Hygienic s.stateVariables where
  toWellScoped := h.labels l hl
  visible x hx := h.visible x <| by
    rcases List.mem_append.mp hx with hx | hx
    · exact List.mem_append_left _ hx
    · exact List.mem_append_right _ (List.mem_flatMap.mpr ⟨l, hl, hx⟩)

/-- A variable hidden by a transition with a number below `t`. -/
def Variable.HiddenBefore (t : Nat) (y : Variable) : Prop :=
  ∃ k < t, IsHiddenAt k y.name

/-- The formulas of a state belong to state variables and mention only those and what transitions
with numbers below `t` have hidden. -/
structure SymbolicState.Tidy (xs : List Variable) (t : Nat) (s : SymbolicState) : Prop where
  keys : ∀ entry ∈ s.formulas, entry.1 ∈ xs
  quantifierFree : ∀ entry ∈ s.formulas, entry.2.QuantifierFree
  known : ∀ entry ∈ s.formulas, ∀ y, entry.2.Free y → y ∈ xs ∨ y.HiddenBefore t

theorem SymbolicState.Tidy.mono {xs : List Variable} {t t' : Nat} {s : SymbolicState}
    (h : s.Tidy xs t) (ht : t ≤ t') : s.Tidy xs t' where
  keys := h.keys
  quantifierFree := h.quantifierFree
  known entry hEntry y hy :=
    (h.known entry hEntry y hy).imp_right fun ⟨k, hk, hHidden⟩ => ⟨k, by omega, hHidden⟩

theorem SymbolicState.tidy_of_formulas_eq {xs : List Variable} {t : Nat} {s s' : SymbolicState}
    (h : s.Tidy xs t) (heq : s'.formulas = s.formulas) : s'.Tidy xs t :=
  ⟨heq ▸ h.keys, heq ▸ h.quantifierFree, heq ▸ h.known⟩

/-! ## The renaming of a transition -/

/-- Declared variables are not next values. -/
theorem Label.WellScoped.ne_primed {xs : List Variable} {l : Label} (hl : l.WellScoped xs)
    {y : Variable} (hy : y ∈ xs ++ l.parameters) (x : Variable) : y.name ≠ x.primed.name := by
  intro heq
  have hName : Text.isName y.name.toList = true := hl.named y hy
  rw [heq, x.primed_name_not_isName] at hName
  cases hName

namespace Label.Hygienic

variable {xs : List Variable} {l : Label} {t : Nat} {x y z : Variable}

/-- What a successor formula may mention before it is renamed, the next value of its variable
apart. -/
def Known (xs : List Variable) (l : Label) (t : Nat) (y : Variable) : Prop :=
  y ∈ xs ++ l.parameters ∨ y.HiddenBefore t

theorem Known.ne_primed (hl : l.Hygienic xs) (h : Known xs l t y) (x : Variable) :
    y.name ≠ x.primed.name := by
  rcases h with h | ⟨k, -, hHidden⟩
  · exact hl.ne_primed h x
  · exact hHidden.ne_primed x

theorem notMem_names_of_hidden (hl : l.Hygienic xs) (h : IsHiddenAt t y.name) :
    y.name ∉ (xs ++ l.parameters).map Variable.name := by
  intro hMem
  obtain ⟨z, hz, heq⟩ := List.mem_map.mp hMem
  have hVisible := hl.visible z hz
  rw [heq, h.isHidden] at hVisible
  cases hVisible

/-- What is hidden stays. -/
theorem move_of_hidden (hl : l.Hygienic xs) {k : Nat} (h : IsHiddenAt k y.name) :
    (ofTransition xs l.parameters t).move y = y :=
  move_of_get?_eq_none (get?_ofTransition_eq_none (hl.notMem_names_of_hidden h))

/-- Next values stay. -/
theorem move_primed (hl : l.Hygienic xs) (x : Variable) :
    (ofTransition xs l.parameters t).move x.primed = x.primed := by
  refine move_of_get?_eq_none (get?_ofTransition_eq_none fun hMem => ?_)
  obtain ⟨z, hz, heq⟩ := List.mem_map.mp hMem
  exact hl.ne_primed hz x heq

/-- What is known before a transition is hidden after it, declared variables by the transition
itself. -/
theorem isHiddenAt_move (hl : l.Hygienic xs) (h : Known xs l t y) :
    ∃ k < t + 1, IsHiddenAt k ((ofTransition xs l.parameters t).move y).name := by
  rcases h with h | ⟨k, hk, hHidden⟩
  · exact ⟨t, by omega, isHiddenAt_apply_ofTransition (List.mem_map_of_mem h)⟩
  · rw [hl.move_of_hidden hHidden]
    exact ⟨k, by omega, hHidden⟩

theorem move_notMem (hl : l.Hygienic xs) (h : Known xs l t y) :
    (ofTransition xs l.parameters t).move y ∉ xs := by
  intro hMem
  obtain ⟨k, -, hHidden⟩ := hl.isHiddenAt_move h
  have hVisible := hl.visible _ (List.mem_append_left _ hMem)
  rw [hHidden.isHidden] at hVisible
  cases hVisible

/-- The renaming of a transition keeps apart what is known before it. -/
theorem move_injective (hl : l.Hygienic xs) (hy : Known xs l t y) (hz : Known xs l t z)
    (h : (ofTransition xs l.parameters t).move y = (ofTransition xs l.parameters t).move z) :
    y = z := by
  have hType : ((ofTransition xs l.parameters t).move y).type =
      ((ofTransition xs l.parameters t).move z).type := by rw [h]
  rcases hy with hy | ⟨k, hk, hHidden⟩ <;> rcases hz with hz | ⟨k', hk', hHidden'⟩
  · have hName := apply_ofTransition_injective (List.mem_map_of_mem hy) (List.mem_map_of_mem hz)
      (congrArg Variable.name h)
    obtain ⟨n, ty⟩ := y
    obtain ⟨m, tz⟩ := z
    cases hName
    cases hType
    rfl
  · -- one is hidden by this transition, the other was by an earlier one
    have hNew : IsHiddenAt t ((ofTransition xs l.parameters t).move y).name :=
      isHiddenAt_apply_ofTransition (List.mem_map_of_mem hy)
    rw [h, hl.move_of_hidden hHidden'] at hNew
    have := hNew.unique hHidden'
    omega
  · have hNew : IsHiddenAt t ((ofTransition xs l.parameters t).move z).name :=
      isHiddenAt_apply_ofTransition (List.mem_map_of_mem hz)
    rw [← h, hl.move_of_hidden hHidden] at hNew
    have := hNew.unique hHidden
    omega
  · rwa [hl.move_of_hidden hHidden, hl.move_of_hidden hHidden'] at h

end Label.Hygienic

/-- The next value of a variable becomes its current one. -/
theorem Renaming.move_restore_primed (x : Variable) :
    (ofList [(x.primed.name, x.name)]).move x.primed = x := by
  have hGet : (ofList [(x.primed.name, x.name)]).get? x.primed.name = some x.name := by
    rw [← List.nil_append [_], get?_ofList_concat, if_pos rfl]
  rw [move, apply, hGet]
  rfl

theorem Renaming.move_restore_of_ne {x y : Variable} (h : y.name ≠ x.primed.name) :
    (ofList [(x.primed.name, x.name)]).move y = y :=
  move_of_get?_eq_none (get?_ofList_eq_none (by simpa using h))

/-! ## Effects and successors -/

namespace Label

variable {xs : List Variable} {l : Label} {s : SymbolicState} {t : Nat} {x y : Variable}

/-- The formula for a next value keeps to its scope. -/
theorem WellScoped.effectOn (hl : l.WellScoped xs) (hx : x ∈ xs) :
    (l.effectOn x).Within (xs ++ l.parameters ++ [x.primed]) := by
  unfold Label.effectOn
  split
  · exact (Expr.within_var (by simp)).equal (Expr.within_var (by simp [hx]))
  · next effect hEffect =>
    have hWithin := (hl.effects _ (Formulas.mem_of_lookup hEffect)).2
    split
    · exact hWithin
    · have hConjunct : ∀ e ∈ (l.frame effect).filterMap fun i => l.preconditions[i]?,
          e.Within (xs ++ l.parameters ++ [x.primed]) := by
        intro e he
        obtain ⟨i, -, hi⟩ := List.mem_filterMap.mp he
        exact (hl.preconditions e (List.mem_of_getElem? hi)).mono (List.subset_append_left _ _)
      refine ⟨⟨.conj fun e he => (hConjunct e he).quantifierFree, hWithin.quantifierFree⟩, ?_⟩
      rintro y (hy | hy)
      · obtain ⟨e, he, hy⟩ := Expr.free_conj.mp hy
        exact (hConjunct e he).inScope y hy
      · exact hWithin.inScope y hy

theorem mem_read {e : Expr}
    (he : e ∈ (xs.filter (l.effectOn x).freeVariables.contains).filterMap s.get?) :
    ∃ y ∈ xs, (l.effectOn x).Free y ∧ (y, e) ∈ s.formulas := by
  obtain ⟨y, hy, hGet⟩ := List.mem_filterMap.mp he
  obtain ⟨hMem, hRead⟩ := List.mem_filter.mp hy
  exact ⟨y, hMem, Expr.mem_freeVariables.mp (List.contains_iff_mem.mp hRead),
    Formulas.mem_of_lookup hGet⟩

theorem WellScoped.quantifierFree_successorFormula (hl : l.WellScoped xs) (hs : s.Tidy xs t)
    (hx : x ∈ xs) : (l.successorFormula s x).QuantifierFree := by
  refine (hl.effectOn hx).quantifierFree.foldl_and fun e he => ?_
  obtain ⟨y, -, -, hMem⟩ := mem_read he
  exact hs.quantifierFree _ hMem

/-- A successor formula mentions the next value of its variable and what is known before the
transition. -/
theorem WellScoped.free_successorFormula (hl : l.WellScoped xs) (hs : s.Tidy xs t) (hx : x ∈ xs)
    (hy : (l.successorFormula s x).Free y) : y = x.primed ∨ Hygienic.Known xs l t y := by
  rcases (Expr.free_foldl_and _).mp hy with hy | ⟨e, he, hy⟩
  · have hMem := (hl.effectOn hx).inScope y hy
    rw [List.mem_append, List.mem_singleton] at hMem
    exact hMem.symm.imp_right .inl
  · obtain ⟨z, -, -, hMem⟩ := mem_read he
    exact .inr ((hs.known _ hMem y hy).imp_left (List.mem_append_left _))

theorem formulas_applyTo (l : Label) (s : SymbolicState) (t id : Nat) :
    (l.applyTo s t id).formulas = l.stateVariables.map fun x =>
      (x, ((l.successorFormula s x).rename (ofTransition l.stateVariables l.parameters t)).rename
        (ofList [(x.primed.name, x.name)])) := by
  simp only [applyTo, successorFormulas, Formulas.restoreCurrentNames, Formulas.rename,
    List.map_map]
  rfl

/-- The successor of a tidy state is tidy. -/
theorem Hygienic.tidy_applyTo (hl : l.Hygienic xs) (hs : s.Tidy xs t) (id : Nat) :
    (l.applyTo s t id).Tidy xs (t + 1) := by
  have hEntry : ∀ entry ∈ (l.applyTo s t id).formulas, ∃ x ∈ xs, (x,
      ((l.successorFormula s x).rename (ofTransition xs l.parameters t)).rename
        (ofList [(x.primed.name, x.name)])) = entry := by
    intro entry hMem
    rwa [formulas_applyTo, hl.ranges, List.mem_map] at hMem
  refine ⟨fun entry hMem => ?_, fun entry hMem => ?_, fun entry hMem y hy => ?_⟩ <;>
    obtain ⟨x, hx, rfl⟩ := hEntry entry hMem
  · exact hx
  · exact (hl.quantifierFree_successorFormula hs hx).rename.rename
  · have hqf := hl.quantifierFree_successorFormula hs hx
    obtain ⟨_, hRenamed, rfl⟩ := (Expr.free_rename hqf.rename.renamable).mp hy
    obtain ⟨z, hz, rfl⟩ := (Expr.free_rename hqf.renamable).mp hRenamed
    rcases hl.free_successorFormula hs hx hz with rfl | hKnown
    · rw [hl.move_primed, move_restore_primed]
      exact .inl hx
    · obtain ⟨k, hk, hHidden⟩ := hl.isHiddenAt_move hKnown
      rw [move_restore_of_ne (hHidden.ne_primed x)]
      exact .inr ⟨k, hk, hHidden⟩

end Label

end StateSpace
