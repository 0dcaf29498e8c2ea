import StateSpace.Proofs.Label.Successor
import StateSpace.Proofs.Region
import StateSpace.Search.Strategy

/-!
# What strategies find

A symbolic strategy may replace a formula by the only next value that it leaves; the new formula
follows from the old one, so the state then describes what it did before, and maybe more
(`Simplified`). Hence firing a label on the frontier finds whatever the label leads to from there,
and testing an error label finds out whether it is enabled (`Strategy.Faithful`). All strategies
over symbolic states are faithful.
-/

namespace StateSpace.Search

open Explore Environment Renaming

variable {σ ω : Type} {env : Surroundings σ} {system : System} {l : Label} {q p : SymbolicState}
  {ν ν' : Environment}

/-! ## Simplification -/

/-- A formula is kept, or replaced by one about a single variable that follows from it. -/
def Relaxes [Reals] (x : Variable) (e e' : Expr) : Prop :=
  e' = e ∨ e'.Within [x] ∧ ∀ ρ, e.holds ρ = true → e'.holds ρ = true

/-- The next value becomes the current one in both formulas. -/
theorem Relaxes.restore [Reals] {x : Variable} {e e' : Expr} (h : Relaxes x.primed e e')
    (he : e.QuantifierFree) : Relaxes x (e.rename (ofList [(x.primed.name, x.name)]))
      (e'.rename (ofList [(x.primed.name, x.name)])) := by
  rcases h with rfl | ⟨hWithin, hFollows⟩
  · exact .inl rfl
  · have hqf := hWithin.quantifierFree
    refine .inr ⟨⟨hqf.rename, fun y hy => ?_⟩, fun ρ hρ => ?_⟩
    · obtain ⟨z, hz, rfl⟩ := (Expr.free_rename hqf.renamable).mp hy
      rw [List.mem_singleton.mp (hWithin.inScope z hz), move_restore_primed]
      exact List.mem_singleton.mpr rfl
    · rw [Expr.holds_rename he.renamable] at hρ
      rw [Expr.holds_rename hqf.renamable]
      exact hFollows _ hρ

/-- Formulas of the same variables, each kept or replaced. -/
inductive Simplified [Reals] : Formulas → Formulas → Prop
  | nil : Simplified [] []
  | cons {x : Variable} {e e' : Expr} {fs fs' : Formulas} (h : Relaxes x.primed e e')
      (hRest : Simplified fs fs') : Simplified ((x, e) :: fs) ((x, e') :: fs')

theorem Simplified.refl [Reals] (fs : Formulas) : Simplified fs fs := by
  induction fs with
  | nil => exact .nil
  | cons entry rest ih => exact .cons (.inl rfl) ih

/-- A simplified formula relaxes one of the formulas before. -/
theorem Simplified.exists_relaxes [Reals] {fs fs' : Formulas} (h : Simplified fs fs')
    {entry : Variable × Expr}
    (hEntry : entry ∈ fs') : ∃ e, (entry.1, e) ∈ fs ∧ Relaxes entry.1.primed e entry.2 := by
  induction h with
  | nil => cases hEntry
  | cons hRelaxes _ ih =>
    rcases List.mem_cons.mp hEntry with rfl | hMem
    · exact ⟨_, List.mem_cons_self, hRelaxes⟩
    · obtain ⟨e, he, hRelaxes⟩ := ih hMem
      exact ⟨e, List.mem_cons_of_mem _ he, hRelaxes⟩

/-- A true solver relaxes a formula to what it says of the next value, or leaves it alone. -/
theorem ensures_simplifyFormula [Reals] (hTrue : env.solver.Truthful) (x : Variable) (e : Expr)
    {s : Session σ ω} :
    Ensures s (simplifyFormula env x e) (fun e' t => t.work = s.work ∧ Relaxes x.primed e e')
      (fun _ => True) := by
  unfold simplifyFormula
  dsimp only
  split
  · exact .pure ⟨rfl, .inl rfl⟩
  · refine Ensures.bind (Q := fun _ t => t.work = s.work) rfl fun answer t ht => ?_
    split
    · exact .pure ⟨ht, .inl rfl⟩
    · exact .throw trivial
    · split
      · exact .pure ⟨ht, .inl rfl⟩
      · next value _ =>
        refine ((ensures_holds _ _).mono (fun _ _ h => h) fun _ _ => trivial).bind
          fun other r ⟨hAnswer, hr⟩ => ?_
        cases other with
        | true => exact .pure ⟨hr.trans ht, .inl rfl⟩
        | false =>
          obtain ⟨memory, hUnsat⟩ := hAnswer
          have hWithin : (Expr.equal (.var x.primed) (.const value)).Within [x.primed] :=
            (Expr.within_var List.mem_cons_self).equal (Expr.within_const value)
          refine .pure ⟨hr.trans ht, .inr ⟨hWithin, fun ρ hρ => ?_⟩⟩
          simpa [hρ] using hTrue.unsat _ _ hUnsat ρ

theorem ensures_simplifyFormulas [Reals] (hTrue : env.solver.Truthful) (fs : Formulas)
    {s : Session σ ω} :
    Ensures s (simplifyFormulas env fs) (fun fs' t => t.work = s.work ∧ Simplified fs fs')
      (fun _ => True) := by
  induction fs generalizing s with
  | nil => exact .pure ⟨rfl, .nil⟩
  | cons entry rest ih =>
    refine (ensures_simplifyFormula hTrue entry.1 entry.2).bind fun e' t ⟨ht, hRelaxes⟩ => ?_
    exact ih.bind fun rest' r ⟨hr, hRest⟩ => .pure ⟨hr.trans ht, .cons hRelaxes hRest⟩

/-! ## Successors -/

/-- A successor as a state about current values. -/
def current (s : SymbolicState) : SymbolicState :=
  { s with formulas := s.formulas.restoreCurrentNames }

section Successor

variable {xs : List Variable} {n : Nat} (hl : l.Hygienic xs) (hq : q.Tidy xs n)

include hl hq

/-- The formulas of a successor about primed names mention the next value of their own variable and
what is hidden. -/
theorem mem_successorFormulas {entry : Variable × Expr} (h : entry ∈ l.successorFormulas q n) :
    entry.1 ∈ xs ∧ entry.2.QuantifierFree ∧ ∀ y, entry.2.Free y →
      y = entry.1.primed ∨ y.name ≠ entry.1.primed.name ∧ y ∉ xs := by
  obtain ⟨_, hMem, rfl⟩ := List.mem_map.mp h
  obtain ⟨x, hx, rfl⟩ := List.mem_map.mp hMem
  rw [hl.ranges] at hx ⊢
  have hqf := hl.quantifierFree_successorFormula hq hx
  refine ⟨hx, hqf.rename, fun y hy => ?_⟩
  obtain ⟨z, hz, rfl⟩ := (Expr.free_rename hqf.renamable).mp hy
  rcases hl.free_successorFormula hq hx hz with rfl | hKnown
  · exact .inl (hl.move_primed x)
  · obtain ⟨k, -, hHidden⟩ := hl.isHiddenAt_move hKnown
    exact .inr ⟨hHidden.ne_primed x, hl.move_notMem hKnown⟩

variable [Reals]
variable (hp : Simplified (l.successorFormulas q n) p.formulas)

include hp

/-- Each formula of the successor about current values relaxes one of the exact successor. -/
theorem exists_relaxes_current {entry : Variable × Expr} (hEntry : entry ∈ (current p).formulas)
    (id : Nat) : ∃ e, (entry.1, e) ∈ (l.applyTo q n id).formulas ∧ Relaxes entry.1 e entry.2 := by
  obtain ⟨⟨x, e'⟩, hMem, rfl⟩ := List.mem_map.mp hEntry
  obtain ⟨e, he, hRelaxes⟩ := hp.exists_relaxes hMem
  have hqf : e.QuantifierFree := (mem_successorFormulas hl hq he).2.1
  exact ⟨_, List.mem_map.mpr ⟨_, he, rfl⟩, hRelaxes.restore hqf⟩

/-- A successor about current values is tidy. -/
theorem tidy_current : (current p).Tidy xs (n + 1) := by
  have hTidy := hl.tidy_applyTo hq 0
  refine ⟨fun entry hEntry => ?_, fun entry hEntry => ?_, fun entry hEntry y hy => ?_⟩ <;>
    obtain ⟨e, he, hRelaxes⟩ := exists_relaxes_current hl hq hp hEntry 0
  · exact hTidy.keys (entry.1, e) he
  · rcases hRelaxes with heq | ⟨hWithin, -⟩
    · rw [heq]
      exact hTidy.quantifierFree _ he
    · exact hWithin.quantifierFree
  · rcases hRelaxes with heq | ⟨hWithin, -⟩
    · rw [heq] at hy
      exact hTidy.known _ he y hy
    · left
      rw [List.mem_singleton.mp (hWithin.inScope y hy)]
      exact hTidy.keys (entry.1, e) he

/-- Whatever a label leads to from described values, the successor describes. -/
theorem describes_current {before : Environment} (hν : q.Describes xs ν)
    (hBefore : AgreeOn xs before ν) (hFires : l.Fires before ν') : (current p).Describes xs ν' := by
  obtain ⟨τ, hτ, hHolds⟩ := hl.describes_applyTo hq 0 hν hBefore hFires
  refine ⟨τ, hτ, SymbolicState.holds_toExpr.mpr fun entry hEntry => ?_⟩
  obtain ⟨e, he, hRelaxes⟩ := exists_relaxes_current hl hq hp hEntry 0
  have hExact := SymbolicState.holds_toExpr.mp hHolds _ he
  rcases hRelaxes with heq | ⟨-, hFollows⟩
  · rw [heq]
    exact hExact
  · exact hFollows τ hExact

end Successor

/-! ## States of a search -/

/-- What a search knows is in order: what is reached has names up to `base`, what is pending has
later ones, and no formula mentions what a transition to come will hide. -/
structure Probing (system : System) (base : Nat) (w : Work SymbolicState) : Prop where
  system_eq : w.unrolling.system = system
  base_le : base ≤ w.image.names
  reachable : ∀ (name : String) (s : SymbolicState), w.image.reachable[name]? = some s →
    (∃ m ≤ base, name = Region.nameOf m) ∧ s.Tidy system.stateVariables (w.issued + 1)
  frontier : w.image.frontier.states ⊆ w.image.reachable.states
  pending : ∀ (name : String) (s : SymbolicState), w.image.pending[name]? = some s →
    (∃ m, base < m ∧ m ≤ w.image.names ∧ name = Region.nameOf m) ∧ s.isError = false ∧
      (current s).Tidy system.stateVariables (w.issued + 1)

/-- Successors and errors are added, all else stays. -/
structure Extends (w w' : Work SymbolicState) : Prop where
  unrolling : w'.unrolling = w.unrolling
  depth : w'.image.depth = w.image.depth
  reachable : w'.image.reachable = w.image.reachable
  frontier : w'.image.frontier = w.image.frontier
  pending : w.image.pending.states ⊆ w'.image.pending.states
  reachedErrors : w.image.reachedErrors ⊆ w'.image.reachedErrors

/-- A label has been fired on a state: what it leads to is pending, and if it is an error label that
is enabled, then it is reached. -/
structure Fired [Reals] (system : System) (w : Work SymbolicState) (q : SymbolicState) (l : Label) :
    Prop where
  leads : l.isError = false → ∀ ν ν', q.Describes system.stateVariables ν → system.Leads l ν ν' →
    ∃ p ∈ w.image.pending.states, (current p).Describes system.stateVariables ν'
  fails : l.isError = true → ∀ ν, q.Describes system.stateVariables ν → system.Enables ν l →
    l.name ∈ w.image.reachedErrors

variable {base : Nat} {w w' w'' : Work SymbolicState} {s t : Session σ (Work SymbolicState)}

theorem Extends.refl (w : Work SymbolicState) : Extends w w :=
  ⟨rfl, rfl, rfl, rfl, List.Subset.refl _, List.Subset.refl _⟩

theorem Extends.trans (h : Extends w w') (h' : Extends w' w'') : Extends w w'' where
  unrolling := h'.unrolling.trans h.unrolling
  depth := h'.depth.trans h.depth
  reachable := h'.reachable.trans h.reachable
  frontier := h'.frontier.trans h.frontier
  pending := List.Subset.trans h.pending h'.pending
  reachedErrors := List.Subset.trans h.reachedErrors h'.reachedErrors

theorem Fired.extends [Reals] (h : Fired system w q l) (hw : Extends w w') :
    Fired system w' q l where
  leads hnoError ν ν' hν hLeads := by
    obtain ⟨p, hp, hν'⟩ := h.leads hnoError ν ν' hν hLeads
    exact ⟨p, hw.pending hp, hν'⟩
  fails hError ν hν hEnabled := hw.reachedErrors (h.fails hError ν hν hEnabled)

theorem Probing.tidy_of_mem (h : Probing system base w) (hq : q ∈ w.image.reachable.states) :
    q.Tidy system.stateVariables (w.issued + 1) := by
  obtain ⟨name, hName⟩ := Region.mem_states.mp hq
  exact (h.reachable name q hName).2

/-- More transitions are numbered. -/
theorem Probing.issue (h : Probing system base w) {n : Nat} (hn : w.issued ≤ n) :
    Probing system base { w with issued := n } where
  system_eq := h.system_eq
  base_le := h.base_le
  reachable name s hs := by
    obtain ⟨hName, hTidy⟩ := h.reachable name s hs
    exact ⟨hName, hTidy.mono (by simpa using hn)⟩
  frontier := h.frontier
  pending name s hs := by
    obtain ⟨hName, hnoError, hTidy⟩ := h.pending name s hs
    exact ⟨hName, hnoError, hTidy.mono (by simpa using hn)⟩

/-- A successor becomes pending under a name of its own. -/
theorem Probing.addPending (h : Probing system base w) (hnoError : p.isError = false)
    (hTidy : (current p).Tidy system.stateVariables (w.issued + 1)) :
    let added : Work SymbolicState := { w with image := w.image.addPending p }
    Probing system base added ∧ Extends w added ∧ p ∈ added.image.pending.states := by
  intro added
  have hGet : ∀ (name : String), added.image.pending[name]? =
      if Region.nameOf (w.image.names + 1) = name then some p else w.image.pending[name]? := by
    intro name
    show (w.image.pending.insert _ p)[name]? = _
    rw [Std.TreeMap.getElem?_insert]
    simp only [Std.LawfulEqCmp.compare_eq_iff_eq]
  -- the new name is later than all names that are pending
  have hFresh : ∀ (name : String) s, w.image.pending[name]? = some s →
      Region.nameOf (w.image.names + 1) ≠ name := by
    rintro name s hs heq
    obtain ⟨⟨m, -, hm, rfl⟩, -⟩ := h.pending name s hs
    have := Region.nameOf_injective heq
    omega
  have hNames : w.image.names < added.image.names := Nat.lt_succ_self _
  refine ⟨⟨h.system_eq, Nat.le_succ_of_le h.base_le, h.reachable, h.frontier, fun name s hs => ?_⟩,
    ⟨rfl, rfl, rfl, rfl, fun s hs => ?_, List.Subset.refl _⟩, ?_⟩
  · rw [hGet] at hs
    split at hs
    · next heq =>
      cases hs
      exact ⟨⟨_, Nat.lt_succ_of_le h.base_le, Nat.le_refl _, heq.symm⟩, hnoError, hTidy⟩
    · obtain ⟨⟨m, hBase, hm, hName⟩, hRest⟩ := h.pending name s hs
      exact ⟨⟨m, hBase, by omega, hName⟩, hRest⟩
  · obtain ⟨name, hName⟩ := Region.mem_states.mp hs
    exact Region.mem_states.mpr ⟨name, by rw [hGet, if_neg (hFresh name s hName), hName]⟩
  · exact Region.mem_states.mpr ⟨_, by rw [hGet, if_pos rfl]⟩

/-- Recording an error leaves the search in order. -/
theorem Probing.recordError (h : Probing system base w) (label : String) (history : List String) :
    let recorded : Work SymbolicState := { w with image := w.image.recordError label history }
    Probing system base recorded ∧ Extends w recorded ∧ label ∈ recorded.image.reachedErrors := by
  intro recorded
  have hImage : recorded.image = w.image.recordError label history := rfl
  unfold Image.recordError at hImage
  by_cases hReached : w.image.isReached label = true
  · rw [if_pos hReached] at hImage
    have hSame : recorded = w := by
      show ({ w with image := recorded.image } : Work SymbolicState) = w
      rw [hImage]
    rw [hSame]
    exact ⟨h, .refl w, by simpa [Image.isReached] using hReached⟩
  · rw [if_neg hReached] at hImage
    refine ⟨⟨h.system_eq, ?_, ?_, ?_, ?_⟩, ⟨rfl, ?_, ?_, ?_, ?_, ?_⟩, ?_⟩ <;> rw [hImage]
    · exact h.base_le
    · exact h.reachable
    · exact h.frontier
    · exact h.pending
    · exact List.Subset.refl _
    · exact List.subset_append_left _ _
    · exact List.mem_append_right _ (List.mem_singleton.mpr rfl)

/-! ## Firing and testing -/

section Steps

variable {S α : Type} {s : Session σ (Work S)} {Q : α → Session σ (Work S) → Prop}
  {R : Session σ (Work S) → Prop}

theorem ensures_image_bind {next : Image S → Step σ S α} (h : Ensures s (next s.work.image) Q R) :
    Ensures s (image >>= next) Q R :=
  h

theorem ensures_modifyImage_bind {f : Image S → Image S} {next : Unit → Step σ S α}
    (h : Ensures { s with work := { s.work with image := f s.work.image } } (next ()) Q R) :
    Ensures s (modifyImage f >>= next) Q R :=
  h

theorem ensures_satisfiesGuard [RegionState S] {q : S} :
    Ensures s (satisfiesGuard env l q)
      (fun b t => env.solver.Answers (l.guardOn (RegionState.toExpr q))
          (if b then .sat else .unsat) ∧
        t.work = s.work)
      (fun _ => True) :=
  (ensures_holdsDuring _ _ _ _).mono (fun _ _ ⟨hAnswer, ht⟩ => ⟨hAnswer, ht.1⟩) fun _ _ => trivial

/-- The first state on which a label is enabled is found, if there is one. -/
theorem ensures_firstEnabled [RegionState S] (states : List S) :
    Ensures s (firstEnabled env l states)
      (fun found t => t.work = s.work ∧
        (∀ q ∈ found, q ∈ states ∧ env.solver.Answers (l.guardOn (RegionState.toExpr q)) .sat) ∧
        (found = none → ∀ q ∈ states, env.solver.Answers (l.guardOn (RegionState.toExpr q)) .unsat))
      (fun _ => True) := by
  induction states generalizing s with
  | nil => exact .pure ⟨rfl, by simp, by simp⟩
  | cons q rest ih =>
    refine ensures_satisfiesGuard.bind fun enabled t ⟨hAnswer, ht⟩ => ?_
    cases enabled with
    | true =>
      refine .pure ⟨ht, fun q' hq' => ?_, by simp⟩
      cases hq'
      exact ⟨List.mem_cons_self, hAnswer⟩
    | false =>
      refine ih.mono (fun found r ⟨hr, hFound, hNone⟩ =>
        ⟨hr.trans ht, fun q' hq' => ?_, fun h => ?_⟩) fun _ h => h
      · exact ⟨List.mem_cons_of_mem _ (hFound q' hq').1, (hFound q' hq').2⟩
      · exact List.forall_mem_cons.mpr ⟨hAnswer, hNone h⟩

/-- Testing an error label on everything reached changes nothing, because the label was reached
before or is enabled nowhere, or it records the label from a state on which it is enabled. -/
theorem ensures_testReachable_cases [RegionState S] :
    Ensures s (testReachable env l)
      (fun _ t => t.work = s.work ∧ (l.name ∈ s.work.image.reachedErrors ∨
          ∀ q ∈ s.work.image.reachable.states,
            env.solver.Answers (l.guardOn (RegionState.toExpr q)) .unsat) ∨
        l.name ∉ s.work.image.reachedErrors ∧ ∃ q ∈ s.work.image.reachable.states,
          env.solver.Answers (l.guardOn (RegionState.toExpr q)) .sat ∧
          t.work = { s.work with
            image := s.work.image.recordError l.name (RegionState.history q ++ [l.name]) })
      (fun _ => True) := by
  refine ensures_image_bind ?_
  split
  · next hReached => exact .pure (.inl ⟨rfl, .inl (by simpa [Image.isReached] using hReached)⟩)
  · next hReached =>
    refine (ensures_firstEnabled _).bind fun found t ⟨ht, hFound, hNone⟩ => ?_
    cases found with
    | none => exact .pure (.inl ⟨ht, .inr (hNone rfl)⟩)
    | some q =>
      obtain ⟨hq, hAnswer⟩ := hFound q rfl
      have hNew : l.name ∉ s.work.image.reachedErrors := by simpa [Image.isReached] using hReached
      have hRecord : Ensures t (recordFrom l q) (fun _ r => r.work = { t.work with
          image := t.work.image.recordError l.name (RegionState.history q ++ [l.name]) })
          (fun _ => True) := rfl
      exact hRecord.mono (fun _ r hr => .inr ⟨hNew, q, hq, hAnswer, by rw [hr, ht]⟩) fun _ h => h

/-- Testing an error label on everything reached preserves what recording it preserves. -/
theorem ensures_testReachable_keeps [RegionState S] {Inv : Work S → Prop}
    (hRecord : ∀ q ∈ s.work.image.reachable.states,
      env.solver.Answers (l.guardOn (RegionState.toExpr q)) .sat →
      Inv { s.work with
        image := s.work.image.recordError l.name (RegionState.history q ++ [l.name]) })
    (hs : Inv s.work) :
    Ensures s (testReachable env l) (fun _ t => Inv t.work) (fun _ => True) := by
  refine ensures_testReachable_cases.mono (fun _ t hCases => ?_) fun _ h => h
  rcases hCases with ⟨ht, -⟩ | ⟨-, q, hq, hAnswer, ht⟩
  · rwa [ht]
  · rw [ht]
    exact hRecord q hq hAnswer

/-- Testing an error label on the frontier preserves what raising the flag and recording the label
preserve. -/
theorem ensures_testFrontier_keeps [RegionState S] {Inv : Work S → Prop} (owner : FlagOwner)
    (hHalt : Inv { s.work with halted := true })
    (hRecord : ∀ q ∈ s.work.image.frontier.states,
      env.solver.Answers (l.guardOn (RegionState.toExpr q)) .sat → ∀ w, Inv w →
      Inv { w with image := w.image.recordError l.name (RegionState.history q ++ [l.name]) })
    (hs : Inv s.work) :
    Ensures s (testFrontier env owner l) (fun _ t => Inv t.work) (fun _ => True) := by
  refine ensures_image_bind ((ensures_firstEnabled _).bind fun found t ⟨ht, hFound, _⟩ => ?_)
  rw [← ht] at hs hHalt
  cases found with
  | none => exact .pure hs
  | some q =>
    obtain ⟨hq, hAnswer⟩ := hFound q rfl
    cases owner with
    | shared => exact hRecord q hq hAnswer _ hs
    | own => exact hRecord q hq hAnswer _ hHalt

end Steps

/-- Firing a label on a symbolic state changes nothing, because the label is not enabled, or it
enters one successor, whose formulas are as simplification leaves them. -/
theorem ensures_expandSymbolic_cases {K : Formulas → Formulas → Prop}
    (hSimplify : ∀ fs {s : Session σ (Work SymbolicState)}, Ensures s (simplifyFormulas env fs)
      (fun fs' t => t.work = s.work ∧ K fs fs') fun _ => True)
    (hRefl : ∀ fs, K fs fs) (simplify : Bool) :
    Ensures s (expandSymbolic env simplify l q)
      (fun _ t => env.solver.Answers (l.guardOn q.toExpr) .unsat ∧ t.work = s.work ∨
        env.solver.Answers (l.guardOn q.toExpr) .sat ∧
        ∃ fs, K (l.successorFormulas q (s.work.issued + 1)) fs ∧ t.work = { s.work with
          issued := s.work.issued + 1
          image := s.work.image.addPending
            { id := s.work.image.names + 1, formulas := fs, history := q.history ++ [l.name] } })
      (fun _ => True) := by
  refine ensures_satisfiesGuard.bind fun enabled t ⟨hAnswer, ht⟩ => ?_
  cases enabled with
  | false => exact .pure (.inl ⟨hAnswer, ht⟩)
  | true =>
    simp only [if_true]
    refine ensures_image_bind (.report_bind fun r hr => .modifyWork_bind (.work_bind ?_))
    simp only [hr, ht]
    have hEnter : ∀ (fs : Formulas) (o : Session σ (Work SymbolicState)),
        Ensures o (do
          modifyImage fun i =>
            i.addPending { id := i.names + 1, formulas := fs, history := q.history ++ [l.name] }
          report env (.finished (.apply l.name) s.work.image.depth))
          (fun _ t => t.work = { o.work with
            image := o.work.image.addPending
              { id := o.work.image.names + 1, formulas := fs, history := q.history ++ [l.name] } })
          (fun _ => True) :=
      fun fs o => ensures_modifyImage_bind
        ((ensures_report_calm _).mono (fun _ _ h => h.1) fun _ h => h)
    split
    · refine (hSimplify _).bind fun fs o ⟨ho, hfs⟩ =>
        (hEnter fs o).mono (fun _ t' ht' => ?_) fun _ h => h
      exact .inr ⟨hAnswer, fs, hfs, by rw [ht', ho]⟩
    · exact (hEnter _ _).mono (fun _ t' ht' => .inr ⟨hAnswer, _, hRefl _, ht'⟩) fun _ h => h

/-- Firing a label on a concrete state changes nothing, or it enters the successor with the values
of a model. -/
theorem ensures_expandConcrete_cases {q : ConcreteState} {s : Session σ (Work ConcreteState)} :
    Ensures s (expandConcrete env l q)
      (fun _ t => t.work = s.work ∨
        env.solver.Answers (l.guardOn q.toExpr) .sat ∧
        ∃ memory, (env.solver.solve (q.toExpr.and l.transitionExpr) memory).1.verdict = .sat ∧
          t.work = { s.work with
            image := s.work.image.addPending
              ((ConcreteState.ofModel
                  (env.solver.solve (q.toExpr.and l.transitionExpr) memory).1.model
                (l.stateVariables.map Variable.primed)).withHistory q.history l.name) })
      (fun _ => True) := by
  refine ensures_satisfiesGuard.bind fun enabled t ⟨hAnswer, ht⟩ => ?_
  cases enabled with
  | false => exact .pure (.inl ht)
  | true =>
    simp only [if_true]
    refine ensures_image_bind (.report_bind fun r hr => ?_)
    refine Ensures.bind (Q := fun answer o => o.work = r.work ∧
      answer = (env.solver.solve (q.toExpr.and l.transitionExpr) r.memory).1) ⟨rfl, rfl⟩ ?_
    rintro _ o ⟨ho, rfl⟩
    refine .report_bind fun o' ho' => ?_
    have hSame : o'.work = s.work := ho'.trans (ho.trans (hr.trans ht))
    cases hVerdict : (env.solver.solve (q.toExpr.and l.transitionExpr) r.memory).1.verdict with
    | sat => exact Ensures.modifyWork (Or.inr ⟨hAnswer, r.memory, hVerdict, by rw [hSame]⟩)
    | unsat => exact .pure (.inl hSame)
    | dontKnow => exact .throw trivial

/-- An error label that is recorded counts as fired everywhere. -/
theorem ensures_recordFrom [Reals] (hError : l.isError = true) (hs : Probing system base s.work)
    (states : List SymbolicState) :
    Ensures s (recordFrom l q)
      (fun _ t => Probing system base t.work ∧ Extends s.work t.work ∧
        ∀ q ∈ states, Fired system t.work q l)
      (fun _ => True) := by
  obtain ⟨hProbing, hExtends, hMem⟩ := hs.recordError l.name (q.history ++ [l.name])
  exact ⟨hProbing, hExtends, fun _ _ => ⟨by simp [hError], fun _ _ _ _ => hMem⟩⟩

theorem ensures_raiseFlag (owner : FlagOwner) (hs : Probing system base s.work) :
    Ensures s (raiseFlag owner)
      (fun _ t => Probing system base t.work ∧ Extends s.work t.work) (fun _ => True) := by
  cases owner with
  | shared => exact ⟨hs, .refl _⟩
  | own =>
    exact ⟨⟨hs.system_eq, hs.base_le, hs.reachable, hs.frontier, hs.pending⟩,
      rfl, rfl, rfl, rfl, List.Subset.refl _, List.Subset.refl _⟩

section Label

variable [Reals]
variable (hTrue : env.solver.Truthful) (hl : l.Hygienic system.stateVariables)

include hTrue hl

/-- A label whose guard cannot be satisfied leads nowhere and is not enabled. -/
theorem fired_of_unsat {n : Nat} (hq : q.Tidy system.stateVariables n)
    (hUnsat : env.solver.Answers (l.guardOn q.toExpr) .unsat) (w : Work SymbolicState) :
    Fired system w q l := by
  obtain ⟨memory, hUnsat⟩ := hUnsat
  have hNever : ∀ ν, q.Describes system.stateVariables ν → ¬system.Enables ν l := by
    rintro ν hν ⟨before, hBefore, hPre⟩
    obtain ⟨β, hβ⟩ := hl.exists_holds_guardOn hq hν hBefore hPre
    rw [hTrue.unsat _ _ hUnsat β] at hβ
    cases hβ
  refine ⟨fun _ ν ν' hν ⟨before, hBefore, hFires⟩ => ?_, fun _ ν hν hEnabled => ?_⟩
  · exact absurd ⟨before, hBefore, hFires.1⟩ (hNever ν hν)
  · exact absurd hEnabled (hNever ν hν)

/-- Firing a label on a state that is reached. -/
theorem ensures_expandSymbolic (simplify : Bool) (hnoError : l.isError = false)
    (hs : Probing system base s.work) (hq : q ∈ s.work.image.reachable.states) :
    Ensures s (expandSymbolic env simplify l q)
      (fun _ t => Probing system base t.work ∧ Extends s.work t.work ∧ Fired system t.work q l)
      (fun _ => True) := by
  have hTidy := hs.tidy_of_mem hq
  refine (ensures_expandSymbolic_cases (fun fs => ensures_simplifyFormulas hTrue fs) Simplified.refl
    simplify).mono (fun _ t hCases => ?_) fun _ h => h
  rcases hCases with ⟨hAnswer, ht⟩ | ⟨-, fs, hSimplified, ht⟩
  · rw [ht]
    exact ⟨hs, .refl _, fired_of_unsat hTrue hl hTidy hAnswer _⟩
  · rw [ht]
    let p : SymbolicState :=
      { id := s.work.image.names + 1, formulas := fs, history := q.history ++ [l.name] }
    have hSuccessor := tidy_current (p := p) hl hTidy hSimplified
    obtain ⟨hProbing, hExtends, hMem⟩ :=
      (hs.issue (Nat.le_succ s.work.issued)).addPending (p := p) rfl hSuccessor
    refine ⟨hProbing, ⟨hExtends.unrolling, hExtends.depth, hExtends.reachable, hExtends.frontier,
      hExtends.pending, hExtends.reachedErrors⟩, fun _ ν ν' hν ⟨before, hBefore, hFires⟩ => ?_,
      by simp [hnoError]⟩
    exact ⟨p, hMem, describes_current (p := p) hl hTidy hSimplified hν hBefore hFires⟩

/-- Firing a label on states that are reached. -/
theorem ensures_forM_expandSymbolic (simplify : Bool) (hnoError : l.isError = false)
    (states : List SymbolicState) (hs : Probing system base s.work)
    (hStates : states ⊆ s.work.image.reachable.states) :
    Ensures s (states.forM (expandSymbolic env simplify l))
      (fun _ t => Probing system base t.work ∧ Extends s.work t.work ∧
        ∀ q ∈ states, Fired system t.work q l)
      (fun _ => True) := by
  induction states generalizing s with
  | nil => exact .pure ⟨hs, .refl _, by simp⟩
  | cons q rest ih =>
    obtain ⟨hq, hRest⟩ := List.cons_subset.mp hStates
    show Ensures s (expandSymbolic env simplify l q >>= fun _ => rest.forM _) _ _
    refine (ensures_expandSymbolic hTrue hl simplify hnoError hs hq).bind
      fun _ t ⟨ht, hExtends, hFired⟩ => ?_
    refine (ih ht (by rwa [hExtends.reachable])).mono (fun _ r ⟨hr, hExtends', hAll⟩ => ?_)
      fun _ h => h
    exact ⟨hr, hExtends.trans hExtends',
      List.forall_mem_cons.mpr ⟨hFired.extends hExtends', hAll⟩⟩

/-- Testing an error label on all that is reached fires it on the frontier. -/
theorem ensures_testReachable (hError : l.isError = true) (hs : Probing system base s.work) :
    Ensures s (testReachable env l)
      (fun _ t => Probing system base t.work ∧ Extends s.work t.work ∧
        ∀ q ∈ s.work.image.frontier.states, Fired system t.work q l)
      (fun _ => True) := by
  refine ensures_image_bind ?_
  split
  · next hReached =>
    have hMem : l.name ∈ s.work.image.reachedErrors := by simpa [Image.isReached] using hReached
    exact .pure ⟨hs, .refl _, fun _ _ => ⟨by simp [hError], fun _ _ _ _ => hMem⟩⟩
  · refine (ensures_firstEnabled _).bind fun found t ⟨ht, _, hNone⟩ => ?_
    rw [← ht] at hs ⊢
    cases found with
    | some q => exact ensures_recordFrom hError hs _
    | none =>
      refine .pure ⟨hs, .refl _, fun q hq => ?_⟩
      exact fired_of_unsat hTrue hl (hs.tidy_of_mem (hs.frontier hq))
        (hNone rfl q (ht ▸ hs.frontier hq)) _

/-- Testing an error label on the frontier. -/
theorem ensures_testFrontier (owner : FlagOwner) (hError : l.isError = true)
    (hs : Probing system base s.work) :
    Ensures s (testFrontier env owner l)
      (fun _ t => Probing system base t.work ∧ Extends s.work t.work ∧
        ∀ q ∈ s.work.image.frontier.states, Fired system t.work q l)
      (fun _ => True) := by
  refine ensures_image_bind ?_
  refine (ensures_firstEnabled _).bind fun found t ⟨ht, _, hNone⟩ => ?_
  rw [← ht] at hs hNone ⊢
  cases found with
  | some q =>
    refine (ensures_raiseFlag owner hs).bind fun _ r ⟨hr, hExtends⟩ => ?_
    have hRecorded := ensures_recordFrom hError hr t.work.image.frontier.states (q := q)
    refine hRecorded.mono (fun _ o ⟨ho, hExtends', hAll⟩ => ?_) fun _ h => h
    exact ⟨ho, hExtends.trans hExtends', hAll⟩
  | none =>
    refine .pure ⟨hs, .refl _, fun q hq => ?_⟩
    exact fired_of_unsat hTrue hl (hs.tidy_of_mem (hs.frontier hq)) (hNone rfl q hq) _

end Label

/-! ## Faithful strategies -/

variable [Reals]

/-- A strategy over symbolic states fires every label on the whole frontier, and keeps the states
that have values which are not covered. -/
structure Strategy.Faithful (env : Surroundings σ) (system : System)
    (strategy : Strategy σ SymbolicState) : Prop where
  expand : ∀ l ∈ system.labels,
    l.isError = false → ∀ {base : Nat} {s : Session σ (Work SymbolicState)},
    Probing system base s.work →
      Ensures s (strategy.expand l)
        (fun _ t => Probing system base t.work ∧ Extends s.work t.work ∧
          ∀ q ∈ s.work.image.frontier.states, Fired system t.work q l) (fun _ => True)
  testError : ∀ l ∈ system.labels, l.isError = true → ∀ {base : Nat}
    {s : Session σ (Work SymbolicState)}, Probing system base s.work →
      Ensures s (strategy.testError l)
        (fun _ t => Probing system base t.work ∧ Extends s.work t.work ∧
          ∀ q ∈ s.work.image.frontier.states, Fired system t.work q l) (fun _ => True)
  toCurrent : strategy.toCurrent = current
  difference : strategy.difference = Region.difference env
  goesOn : ∀ s, Ensures s strategy.goesOn (fun _ t => t = s) (fun _ => True)

/-- Symbolic search fires every label and misses nothing. -/
theorem faithful_symbolic (hTrue : env.solver.Truthful) (hSystem : system.Hygienic)
    (simplify : Bool) : (symbolic env simplify).Faithful env system where
  expand l hl hnoError {base s} hs := by
    refine ensures_image_bind ?_
    exact ensures_forM_expandSymbolic hTrue (hSystem.label hl) simplify hnoError _ hs hs.frontier
  testError l hl hError {base s} hs := ensures_testReachable hTrue (hSystem.label hl) hError hs
  toCurrent := rfl
  difference := rfl
  goesOn _ := .pure rfl

/-- Synchronised search fires every label as the symbolic one does. -/
theorem faithful_synchronised (hTrue : env.solver.Truthful) (hSystem : system.Hygienic)
    (owner : FlagOwner) : (synchronised env owner).Faithful env system where
  expand := (faithful_symbolic hTrue hSystem true).expand
  testError l hl hError {base s} hs := ensures_testFrontier hTrue (hSystem.label hl) owner hError hs
  toCurrent := rfl
  difference := rfl
  goesOn s := by
    cases owner with
    | shared => exact .stopped_bind (.pure rfl)
    | own => exact .work_bind (.pure rfl)

end StateSpace.Search
