import StateSpace.Proofs.Exploration.Abreast
import StateSpace.Proofs.Search.Completeness
import StateSpace.Proofs.Search.Pinning
import StateSpace.Proofs.Unrolling.Start

/-!
# Search with and without simplification

Simplification drops what a formula says about hidden variables, and with it what they tell of other
variables. So it may change what a search finds (`Search.simplification_finds_more`). It does not if
the labels of the system do not hinder their own effects: two searches, one of which simplifies,
then go through the same depths with the same names, and the states under each name describe the
same values (`Search.Parallel`). They end in the same way, with the same errors and with regions
that cover the same values (`Search.searchSymbolic_simplify`).
-/

namespace StateSpace.Search

open Explore Environment

variable {σ : Type} {env : Surroundings σ} {system : System} {P : (Environment → Prop) → Prop}
  {w w' : Work SymbolicState} {s s' t t' : Session σ (Work SymbolicState)} {l : Label} {n : Nat}
  {q q' p p' : SymbolicState} {maxDepth : Option Nat} {ν : Environment}

/-! ## Two searches -/

/-- Two searches are at the same point: all is the same but the states, and these are paired. -/
structure Parallel [Reals] (system : System) (P : (Environment → Prop) → Prop)
    (w w' : Work SymbolicState) : Prop where
  system_eq : w.unrolling.system = system
  unrolling : w'.unrolling = w.unrolling
  issued : w'.issued = w.issued
  image : w'.image = { w.image with
    reachable := w'.image.reachable, frontier := w'.image.frontier, pending := w'.image.pending }
  reachable : Region.Matched (Paired system P (w.issued + 1)) w.image.reachable w'.image.reachable
  frontier : Region.Matched (Paired system P (w.issued + 1)) w.image.frontier w'.image.frontier
  pending : Region.Matched (fun p p' => Paired system P (w.issued + 1) (current p) (current p'))
    w.image.pending w'.image.pending

/-- Two sessions are abreast, with parallel searches. -/
structure Aligned [Reals] (system : System) (P : (Environment → Prop) → Prop)
    (s s' : Session σ (Work SymbolicState)) : Prop where
  abreast : Abreast s s'
  work : Parallel system P s.work s'.work

theorem Aligned.of_work_eq [Reals] (h : Aligned system P s s') (hAbreast : Abreast t t')
    (hWork : t.work = s.work) (hWork' : t'.work = s'.work) : Aligned system P t t' :=
  ⟨hAbreast, by rw [hWork, hWork']; exact h.work⟩

/-- More transitions are numbered. -/
theorem Parallel.issue [Reals] (h : Parallel system P w w') {m : Nat} (hm : w.issued ≤ m) :
    Parallel system P { w with issued := m } { w' with issued := m } where
  system_eq := h.system_eq
  unrolling := h.unrolling
  issued := rfl
  image := h.image
  reachable := h.reachable.mono fun _ _ hPaired => hPaired.mono (Nat.succ_le_succ hm)
  frontier := h.frontier.mono fun _ _ hPaired => hPaired.mono (Nat.succ_le_succ hm)
  pending := h.pending.mono fun _ _ hPaired => hPaired.mono (Nat.succ_le_succ hm)

/-- Paired successors may be added. -/
theorem Parallel.addPending [Reals] (h : Parallel system P w w')
    (hp : Paired system P (w.issued + 1) (current p) (current p')) :
    Parallel system P { w with image := w.image.addPending p }
      { w' with image := w'.image.addPending p' } := by
  have hNames : w'.image.names = w.image.names := by rw [h.image]
  refine ⟨h.system_eq, h.unrolling, h.issued, ?_, h.reachable, h.frontier, ?_⟩
  · unfold Image.addPending
    rw [h.image]
  · show Region.Matched _ (w.image.pending.insert _ p) (w'.image.pending.insert _ p')
    rw [hNames]
    exact h.pending.insert _ hp

/-- The same error may be recorded in both. -/
theorem Parallel.recordError [Reals] (h : Parallel system P w w') (label : String)
    (history : List String) :
    Parallel system P { w with image := w.image.recordError label history }
      { w' with image := w'.image.recordError label history } := by
  have hReached : w'.image.isReached label = w.image.isReached label := by
    rw [h.image]
    rfl
  unfold Image.recordError
  rw [hReached]
  split
  · exact h
  · refine ⟨h.system_eq, h.unrolling, h.issued, ?_, h.reachable, h.frontier, h.pending⟩
    rw [h.image]

theorem Parallel.atDepth [Reals] (h : Parallel system P w w') (depth : Nat) :
    Parallel system P { w with image := { w.image with depth } }
      { w' with image := { w'.image with depth } } := by
  refine ⟨h.system_eq, h.unrolling, h.issued, ?_, h.reachable, h.frontier, h.pending⟩
  rw [h.image]

/-- What a depth has added is reached, and it is the frontier of the next one. -/
theorem Parallel.advance [Reals] (h : Parallel system P w w') {added added' : Region SymbolicState}
    (hAdded : Region.Matched (Paired system P (w.issued + 1)) added added') :
    Parallel system P (advance w added) (advance w' added') := by
  refine ⟨h.system_eq, h.unrolling, h.issued, ?_, h.reachable.union hAdded, hAdded, .empty⟩
  unfold Search.advance
  rw [h.image]

/-- Paired states cover the same values. -/
theorem covers_matched [Reals] {r r' : Region SymbolicState}
    (h : Region.Matched (Paired system P n) r r') : Covers system r' ν ↔ Covers system r ν := by
  rw [covers_iff, covers_iff]
  have hStates := h.states
  generalize r.states = states at hStates
  generalize r'.states = states' at hStates
  induction hStates with
  | nil => simp
  | cons hPaired _ ih =>
    simp only [List.exists_mem_cons_iff, ih, hPaired.noError, hPaired.describes]

/-! ## Firing and testing -/

section Steps

variable {α : Type}
  {Q : α → Session σ (Work SymbolicState) → α → Session σ (Work SymbolicState) → Prop}

theorem together_image_bind {next next' : Image SymbolicState → Step σ SymbolicState α}
    (h : Together s s' (next s.work.image) (next' s'.work.image) Q) :
    Together s s' (image >>= next) (image >>= next') Q :=
  h

theorem together_modifyImage_bind {f f' : Image SymbolicState → Image SymbolicState}
    {next next' : Unit → Step σ SymbolicState α}
    (h : Together { s with work := { s.work with image := f s.work.image } }
      { s' with work := { s'.work with image := f' s'.work.image } } (next ()) (next' ()) Q) :
    Together s s' (modifyImage f >>= next) (modifyImage f' >>= next') Q :=
  h

/-- Paired successors become pending under the same name. -/
theorem together_addPending [Reals] {f f' : Image SymbolicState → SymbolicState} (event : Event)
    (hs : Aligned system P s s')
    (hp : Paired system P (s.work.issued + 1) (current (f s.work.image))
      (current (f' s'.work.image))) :
    Together s s'
      (do
        modifyImage fun i => i.addPending (f i)
        report env event)
      (do
        modifyImage fun i => i.addPending (f' i)
        report env event)
      (fun _ t _ t' => Aligned system P t t' ∧ t.work.issued = s.work.issued) := by
  refine together_modifyImage_bind ((Together.report event ?_).mono ?_)
  · exact ⟨hs.abreast.stop, hs.abreast.trace⟩
  · rintro _ t _ t' ⟨hAbreast, hWork, hWork'⟩
    refine ⟨⟨hAbreast, ?_⟩, by rw [hWork]⟩
    rw [hWork, hWork']
    exact hs.work.addPending hp

end Steps

section Label

variable [Reals]
variable (hSolver : env.solver.Reliable) (hSystem : system.Hygienic) (hl : l ∈ system.labels)
  (hs : Aligned system P s s')

include hSolver hSystem hl hs

/-- Guards are answered in the same way on paired states. -/
theorem together_satisfiesGuard (hq : Paired system P n q q') :
    Together s s' (satisfiesGuard env l q) (satisfiesGuard env l q')
      (Answered (l.guardOn q.toExpr) s s') := by
  have hDepth : s'.work.image.depth = s.work.image.depth := by rw [hs.work.image]
  have hDecided := together_holdsDuring hSolver.toTruthful (hq.guardOn_iff (hSystem.label hl))
    hs.abreast (.guard l.name) s.work.image.depth (.guardAtDepth l.name s.work.image.depth)
    (.guardAtDepth l.name s.work.image.depth)
  intro b t b' t' hRun hRun'
  refine hDecided b t b' t' hRun ?_
  rw [← hRun', ← hDepth]
  rfl

/-- The first state that enables a label is found under the same name. -/
theorem together_firstEnabled {states states' : List SymbolicState}
    (hStates : List.Forall₂ (Paired system P n) states states') :
    Together s s' (firstEnabled env l states) (firstEnabled env l states')
      (fun found t found' t' => Option.Rel (Paired system P n) found found' ∧
        Aligned system P t t') := by
  induction hStates generalizing s s' with
  | nil => exact .pure ⟨.none, hs⟩
  | cons hq _ ih =>
    refine (together_satisfiesGuard hSolver hSystem hl hs hq).bind fun b t b' t' h => ?_
    have ht := hs.of_work_eq h.abreast h.work h.work'
    rw [h.same]
    split
    · exact .pure ⟨.some hq, ht⟩
    · exact ih ht

/-- An error label is tested with the same outcome. -/
theorem together_testReachable :
    Together s s' (testReachable env l) (testReachable env l)
      (fun _ t _ t' => Aligned system P t t') := by
  have hReached : s'.work.image.isReached l.name = s.work.image.isReached l.name := by
    rw [hs.work.image]
    rfl
  refine together_image_bind ?_
  rw [hReached]
  split
  · exact .pure hs
  · refine (together_firstEnabled hSolver hSystem hl hs hs.work.reachable.states).bind ?_
    rintro found t found' t' ⟨hFound, ht⟩
    cases hFound with
    | none => exact .pure ht
    | @some q q' hq =>
      -- the way recorded is the history of the state found, and paired states share it
      rintro _ _ _ _ ⟨⟩ ⟨⟩
      have hHistory : RegionState.history q' = RegionState.history q := hq.history
      refine ⟨⟨ht.abreast.stop, ht.abreast.trace⟩, ?_⟩
      rw [hHistory]
      exact ht.work.recordError l.name _

variable (hStable : system.Stable P) (hnoConstructor : l.isConstructor = false)
  (hnoError : l.isError = false)

include hStable hnoConstructor hnoError

/-- A label that fires on two paired states adds paired successors. -/
theorem together_expandSymbolic (hq : Paired system P (s.work.issued + 1) q q') :
    Together s s' (expandSymbolic env true l q) (expandSymbolic env false l q')
      (fun _ t _ t' => Aligned system P t t' ∧ s.work.issued ≤ t.work.issued) := by
  have hDepth : s'.work.image.depth = s.work.image.depth := by rw [hs.work.image]
  refine (together_satisfiesGuard hSolver hSystem hl hs hq).bind fun b t b' t' h => ?_
  have ht := hs.of_work_eq h.abreast h.work h.work'
  rw [h.same]
  split
  · next hEnabled =>
    refine together_image_bind ?_
    rw [h.work, h.work', hDepth]
    refine .report_bind ht.abreast fun r r' hr hWork hWork' => ?_
    refine .modifyWork_bind (.work_bind ?_)
    simp only [hWork, hWork', h.work, h.work', hs.work.issued, if_true, Bool.false_eq_true,
      if_false]
    -- only the first search asks about its formulas, so this step has no counterpart
    refine .bind_left (ensures_simplifyFormulas_pinned hSolver _) ?_
    rintro fs _ ⟨⟨memory, rfl⟩, hPinned⟩
    rw [pure_bind]
    refine Together.mono (Q := fun _ o _ o' => Aligned system P o o' ∧
      o.work.issued = s.work.issued + 1) (together_addPending _ ?_ ?_) ?_
    · exact ⟨⟨hr.stop, hr.trace⟩, hs.work.issue (Nat.le_succ _)⟩
    · exact hq.fire hSystem hStable hl hnoConstructor hnoError (h.satisfiable hEnabled) hPinned rfl
        ⟨rfl, rfl⟩ (congrArg (· ++ [l.name]) hq.history)
    · rintro _ o _ o' ⟨ho, hIssued⟩
      refine ⟨ho, ?_⟩
      rw [hIssued]
      exact Nat.le_succ s.work.issued
  · refine .pure ⟨ht, ?_⟩
    rw [h.work]

/-- Firing a label on paired states gives paired successors. -/
theorem together_forM_expandSymbolic {states states' : List SymbolicState}
    (hn : n ≤ s.work.issued + 1) (hStates : List.Forall₂ (Paired system P n) states states') :
    Together s s' (states.forM (expandSymbolic env true l))
      (states'.forM (expandSymbolic env false l)) (fun _ t _ t' => Aligned system P t t') := by
  induction hStates generalizing s s' with
  | nil => exact .pure hs
  | @cons q q' states states' hq _ ih =>
    show Together s s' (expandSymbolic env true l q >>= fun _ => states.forM _)
      (expandSymbolic env false l q' >>= fun _ => states'.forM _) _
    refine (together_expandSymbolic hSolver hSystem hl hs hStable hnoConstructor hnoError
      (hq.mono hn)).bind ?_
    rintro _ t _ t' ⟨ht, hIssued⟩
    exact ih ht (by omega)

end Label

/-! ## Depths -/

/-- What paired states add to regions that cover the same values is paired. -/
theorem together_uncovered [Reals] (hSolver : env.solver.Reliable) {m : Nat}
    {reached reached' : Region SymbolicState}
    (hReached : Region.Matched (Paired system P m) reached reached')
    {entries entries' : List (String × SymbolicState)}
    (hEntries : List.Forall₂
      (fun entry entry' => entry'.1 = entry.1 ∧ Paired system P n entry.2 entry'.2) entries
        entries')
    (hAbreast : Abreast s s') :
    Together s s' (Region.uncovered env (reached.covered system.stateVariables) entries)
      (Region.uncovered env (reached'.covered system.stateVariables) entries')
      (fun added t added' t' => Region.Matched (Paired system P n) added added' ∧ Abreast t t' ∧
        t.work = s.work ∧ t'.work = s'.work) := by
  induction hEntries generalizing s s' with
  | nil => exact .pure ⟨.empty, hAbreast, rfl, rfl⟩
  | @cons entry entry' rest rest' hEntry _ ih =>
    obtain ⟨hName, hPaired⟩ := hEntry
    -- the formulas differ, but a value that is not covered yet is found in both or in neither
    have hOutside : (∃ ρ,
          (entry.2.outside (reached.covered system.stateVariables)).holds ρ = true) ↔
        ∃ ρ, (entry'.2.outside (reached'.covered system.stateVariables)).holds ρ = true := by
      have hCovered : ∀ ν, (reached.covered system.stateVariables).holds ν = false ↔
          (reached'.covered system.stateVariables).holds ν = false := by
        intro ν
        rw [← Bool.not_eq_true, ← Bool.not_eq_true]
        exact not_congr (covers_matched hReached).symm
      unfold Region.covered at hCovered ⊢
      rw [exists_outside_iff, exists_outside_iff, hPaired.describes]
      exact exists_congr fun ν => and_congr_right fun _ => hCovered ν
    refine (together_holds hSolver.toTruthful hOutside hAbreast _ _).bind fun b t b' t' h => ?_
    rw [h.same, ← h.work, ← h.work']
    cases b with
    | true =>
      refine (ih h.abreast).bind ?_
      rintro added r added' r' ⟨hMatched, hRest⟩
      rw [hName]
      exact .pure ⟨hMatched.insert _ hPaired, hRest⟩
    | false => exact ih h.abreast

section Run

variable [Reals]
variable (hSolver : env.solver.Reliable) (hSystem : system.Hygienic) (hStable : system.Stable P)

include hSolver hSystem hStable

/-- Firing the labels keeps two searches aligned. -/
theorem together_fireLabels (labels : List Label) (hLabels : labels ⊆ system.labels)
    (hs : Aligned system P s s') :
    Together s s' (fireLabels (symbolic env true) labels) (fireLabels (symbolic env false) labels)
      (fun b t b' t' => b' = b ∧ Aligned system P t t') := by
  induction labels generalizing s s' with
  | nil => exact .pure ⟨rfl, hs⟩
  | cons l ls ih =>
    obtain ⟨hl, hls⟩ := List.cons_subset.mp hLabels
    refine .stopped_bind hs.abreast ?_
    split
    · exact .pure ⟨rfl, hs⟩
    · split
      · next hFires =>
        have hnoConstructor : l.isConstructor = false := by simpa using hFires
        split
        · exact (together_testReachable hSolver hSystem hl hs).bind fun _ t _ t' ht => ih hls ht
        · next hError =>
          have hExpanded :=
            together_forM_expandSymbolic hSolver hSystem hl hs hStable hnoConstructor
            (by simpa using hError) (Nat.le_refl _) hs.work.frontier.states
          exact (together_image_bind hExpanded).bind fun _ t _ t' ht => ih hls ht
      · exact ih hls hs

/-- The body of a depth keeps two searches aligned. -/
theorem together_fireDepth (hs : Aligned system P s s') :
    Together s s' (fireDepth env (symbolic env true)) (fireDepth env (symbolic env false))
      (fun b t b' t' => b' = b ∧ Aligned system P t t') := by
  have hSystem_eq : s.work.unrolling.system = system := hs.work.system_eq
  have hSystem_eq' : s'.work.unrolling.system = system := by rw [hs.work.unrolling, hSystem_eq]
  have hDepth : s'.work.image.depth = s.work.image.depth := by rw [hs.work.image]
  refine .work_bind (together_modifyImage_bind (together_image_bind ?_))
  simp only [hSystem_eq, hSystem_eq', hDepth]
  refine .report_bind ⟨hs.abreast.stop, hs.abreast.trace⟩ fun r r' hr hWork hWork' => ?_
  refine together_fireLabels hSolver hSystem hStable _ (List.Subset.refl _) ⟨hr, ?_⟩
  rw [hWork, hWork']
  exact hs.work.atDepth _

omit hSystem hStable in
/-- The successors are counted, taken, and sorted out. -/
theorem together_closeDepth (depth : Nat) (hs : Aligned system P s s') :
    Together s s' (closeDepth env (symbolic env true) system.stateVariables depth)
      (closeDepth env (symbolic env false) system.stateVariables depth)
      (fun _ t _ t' => Aligned system P t t') := by
  refine .report_bind hs.abreast fun u₁ u₁' h₁ hw₁ hw₁' => together_image_bind ?_
  have hSize : u₁'.work.image.pending.size = u₁.work.image.pending.size := by
    rw [hw₁, hw₁']
    exact hs.work.pending.size_eq
  rw [hSize]
  refine .report_bind h₁ fun u₂ u₂' h₂ hw₂ hw₂' => .report_bind h₂ fun u₃ u₃' h₃ hw₃ hw₃' => ?_
  have hSame : u₃.work = s.work := hw₃.trans (hw₂.trans hw₁)
  have hSame' : u₃'.work = s'.work := hw₃'.trans (hw₂'.trans hw₁')
  refine together_image_bind (together_modifyImage_bind ?_)
  rw [hSame, hSame']
  refine .report_bind ⟨h₃.stop, h₃.trace⟩ fun u₄ u₄' h₄ hw₄ hw₄' => ?_
  refine .report_bind h₄ fun u₅ u₅' h₅ hw₅ hw₅' => together_image_bind ?_
  have hCleared : u₅.work = { s.work with image := { s.work.image with pending := {} } } :=
    hw₅.trans hw₄
  have hCleared' : u₅'.work = { s'.work with image := { s'.work.image with pending := {} } } :=
    hw₅'.trans hw₄'
  rw [hCleared, hCleared']
  refine (together_uncovered hSolver hs.work.reachable hs.work.pending.map.toList h₅).bind ?_
  rintro added o added' o' ⟨hAdded, ho, how, how'⟩
  refine .report_bind ho fun o₁ o₁' ho₁ how₁ how₁' => ?_
  rintro _ _ _ _ ⟨⟩ ⟨⟩
  refine ⟨⟨ho₁.stop, ho₁.trace⟩, ?_⟩
  show Parallel system P { o₁.work with image := _ } { o₁'.work with image := _ }
  rw [how₁, how₁', how, how', hCleared, hCleared']
  exact hs.work.advance hAdded

/-- One depth of both searches. -/
theorem together_deepen (hs : Aligned system P s s') :
    Together s s' (deepen env (symbolic env true)) (deepen env (symbolic env false))
      (fun b t b' t' => b' = b ∧ Aligned system P t t') := by
  have hSystem_eq : s.work.unrolling.system = system := hs.work.system_eq
  have hSystem_eq' : s'.work.unrolling.system = system := by rw [hs.work.unrolling, hSystem_eq]
  have hDepth : s'.work.image.depth = s.work.image.depth := by rw [hs.work.image]
  refine .work_bind ?_
  rw [hSystem_eq, hSystem_eq', hDepth]
  refine (together_fireDepth hSolver hSystem hStable hs).bind ?_
  rintro b r b' r' ⟨rfl, hr⟩
  exact (together_closeDepth hSolver _ hr).bind fun _ t _ t' ht => .pure ⟨rfl, ht⟩

end Run

/-! ## Runs -/

section Meaning

variable [Reals]

/-- Two images tell the same: how the search ended, which errors it reached and how, and the values
that it covers. -/
structure SameFindings (system : System) (i i' : Image SymbolicState) : Prop where
  ending : i'.ending = i.ending
  reachedErrors : i'.reachedErrors = i.reachedErrors
  counterexamples : i'.counterexamples = i.counterexamples
  covers : ∀ ν, Covers system i'.reachable ν ↔ Covers system i.reachable ν

theorem Parallel.sameFindings (h : Parallel system P w w') (ending : Ending) :
    SameFindings system { w.image with ending } { w'.image with ending } := by
  have hErrors : w'.image.reachedErrors = w.image.reachedErrors := by rw [h.image]
  have hWays : w'.image.counterexamples = w.image.counterexamples := by rw [h.image]
  exact ⟨rfl, hErrors, hWays, fun ν => covers_matched h.reachable⟩

/-- One turn of both searches. -/
theorem together_turn (hSolver : env.solver.Reliable) (hSystem : system.Hygienic)
    (hStable : system.Stable P) (hs : Aligned system P s s') :
    Together s s' (turn env (symbolic env true) maxDepth) (turn env (symbolic env false) maxDepth)
      (Turn.Meets (fun (_ : Unit) t _ t' => Aligned system P t t') (fun _ _ _ => False)
        (SameFindings system)) := by
  have hEnd : ∀ {r r' : Session σ (Work SymbolicState)} (ending : Ending), Aligned system P r r' →
      Together r r' (do return Turn.done (← endAs ending)) (do return Turn.done (← endAs ending))
        (Turn.Meets (fun (_ : Unit) t _ t' => Aligned system P t t') (fun _ _ _ => False)
          (SameFindings system)) := by
    rintro r r' ending hr _ _ _ _ ⟨⟩ ⟨⟩
    exact hr.work.sameFindings ending
  have hDepth : s'.work.image.depth = s.work.image.depth := by rw [hs.work.image]
  refine together_image_bind ?_
  rw [hDepth, hs.work.frontier.isEmpty_eq]
  split
  · exact hEnd _ hs
  · split
    · exact hEnd _ hs
    · refine (together_deepen hSolver hSystem hStable hs).bind ?_
      rintro b t b' t' ⟨rfl, ht⟩
      unfold afterDepth
      split
      · exact hEnd _ ht
      · refine .stopped_bind ht.abreast ?_
        -- the flag is read again after the depth; both see the same
        show Together t t' (if _ then _ else _) (if _ then _ else _) _
        split
        · exact hEnd _ ht
        · exact .pure ht

/-! ## The start -/

/-- An initial state is paired with itself. -/
theorem paired_of_initial (hTrue : env.solver.Truthful) (hSystem : system.Hygienic)
    (hWithin : ∀ entry ∈ system.initialValues, entry.2.Within [entry.1])
    (hStable : system.Stable P) (hnoError : q.isError = false)
    (h : Unrolling.Initial env.solver system n q) : Paired system P n q q := by
  have hScoped := hSystem.toWellScoped
  have hDefault : ∀ m, Regular system.stateVariables m (system.defaultState 1) := fun m =>
    ⟨hScoped.keys_defaultState 1, hScoped.tidy_defaultState 1 m,
      System.coherent_defaultState hScoped hWithin 1⟩
  have hSame : ∀ {p : SymbolicState}, q.formulas = p.formulas →
      q.Describes system.stateVariables = p.Describes system.stateVariables := by
    intro p hp
    funext ν
    exact propext (SymbolicState.describes_of_formulas_eq hp)
  cases h with
  | default hNone hFormulas =>
    have hRegular := (hDefault n).of_formulas_eq hFormulas
    exact ⟨hRegular, hRegular, rfl, hSame hFormulas ▸ hStable.default hNone, ⟨hnoError, hnoError⟩,
      rfl⟩
  | @built c m hc hnoError' hInit hGuard hm hFormulas =>
    -- the guard of the constructor was satisfied, so the default values can be had
    obtain ⟨memory, hAnswer⟩ := hGuard
    obtain ⟨ρ, hρ⟩ := hTrue.sat _ _ hAnswer
    rw [Label.guardOn, Expr.holds_and, Bool.and_eq_true] at hρ
    have hν : (system.defaultState 1).Describes system.stateVariables ρ := ⟨ρ, .refl _ _, hρ.1⟩
    obtain ⟨hFree, hBuilt⟩ := hStable.build c hc hnoError' hInit ρ hν
    obtain ⟨hRegular, hDescribes⟩ := (hDefault m).applyTo (hSystem.label (List.mem_filter.mp hc).1)
      hSystem.nodup hν hFree 0
    have hRegular := (hRegular.mono hm).of_formulas_eq hFormulas
    refine ⟨hRegular, hRegular, rfl, ?_, ⟨hnoError, hnoError⟩, rfl⟩
    rw [hSame hFormulas, hDescribes]
    exact hBuilt

/-- Both searches start from the same states. -/
theorem aligned_ofInitial {initial : List SymbolicState}
    (hSystem : s.work.unrolling.system = system)
    (hInitial : ∀ q ∈ initial, Paired system P (s.work.issued + 1) q q) :
    Aligned system P { s with work := { s.work with image := .ofInitial initial } }
      { s with work := { s.work with image := .ofInitial initial } } := by
  have hMatched : Region.Matched (Paired system P (s.work.issued + 1))
      (Image.ofInitial initial).reachable (Image.ofInitial initial).reachable :=
    .refl fun q hq => hInitial q (mem_states_ofInitial.mp hq)
  exact ⟨⟨rfl, rfl⟩, hSystem, rfl, rfl, rfl, hMatched, hMatched, .empty⟩

/-- Two searches from the same session begin with the same states: simplification comes with the
first depth. -/
theorem together_seedSymbolic (hTrue : env.solver.Truthful) (hSystem : system.Hygienic)
    (hApart : ∀ l ∈ system.labels, l.isConstructor = true → l.isError = false)
    (hWithin : ∀ entry ∈ system.initialValues, entry.2.Within [entry.1])
    (hStable : system.Stable P) (hFresh : s.work.unrolling = { system := system }) :
    Together s s (seedSymbolic env) (seedSymbolic env)
      (fun _ t _ t' => Aligned system P t t') := by
  refine .bind_same ensures_start fun _ r ⟨u, hStarting, hr⟩ => .work_bind (.modifyWork_bind ?_)
  rw [hFresh] at hStarting
  have hSame := (initialStates_of_starting hTrue hSystem hStarting).1
  have hInitial := hStarting.initial fun c hc =>
    hApart c (List.mem_filter.mp hc).1 (List.mem_filter.mp hc).2
  rw [hr]
  rintro _ _ _ _ ⟨⟩ ⟨⟩
  refine aligned_ofInitial hSame fun q hq => ?_
  obtain ⟨hnoError, hq⟩ := hInitial q hq
  have hPaired := paired_of_initial hTrue hSystem hWithin hStable hnoError hq
  exact hPaired.mono (Nat.succ_le_succ (Nat.le_max_right _ _))

/-- Two searches from the same session, one with and one without simplification, find the same. -/
theorem sameFindings_of_run (hSolver : env.solver.Reliable) (hSystem : system.Hygienic)
    (hApart : ∀ l ∈ system.labels, l.isConstructor = true → l.isError = false)
    (hWithin : ∀ entry ∈ system.initialValues, entry.2.Within [entry.1])
    (hStable : system.Stable P) (hFresh : s.work.unrolling = { system := system })
    {i i' : Image SymbolicState}
    (hRun : (searchSymbolic env (symbolic env true) maxDepth).run s = some (.ok i t))
    (hRun' : (searchSymbolic env (symbolic env false) maxDepth).run s = some (.ok i' t')) :
    SameFindings system i i' :=
  Exploration.agree_of_together (fun _ _ _ _ h => together_turn hSolver hSystem hStable h)
    (together_seedSymbolic hSolver.toTruthful hSystem hApart hWithin hStable hFresh) hRun hRun'

/-- **Simplification is harmless where effects do not hinder each other.** For every system read
from a description that declares its variables first and uses no name that looks hidden, in which no
label is both a constructor and an error label and each initial formula is about its own variable,
every reliable solver, every depth bound and whatever happens to the stop flag: let different
effects of a label share no variables but those with one value, or let each effect of a label be one
that can be met from any values. If the searches with and without simplification both return, then
they end in the same way, reach the same errors on the same ways, and cover the same values. -/
theorem searchSymbolic_simplify {text : String} (hParse : Description.parseSystem text = .ok system)
    (hFirst : Description.DeclaresFirst text)
    (hVisible : ∀ x ∈ system.declared, Renaming.isHidden x.name = false)
    (hApart : ∀ l ∈ system.labels, l.isConstructor = true → l.isError = false)
    (hWithin : ∀ entry ∈ system.initialValues, entry.2.Within [entry.1])
    (hLabels : (∃ single, system.Uncoupled single) ∨ system.Total) (hSolver : env.solver.Reliable)
    (hFresh : s.work.unrolling = { system := system }) {i i' : Image SymbolicState}
    (hRun : (searchSymbolic env (symbolic env true) maxDepth).run s = some (.ok i t))
    (hRun' : (searchSymbolic env (symbolic env false) maxDepth).run s = some (.ok i' t')) :
    i'.ending = i.ending ∧ i'.reachedErrors = i.reachedErrors ∧
    i'.counterexamples = i.counterexamples ∧
    ∀ ν, Covers system i'.reachable ν ↔ Covers system i.reachable ν := by
  have hSystem : system.Hygienic :=
    ⟨Description.wellScoped_of_declaresFirst hParse hFirst, hVisible⟩
  have hSame : SameFindings system i i' := by
    rcases hLabels with ⟨single, hUncoupled⟩ | hTotal
    · exact sameFindings_of_run hSolver hSystem hApart hWithin
        (hUncoupled.stable hSystem.toWellScoped hWithin) hFresh hRun hRun'
    · exact sameFindings_of_run hSolver hSystem hApart hWithin
        (hTotal.stable hSystem.toWellScoped) hFresh hRun hRun'
  exact ⟨hSame.ending, hSame.reachedErrors, hSame.counterexamples, hSame.covers⟩

/-! ## A valve -/

/-- A valve is armed once; then it can be opened or closed. -/
def valveText : String :=
  "VARIABLES:\ndeclare armed:bool, flow:bool\n\nTRANSITION arm:\nPRECONDITION:\n!armed\n" ++
    "EFFECT:\narmed: armed' == true\n\nTRANSITION turn:\nPARAMETER: declare p:bool\n" ++
    "PRECONDITION:\narmed\nEFFECT:\nflow: flow' == (p && armed)\n\n" ++
    "TRANSITION spill:\nPRECONDITION:\nflow\nEFFECT:\nERROR\n"

/-- Whether the valve can be opened. -/
def armed : Variable := ⟨"armed", .bool⟩

/-- Whether the valve is open. -/
def flow : Variable := ⟨"flow", .bool⟩

/-- How the valve is turned. -/
def turned : Variable := ⟨"p", .bool⟩

/-- The label that arms the valve. -/
def arm : Label where
  name := "arm"
  stateVariables := [armed, flow]
  preconditions := [.not (.var armed)]
  effects := [(armed, .logical .equiv (.var armed.primed) (.const (.bool true)))]

/-- The label that turns the valve. -/
def turnValve : Label where
  name := "turn"
  stateVariables := [armed, flow]
  parameters := [turned]
  preconditions := [.var armed]
  effects :=
    [(flow, .logical .equiv (.var flow.primed) (.logical .and (.var turned) (.var armed)))]

/-- The system of `valveText`. -/
def valveSystem : System where
  stateVariables := [armed, flow]
  labels := [arm, turnValve,
    { name := "spill", stateVariables := [armed, flow], preconditions := [.var flow],
      isError := true }]

/-- The effects of the valve share nothing but whether it is armed, which is certain at every
depth. -/
theorem uncoupled_valveSystem : valveSystem.Uncoupled [armed] := by
  have hShared : ∀ l ∈ [arm, turnValve], ∀ x ∈ l.stateVariables, ∀ z ∈ l.stateVariables, x ≠ z →
      ∀ y ∈ (l.effectOn x).freeVariables, y ∈ (l.effectOn z).freeVariables → y ∈ [armed] := by
    decide +kernel
  have hApart : ∀ l ∈ valveSystem.labels, l.isError = false → l ∈ [arm, turnValve] := by
    decide +kernel
  have hPrimed : ∀ before after : Environment,
      (across [armed, flow] before after).get armed.primed = after.get armed :=
    fun _ _ => get_across_primed List.mem_cons_self
  have hNone : valveSystem.constructors = [] := by decide +kernel
  refine ⟨by decide, nofun, by simp [hNone], fun l hl _ hnoError => ⟨?_, ?_⟩⟩
  · intro x hx z hz hne y hy hy'
    exact hShared l (hApart l hl hnoError) x hx z hz hne y (Expr.mem_freeVariables.mpr hy)
      (Expr.mem_freeVariables.mpr hy')
  · intro x hx before before' after after' hSame hEffect hEffect'
    obtain rfl := List.mem_singleton.mp hx
    rcases List.mem_cons.mp (hApart l hl hnoError) with rfl | hl
    · -- arming leaves one value
      have hValue := Expr.get_eq_of_holds_equal_const (x := armed.primed) hEffect hEffect'
      exact (hPrimed before after).symm.trans (hValue.trans (hPrimed before' after'))
    · -- turning keeps the value
      obtain rfl := List.mem_singleton.mp hl
      have hBefore : ∀ before after : Environment,
          (across [armed, flow] before after).get armed = before.get armed :=
        fun _ _ => get_across_of_ne (by decide)
      have hRead : (turnValve.effectOn armed).Free armed :=
        Expr.mem_freeVariables.mp (by decide +kernel)
      calc
        after.get armed = before.get armed := by
          rw [← hPrimed before after, ← hBefore before after]
          exact (Label.holds_effectOn_of_none rfl).mp hEffect
        _ = before'.get armed := hSame armed List.mem_cons_self hRead
        _ = after'.get armed := by
          rw [← hPrimed before' after', ← hBefore before' after']
          exact ((Label.holds_effectOn_of_none rfl).mp hEffect').symm

end Meaning

open scoped Reals

/-- Simplification replaces formulas of the valve, and both searches find the same. -/
theorem searchSymbolic_simplify_valve :
    ∃ (i i' : Image SymbolicState) (t t' : Session Unit (Work SymbolicState)),
      (searchSymbolic { solver := .searching } (symbolic { solver := .searching } true) none).run
        { memory := (), work := { unrolling := { system := valveSystem } } } = some (.ok i t) ∧
      (searchSymbolic { solver := .searching } (symbolic { solver := .searching } false) none).run
        { memory := (), work := { unrolling := { system := valveSystem } } } = some (.ok i' t') ∧
      i'.reachable.states ≠ i.reachable.states ∧ i'.ending = .fixpoint 2 ∧
      i'.reachedErrors = ["spill"] ∧
      ∀ ν, Covers valveSystem i'.reachable ν ↔ Covers valveSystem i.reachable ν := by
  -- what a simplified formula for the armed valve can be
  let certain : List (Option Expr) :=
    [some (.equal (.var armed) (.const (.bool false))),
      some (.equal (.var armed) (.const (.bool true)))]
  have hCheck : Exploration.returns 5
      (searchSymbolic { solver := .searching } (symbolic { solver := .searching } true) none)
      { memory := (), work := { unrolling := { system := valveSystem } } }
      (fun i _ => (∀ q ∈ i.reachable.states, q.get? armed ∈ certain) ∧ i.ending = .fixpoint 2 ∧
        i.reachedErrors = ["spill"]) = true := by
    decide +kernel
  have hCheck' : Exploration.returns 5
      (searchSymbolic { solver := .searching } (symbolic { solver := .searching } false) none)
      { memory := (), work := { unrolling := { system := valveSystem } } }
      (fun i _ => ¬∀ q ∈ i.reachable.states, q.get? armed ∈ certain) = true := by
    decide +kernel
  obtain ⟨i, t, hRun, hFound⟩ := Exploration.exists_of_returns hCheck
  obtain ⟨i', t', hRun', hFound'⟩ := Exploration.exists_of_returns hCheck'
  obtain ⟨hCertain, hFixpoint, hErrors⟩ := of_decide_eq_true hFound
  have hParse : Description.parseSystem valveText = .ok valveSystem := by decide +kernel
  have hFirst : Description.DeclaresFirst valveText := by decide +kernel
  obtain ⟨hEnding, hSame, -, hCovers⟩ := searchSymbolic_simplify hParse hFirst (by decide +kernel)
    (by decide +kernel) nofun
    (.inl ⟨_, uncoupled_valveSystem⟩) Solver.searching_reliable rfl hRun hRun'
  refine ⟨i, i', t, t', hRun, hRun', fun heq => ?_, hEnding.trans hFixpoint, hSame.trans hErrors,
    hCovers⟩
  refine of_decide_eq_true hFound' ?_
  rw [heq]
  exact hCertain

/-! ## A shared parameter -/

/-- Two variables are set by one parameter, and the effect on the first one restricts it. -/
def sharedText : String :=
  "VARIABLES:\ndeclare x:bool, y:bool\n\nTRANSITION set:\nPARAMETER: declare p:bool\nEFFECT:\n" ++
    "x: x' && p\ny: y' == p\n\nTRANSITION bad:\nPRECONDITION:\nx\n!y\nEFFECT:\nERROR\n"

/-- The system of `sharedText`. -/
def sharedSystem : System :=
  let x : Variable := ⟨"x", .bool⟩
  let y : Variable := ⟨"y", .bool⟩
  { stateVariables := [x, y]
    labels := [
      { name := "set", stateVariables := [x, y], parameters := [turned]
        effects := [(x, .logical .and (.var x.primed) (.var turned)),
          (y, .logical .equiv (.var y.primed) (.var turned))] },
      { name := "bad", stateVariables := [x, y], preconditions := [.var x, .not (.var y)]
        isError := true }] }

/-- Where effects share a parameter and one of them restricts it, simplification drops the
restriction: the search with it reaches an error that the search without it does not. -/
theorem simplification_finds_more :
    Description.parseSystem sharedText = .ok sharedSystem ∧
    Description.DeclaresFirst sharedText ∧
    (∀ x ∈ sharedSystem.declared, Renaming.isHidden x.name = false) ∧
    ∃ (i i' : Image SymbolicState) (t t' : Session Unit (Work SymbolicState)),
      (searchSymbolic { solver := .searching } (symbolic { solver := .searching } true) none).run
        { memory := (), work := { unrolling := { system := sharedSystem } } } = some (.ok i t) ∧
      (searchSymbolic { solver := .searching } (symbolic { solver := .searching } false) none).run
        { memory := (), work := { unrolling := { system := sharedSystem } } } = some (.ok i' t') ∧
      i.ending = .fixpoint 1 ∧ i'.ending = .fixpoint 1 ∧
      i.reachedErrors = ["bad"] ∧ i'.reachedErrors = [] := by
  refine ⟨by decide +kernel, by decide +kernel, by decide +kernel, ?_⟩
  have hCheck : Exploration.returns 5
      (searchSymbolic { solver := .searching } (symbolic { solver := .searching } true) none)
      { memory := (), work := { unrolling := { system := sharedSystem } } }
      (fun i _ => i.ending = .fixpoint 1 ∧ i.reachedErrors = ["bad"]) = true := by
    decide +kernel
  have hCheck' : Exploration.returns 5
      (searchSymbolic { solver := .searching } (symbolic { solver := .searching } false) none)
      { memory := (), work := { unrolling := { system := sharedSystem } } }
      (fun i _ => i.ending = .fixpoint 1 ∧ i.reachedErrors = []) = true := by
    decide +kernel
  obtain ⟨i, t, hRun, hFound⟩ := Exploration.exists_of_returns hCheck
  obtain ⟨i', t', hRun', hFound'⟩ := Exploration.exists_of_returns hCheck'
  obtain ⟨hEnding, hErrors⟩ := of_decide_eq_true hFound
  obtain ⟨hEnding', hErrors'⟩ := of_decide_eq_true hFound'
  exact ⟨i, i', t, t', hRun, hRun', hEnding, hEnding', hErrors, hErrors'⟩

end StateSpace.Search
