import StateSpace.Proofs.Exploration.Outcome
import StateSpace.Proofs.Search.Synchronised
import StateSpace.Proofs.Search.Termination

/-!
# Errors are reported at the first possible depth

At each depth a search tests its error labels on everything reached, in the order of generated
names, and it never tests a label again that was reached. Still, a label is recorded from a state
that the depth before has found. A depth that was not interrupted has tested the label on everything
that was reached until then, and a solver whose answers depend on the question alone does not change
its mind. So whatever is enabled must be new (`Deepens.chronicle`).

The history of a state grows by one label with each depth (`Lineage`), so the way to an error is as
much longer than the history of an initial state as the depth says
(`errors_recorded_at_first_depth`).
-/

namespace StateSpace

/-- A solver whose answers depend on the question alone answers what it has answered before. -/
theorem Solver.Consistent.answer_eq {σ : Type} {solver : Solver σ} (h : solver.Consistent)
    {e : Expr} {verdict : Verdict} (hAnswer : solver.Answers e verdict) (memory : σ) :
    (solver.decide e memory).1 = verdict := by
  obtain ⟨memory', hAnswer⟩ := hAnswer
  rw [h e memory memory', hAnswer]

namespace Search

open Explore

variable {σ S : Type} {env : Surroundings σ} {system : System} {strategy : Strategy σ S} {l : Label}
  {J : String → Nat → List String → Prop} {w : Work S} {s t : Session σ (Work S)}

/-! ## What is recorded about errors -/

/-- What an image knows about errors: each label reached is listed once and has one way to it, and
it is named by one message, at the depth at which it was recorded. Label, depth and way are as `J`
demands. -/
structure Recorded (J : String → Nat → List String → Prop) (i : Image S) : Prop where
  nodup : i.reachedErrors.Nodup
  mem_iff : ∀ label : String, label ∈ i.counterexamples ↔ label ∈ i.reachedErrors
  depths : ∃ depthOf : String → Nat,
    (∀ d, i.errorsAtDepth.getD d [] = (i.reachedErrors.filter fun label => depthOf label = d).map
      fun label => s!"{label} reached at depth {d}") ∧
    ∀ (label : String) way, i.counterexamples[label]? = some way → J label (depthOf label) way

theorem recorded_ofInitial (initial : List S) : Recorded J (Image.ofInitial initial) where
  nodup := List.nodup_nil
  mem_iff label := by simp [Image.ofInitial]
  depths := ⟨fun _ => 0, by simp [Image.ofInitial], by simp [Image.ofInitial]⟩

/-- Recording a label for the first time lists it, and changes neither the frontier nor the
depth. -/
theorem recordError_of_notMem {i : Image S} {label : String} (h : label ∉ i.reachedErrors)
    (way : List String) :
    (i.recordError label way).reachedErrors = i.reachedErrors ++ [label] ∧
      (i.recordError label way).frontier = i.frontier ∧
      (i.recordError label way).depth = i.depth := by
  have hReached : ¬i.isReached label = true := by simpa [Image.isReached] using h
  unfold Image.recordError
  rw [if_neg hReached]
  exact ⟨rfl, rfl, rfl⟩

/-- A label that is recorded for the first time gets its depth and its way. -/
theorem Recorded.recordError {i : Image S} (h : Recorded J i) {label : String} {way : List String}
    (hNew : label ∉ i.reachedErrors) (hJ : J label i.depth way) :
    Recorded J (i.recordError label way) := by
  have hReached : ¬i.isReached label = true := by simpa [Image.isReached] using hNew
  obtain ⟨depthOf, hMessages, hJustified⟩ := h.depths
  unfold Image.recordError
  rw [if_neg hReached]
  refine ⟨?_, fun label' => ?_, Function.update depthOf label i.depth, fun d => ?_,
    fun label' way' hWay => ?_⟩
  · refine List.nodup_append.mpr ⟨h.nodup, List.nodup_singleton label, fun a ha b hb => ?_⟩
    rw [List.mem_singleton.mp hb]
    exact ne_of_mem_of_not_mem ha hNew
  · show label' ∈ i.counterexamples.insert label way ↔ label' ∈ i.reachedErrors ++ [label]
    rw [Std.TreeMap.mem_insert, h.mem_iff, Std.LawfulEqCmp.compare_eq_iff_eq, List.mem_append,
      List.mem_singleton, or_comm, eq_comm]
  · -- the labels recorded before keep their depths
    have hOld : (i.reachedErrors.filter fun label' =>
          Function.update depthOf label i.depth label' = d) =
        i.reachedErrors.filter fun label' => depthOf label' = d :=
      List.filter_congr fun label' hMem => by
        rw [Function.update_of_ne (ne_of_mem_of_not_mem hMem hNew)]
    show (i.errorsAtDepth.insert i.depth _).getD d [] =
      ((i.reachedErrors ++ [label]).filter _).map _
    rw [Std.TreeMap.getD_insert, List.filter_append, List.map_append, hOld, ← hMessages]
    by_cases hd : i.depth = d
    · subst hd
      simp
    · simp [hd]
  · have hGet : (i.counterexamples.insert label way)[label']? = some way' := hWay
    rw [Std.TreeMap.getElem?_insert] at hGet
    split at hGet
    · next heq =>
      obtain rfl : label = label' := Std.LawfulEqCmp.compare_eq_iff_eq.mp heq
      cases hGet
      rw [Function.update_self]
      exact hJ
    · next hne =>
      have hOther : label' ≠ label := by
        rintro rfl
        exact hne (Std.LawfulEqCmp.compare_eq_iff_eq.mpr rfl)
      rw [Function.update_of_ne hOther]
      exact hJustified label' way' hGet

/-! ## Labels on states -/

section Labels

variable [RegionState S]

/-- Whatever it remembers, the solver finds the guard of a label satisfied by a state. -/
def Enabled (env : Surroundings σ) (l : Label) (q : S) : Prop :=
  ∀ memory, (env.solver.decide (l.guardOn (RegionState.toExpr q)) memory).1 = .sat

/-- Whatever it remembers, the solver finds the guard of a label not satisfied by a state. -/
def Disabled (env : Surroundings σ) (l : Label) (q : S) : Prop :=
  ∀ memory, (env.solver.decide (l.guardOn (RegionState.toExpr q)) memory).1 = .unsat

theorem Enabled.not_disabled {q : S} (h : Enabled env l q) (memory : σ) : ¬Disabled env l q := by
  intro h'
  have hBoth := (h memory).symm.trans (h' memory)
  cases hBoth

/-- The labels that a search tests. -/
def Tested (system : System) (l : Label) : Prop :=
  l ∈ system.labels ∧ l.isError = true ∧ l.isConstructor = false

/-- A state has the history of a state of a region, and then of a label that is enabled there. -/
def Ensues (env : Surroundings σ) (system : System) (r : Region S) (p : S) : Prop :=
  ∃ q ∈ r.states, ∃ l ∈ system.labels,
    l.isError = false ∧ l.isConstructor = false ∧ Enabled env l q ∧
    RegionState.history p = RegionState.history q ++ [l.name]

/-- What is asked of a strategy: firing a label enters only states that the label may lead to from
the frontier, errors are tested on everything reached, the difference invents nothing, and the
search goes on until it is stopped. -/
structure Strategy.Plain (env : Surroundings σ) (strategy : Strategy σ S) : Prop where
  expand : ∀ (l : Label) {s : Session σ (Work S)} (Inv : Work S → Prop),
    (∀ w issued p, Inv w → (∃ q ∈ s.work.image.frontier.states,
      env.solver.Answers (l.guardOn (RegionState.toExpr q)) .sat ∧
      RegionState.history p = RegionState.history q ++ [l.name]) →
      Inv { w with issued, image := w.image.addPending p }) →
    Inv s.work → Ensures s (strategy.expand l) (fun _ t => Inv t.work) fun _ => True
  testError : strategy.testError = testReachable env
  history : ∀ q, RegionState.history (strategy.toCurrent q) = RegionState.history q
  difference : ∀ (r reached : Region S) (xs : List Variable) {s : Session σ (Work S)},
    Ensures s (strategy.difference r reached xs) (fun added t => t.work = s.work ∧
      ∀ (name : String) q, added[name]? = some q → r[name]? = some q) fun _ => True
  goesOn : strategy.goesOn = pure true

/-- What ensues does so as a state about current values. -/
theorem Strategy.Plain.ensues_toCurrent (hStrategy : strategy.Plain env) {r : Region S} {p : S}
    (h : Ensues env system r p) : Ensues env system r (strategy.toCurrent p) := by
  obtain ⟨q, hq, l, hl, hnoError, hnoConstructor, hEnabled, hHistory⟩ := h
  exact ⟨q, hq, l, hl, hnoError, hnoConstructor, hEnabled, (hStrategy.history p).trans hHistory⟩

end Labels

/-- Symbolic search records errors and successors as it finds them. -/
theorem plain_symbolic (env : Surroundings σ) (simplify : Bool) :
    (symbolic env simplify).Plain env where
  expand l {s} Inv hAdd hs := by
    refine ensures_image_bind (Ensures.forM (fun t => Inv t.work) (fun q hq t ht => ?_) hs)
    refine (ensures_expandSymbolic_cases (fun fs => ensures_simplifyFormulas_keys fs) (fun _ => rfl)
      simplify).mono (fun _ r hCases => ?_) fun _ h => h
    rcases hCases with ⟨-, hr⟩ | ⟨hAnswer, fs, -, hr⟩
    · rwa [hr]
    · rw [hr]
      exact hAdd _ _ _ ht ⟨q, hq, hAnswer, rfl⟩
  testError := rfl
  history _ := rfl
  difference r reached xs {s} := by
    refine (Region.ensures_difference env r reached xs).mono ?_ fun _ h => h
    exact fun added t ⟨ht, hFrom, _⟩ => ⟨ht, fun name q hq => (hFrom name q hq).1⟩
  goesOn := rfl

/-- So does enumerative search. -/
theorem plain_enumerative (env : Surroundings σ) : (enumerative env).Plain env where
  expand l {s} Inv hAdd hs := by
    refine ensures_image_bind (Ensures.forM (fun t => Inv t.work) (fun q hq t ht => ?_) hs)
    refine ensures_expandConcrete_cases.mono (fun _ r hCases => ?_) fun _ h => h
    rcases hCases with hr | ⟨hAnswer, memory, -, hr⟩
    · rwa [hr]
    · rw [hr]
      exact hAdd _ _ _ ht ⟨q, hq, hAnswer, rfl⟩
  testError := rfl
  history _ := rfl
  difference r reached xs {s} := ⟨rfl, fun name q hq => (Region.getElem?_newValues hq).1⟩
  goesOn := rfl

/-! ## One depth -/

section Depth

variable [RegionState S] {i : Image S}

/-- In the middle of the depth after an image: what was reached and the frontier are as before, what
is pending ensues from the frontier, and only errors have been recorded. -/
structure Midway (env : Surroundings σ) (system : System) (J : String → Nat → List String → Prop)
    (i : Image S) (w : Work S) : Prop extends
    Sprouting (Ensues env system i.frontier) system i.names i.reachable w where
  frontier_eq : w.image.frontier = i.frontier
  depth_eq : w.image.depth = i.depth + 1
  kept : i.reachedErrors ⊆ w.image.reachedErrors
  recorded : Recorded J w.image

theorem Midway.addPending (h : Midway env system J i w) (issued : Nat) {p : S}
    (hp : Ensues env system i.frontier p) :
    Midway env system J i { w with issued, image := w.image.addPending p } where
  toSprouting := h.toSprouting.addPending issued hp
  frontier_eq := h.frontier_eq
  depth_eq := h.depth_eq
  kept := h.kept
  recorded := ⟨h.recorded.nodup, h.recorded.mem_iff, h.recorded.depths⟩

theorem Midway.recordError (h : Midway env system J i w) {label : String} {way : List String}
    (hNew : label ∉ w.image.reachedErrors) (hJ : J label (i.depth + 1) way) :
    Midway env system J i { w with image := w.image.recordError label way } := by
  obtain ⟨hErrors, hFrontier, hDepth⟩ := recordError_of_notMem hNew way
  refine ⟨h.toSprouting.recordError label way, hFrontier.trans h.frontier_eq,
    hDepth.trans h.depth_eq, ?_, h.recorded.recordError hNew (h.depth_eq ▸ hJ)⟩
  show i.reachedErrors ⊆ (w.image.recordError label way).reachedErrors
  rw [hErrors]
  exact List.subset_append_of_subset_left _ h.kept

/-- The labels of a depth have been fired, and all error labels tested unless it is interrupted. -/
structure AllTested (env : Surroundings σ) (system : System) (J : String → Nat → List String → Prop)
    (i : Image S) (interrupted : Bool) (w : Work S) : Prop where
  midway : Midway env system J i w
  tested : interrupted = false → ∀ l, Tested system l → l.name ∉ w.image.reachedErrors →
    ∀ q ∈ i.reachable.states, Disabled env l q

variable (hStrategy : strategy.Plain env) (hConsistent : env.solver.Consistent)

include hConsistent

/-- A test finds an error label disabled everywhere, or the label is reached afterwards. -/
theorem ensures_testReachable_midway
    (hJ : l.name ∉ i.reachedErrors → ∀ q ∈ i.reachable.states, Enabled env l q →
      J l.name (i.depth + 1) (RegionState.history q ++ [l.name]))
    (hs : Midway env system J i s.work) :
    Ensures s (testReachable env l)
      (fun _ t => Midway env system J i t.work ∧
        s.work.image.reachedErrors ⊆ t.work.image.reachedErrors ∧
        (l.name ∉ t.work.image.reachedErrors → ∀ q ∈ i.reachable.states, Disabled env l q))
      (fun _ => True) := by
  refine ensures_testReachable_cases.mono (fun _ t hCases => ?_) fun _ h => h
  rw [hs.reachable] at hCases
  rcases hCases with ⟨ht, hNone⟩ | ⟨hNew, q, hq, hAnswer, ht⟩
  · rw [ht]
    refine ⟨hs, List.Subset.refl _, fun hNot q hq => ?_⟩
    exact hConsistent.answer_eq (hNone.resolve_left hNot q hq)
  · rw [ht]
    have hErrors := (recordError_of_notMem hNew (RegionState.history q ++ [l.name])).1
    have hEnabled : Enabled env l q := hConsistent.answer_eq hAnswer
    refine ⟨hs.recordError hNew (hJ (fun h => hNew (hs.kept h)) q hq hEnabled), ?_, fun hNot => ?_⟩
    · show _ ⊆ (s.work.image.recordError _ _).reachedErrors
      rw [hErrors]
      exact List.subset_append_left _ _
    · refine absurd ?_ hNot
      show l.name ∈ (s.work.image.recordError _ _).reachedErrors
      rw [hErrors]
      exact List.mem_append_right _ (List.mem_singleton.mpr rfl)

include hStrategy

/-- Firing a label keeps to the middle of the depth. -/
theorem ensures_expand_midway (hl : l ∈ system.labels) (hnoError : l.isError = false)
    (hnoConstructor : l.isConstructor = false) (hs : Midway env system J i s.work) :
    Ensures s (strategy.expand l)
      (fun _ t => Midway env system J i t.work ∧
        s.work.image.reachedErrors ⊆ t.work.image.reachedErrors) (fun _ => True) := by
  refine hStrategy.expand l (fun w => Midway env system J i w ∧
    s.work.image.reachedErrors ⊆ w.image.reachedErrors) ?_ ⟨hs, List.Subset.refl _⟩
  rintro w issued p ⟨hw, hKept⟩ ⟨q, hq, hAnswer, hHistory⟩
  rw [hs.frontier_eq] at hq
  have hEnsues : Ensues env system i.frontier p :=
    ⟨q, hq, l, hl, hnoError, hnoConstructor, hConsistent.answer_eq hAnswer, hHistory⟩
  exact ⟨hw.addPending issued hEnsues, hKept⟩

/-- Firing labels tests each error label among them, unless it is interrupted. -/
theorem ensures_fireLabels_midway
    (hJ : ∀ l, Tested system l → l.name ∉ i.reachedErrors → ∀ q ∈ i.reachable.states,
      Enabled env l q → J l.name (i.depth + 1) (RegionState.history q ++ [l.name]))
    (hs : Midway env system J i s.work) :
    Ensures s (fireLabels strategy system.labels)
      (fun interrupted t => Midway env system J i t.work ∧
        (interrupted = false → ∀ l, Tested system l →
          l.name ∉ t.work.image.reachedErrors → ∀ q ∈ i.reachable.states, Disabled env l q))
      (fun _ => True) := by
  refine (ensures_fireLabels (fun t => Midway env system J i t.work)
    (fun l t => l.isError = true → l.name ∉ t.work.image.reachedErrors →
      ∀ q ∈ i.reachable.states, Disabled env l q) ?_ hs).mono
    (fun interrupted t ⟨ht, _, hAll⟩ => ⟨ht, fun hDone l hl => hAll hDone l hl.1 hl.2.2 hl.2.1⟩)
    fun _ h => h
  intro l hl hnoConstructor t ht
  split
  · next hError =>
    rw [hStrategy.testError]
    refine (ensures_testReachable_midway hConsistent (hJ l ⟨hl, hError, hnoConstructor⟩) ht).mono
      (fun _ r ⟨hr, hKept, hDisabled⟩ => ⟨hr, fun _ => hDisabled, ?_⟩) fun _ h => h
    exact fun l' hl' hError' hNot => hl' hError' fun h => hNot (hKept h)
  · next hError =>
    have hnoError : l.isError = false := by simpa using hError
    refine (ensures_expand_midway hStrategy hConsistent hl hnoError hnoConstructor ht).mono
      (fun _ r ⟨hr, hKept⟩ => ⟨hr, fun h => absurd h hError, ?_⟩) fun _ h => h
    exact fun l' hl' hError' hNot => hl' hError' fun h => hNot (hKept h)

/-- What a depth does to an image, besides recording errors. -/
structure Deepened (env : Surroundings σ) (system : System) (J : String → Nat → List String → Prop)
    (i : Image S) (interrupted : Bool) (i' : Image S) : Prop where
  depth_eq : i'.depth = i.depth + 1
  mem_reachable : ∀ q, q ∈ i'.reachable.states ↔ q ∈ i.reachable.states ∨ q ∈ i'.frontier.states
  frontier : ∀ q ∈ i'.frontier.states, Ensues env system i.frontier q
  tested : interrupted = false → ∀ l, Tested system l → l.name ∉ i'.reachedErrors →
    ∀ q ∈ i.reachable.states, Disabled env l q
  recorded : Recorded J i'

/-- One depth of the search. -/
theorem ensures_deepen_deepened
    (hJ : ∀ l, Tested system l → l.name ∉ s.work.image.reachedErrors →
      ∀ q ∈ s.work.image.reachable.states, Enabled env l q →
        J l.name (s.work.image.depth + 1) (RegionState.history q ++ [l.name]))
    (hs : Resting system s.work) (hRecorded : Recorded J s.work.image) :
    Ensures s (deepen env strategy)
      (fun interrupted t => Resting system t.work ∧
        Deepened env system J s.work.image interrupted t.work.image) (fun _ => True) := by
  have hFire : ∀ r, r.work = deeper s.work →
      Ensures r (fireLabels strategy s.work.unrolling.system.labels)
        (fun interrupted t => AllTested env system J s.work.image interrupted t.work)
        (fun _ => True) := by
    intro r hr
    rw [hs.system_eq]
    refine (ensures_fireLabels_midway hStrategy hConsistent hJ ?_).mono
      (fun _ _ ⟨ht, hTested⟩ => ⟨ht, hTested⟩) fun _ h => h
    rw [hr]
    exact ⟨hs.sprouting, rfl, rfl, List.Subset.refl _, hRecorded.nodup, hRecorded.mem_iff,
      hRecorded.depths⟩
  refine (ensures_deepen (AllTested env system J s.work.image)
    (fun w added => ∀ (name : String) q, added[name]? = some q →
      (successors strategy w.image)[name]? = some q) hFire
    fun w t => hStrategy.difference _ _ _).mono
    (fun interrupted t ⟨w, added, ⟨hw, hTested⟩, hAdded, ht⟩ => ?_) fun _ h => h
  rw [ht]
  refine ⟨hs.advance hw.toSprouting hAdded, hw.depth_eq, fun q => ?_, fun q hq => ?_, hTested,
    hw.recorded.nodup, hw.recorded.mem_iff, hw.recorded.depths⟩
  · exact (hs.mem_states_advance hw.toSprouting hAdded).trans or_comm
  · obtain ⟨name, hName⟩ := Region.mem_states.mp hq
    obtain ⟨-, p, hp, rfl⟩ := hw.toSprouting.of_added hAdded hName
    exact hStrategy.ensues_toCurrent hp

end Depth

/-! ## Depth after depth -/

/-- A state is found at a depth if that depth leaves it in the frontier. -/
def FoundAt (env : Surroundings σ) (strategy : Strategy σ S) (s : Session σ (Work S)) (k : Nat)
    (q : S) : Prop :=
  ∃ interrupted t, Deepens env strategy s k interrupted t ∧ q ∈ t.work.image.frontier.states

/-- What is found at a depth is the frontier after it. -/
theorem Deepens.foundAt_iff {k : Nat} {interrupted : Bool}
    (h : Deepens env strategy s k interrupted t)
    (q : S) : FoundAt env strategy s k q ↔ q ∈ t.work.image.frontier.states := by
  constructor
  · rintro ⟨interrupted', t', h', hq⟩
    obtain ⟨-, rfl⟩ := h.unique h'
    exact hq
  · exact fun hq => ⟨interrupted, t, h, hq⟩

/-! ## Where a state comes from -/

section Chronicle

variable [RegionState S]

/-- How a state that is found at a depth comes from an initial one: each depth fires a label that is
enabled on the state of the depth before, and appends it to the history. -/
inductive Lineage (env : Surroundings σ) (strategy : Strategy σ S) (s : Session σ (Work S))
    (init : S) : Nat → S → Prop
  | initial (h : FoundAt env strategy s 0 init) : Lineage env strategy s init 0 init
  | fired {k : Nat} {p q : S} {l : Label} (h : Lineage env strategy s init k p)
      (hFound : FoundAt env strategy s (k + 1) q) (hl : l ∈ s.work.unrolling.system.labels)
      (hnoError : l.isError = false) (hnoConstructor : l.isConstructor = false)
      (hEnabled : Enabled env l p)
      (hHistory : RegionState.history q = RegionState.history p ++ [l.name]) :
      Lineage env strategy s init (k + 1) q

/-- A state has one label more in its history for each depth. -/
theorem Lineage.length_history {init q : S} {k : Nat} (h : Lineage env strategy s init k q) :
    (RegionState.history q).length = (RegionState.history init).length + k := by
  induction h with
  | initial => rfl
  | fired _ _ _ _ _ _ hHistory ih =>
    rw [hHistory, List.length_append, ih, List.length_singleton]
    omega

/-- An error label is reached at a depth, and at no depth before: it is disabled on all states that
were found earlier than the depth before, and the way to it is the history of a state that the depth
before has found, on which it is enabled, and then the label itself. -/
structure FirstReached (env : Surroundings σ) (strategy : Strategy σ S) (s : Session σ (Work S))
    (label : String) (depth : Nat) (way : List String) : Prop where
  earlier : ∀ k q l, k + 1 < depth → FoundAt env strategy s k q → Tested s.work.unrolling.system l →
    l.name = label → Disabled env l q
  reached : ∃ k init q l, depth = k + 1 ∧ FoundAt env strategy s k q ∧
    Lineage env strategy s init k q ∧ Tested s.work.unrolling.system l ∧ l.name = label ∧
    Enabled env l q ∧ way = RegionState.history q ++ [label] ∧
    way.length = (RegionState.history init).length + depth

/-- What is known after some depths. -/
structure Chronicle (env : Surroundings σ) (strategy : Strategy σ S) (s : Session σ (Work S))
    (k : Nat) (interrupted : Bool) (t : Session σ (Work S)) : Prop where
  resting : Resting s.work.unrolling.system t.work
  depth_eq : t.work.image.depth = k
  mem_reachable : ∀ q, q ∈ t.work.image.reachable.states ↔ ∃ j ≤ k, FoundAt env strategy s j q
  lineage : ∀ q ∈ t.work.image.frontier.states, ∃ init, Lineage env strategy s init k q
  tested : interrupted = false → ∀ l, Tested s.work.unrolling.system l →
    l.name ∉ t.work.image.reachedErrors → ∀ j < k, ∀ q,
      FoundAt env strategy s j q → Disabled env l q
  recorded : Recorded (FirstReached env strategy s) t.work.image

/-- Whatever is enabled on something reached, though it was not recorded before, is enabled on the
frontier. -/
theorem Chronicle.firstReached {k : Nat} (h : Chronicle env strategy s k false t)
    (hRun : Deepens env strategy s k false t) (hl : Tested s.work.unrolling.system l)
    (hNew : l.name ∉ t.work.image.reachedErrors) {q : S} (hq : q ∈ t.work.image.reachable.states)
    (hEnabled : Enabled env l q) :
    FirstReached env strategy s l.name (k + 1) (RegionState.history q ++ [l.name]) := by
  obtain ⟨j, hj, hFound⟩ := (h.mem_reachable q).mp hq
  obtain rfl : j = k := by
    by_contra hne
    exact hEnabled.not_disabled s.memory (h.tested rfl l hl hNew j (by omega) q hFound)
  obtain ⟨init, hLineage⟩ := h.lineage q ((hRun.foundAt_iff q).mp hFound)
  refine ⟨fun k' q' l' hk hFound' hl' hName => ?_, j, init, q, l, rfl, hFound, hLineage, hl, rfl,
    hEnabled, rfl, ?_⟩
  · exact h.tested rfl l' hl' (hName ▸ hNew) k' (by omega) q' hFound'
  · rw [List.length_append, hLineage.length_history, List.length_singleton]
    omega

/-- The chronicle of a search from initial states, depth after depth. -/
theorem Deepens.chronicle (hStrategy : strategy.Plain env) (hConsistent : env.solver.Consistent)
    {initial : List S} (hImage : s.work.image = .ofInitial initial) {k : Nat} {interrupted : Bool}
    (h : Deepens env strategy s k interrupted t) : Chronicle env strategy s k interrupted t := by
  induction h with
  | start =>
    have hFound : ∀ q, FoundAt env strategy s 0 q ↔ q ∈ s.work.image.frontier.states :=
      Deepens.start.foundAt_iff
    refine ⟨resting_ofInitial rfl hImage, by rw [hImage]; rfl, fun q => ?_, fun q hq => ?_, ?_, ?_⟩
    · have hSame : s.work.image.reachable = s.work.image.frontier := by rw [hImage]; rfl
      rw [hSame, ← hFound]
      simp
    · exact ⟨q, .initial ((hFound q).mpr hq)⟩
    · exact fun _ _ _ _ j hj => absurd hj (Nat.not_lt_zero j)
    · rw [hImage]
      exact recorded_ofInitial initial
  | @deepen k r t interrupted h hRun ih =>
    obtain ⟨hResting, hDeepened⟩ :=
      (ensures_deepen_deepened (J := FirstReached env strategy s) hStrategy
      hConsistent (fun l hl hNew q hq hEnabled => by
        rw [ih.depth_eq]
        exact ih.firstReached h hl hNew hq hEnabled) ih.resting ih.recorded).of_eq_ok hRun
    have hFound : ∀ q, FoundAt env strategy s (k + 1) q ↔ q ∈ t.work.image.frontier.states :=
      (h.deepen hRun).foundAt_iff
    refine ⟨hResting, by rw [hDeepened.depth_eq, ih.depth_eq], fun q => ?_, fun q hq => ?_, ?_,
      hDeepened.recorded⟩
    · rw [hDeepened.mem_reachable, ih.mem_reachable, ← hFound]
      simp only [Nat.le_succ_iff, or_and_right, exists_or, exists_eq_left]
    · obtain ⟨p, hp, l, hl, hnoError, hnoConstructor, hEnabled, hHistory⟩ := hDeepened.frontier q hq
      obtain ⟨init, hLineage⟩ := ih.lineage p hp
      exact ⟨init, hLineage.fired ((hFound q).mpr hq) hl hnoError hnoConstructor hEnabled hHistory⟩
    · intro hDone l hl hNew j hj q hq
      exact hDeepened.tested hDone l hl hNew q
        ((ih.mem_reachable q).mpr ⟨j, Nat.lt_succ_iff.mp hj, hq⟩)

end Chronicle

/-! ## Searches -/

/-- The initial states are those found at depth zero, what is reached is what was found at some
depth, and each error is recorded once, at the first depth at which it is reached. -/
structure Timely [RegionState S] (env : Surroundings σ) (strategy : Strategy σ S) (initial : List S)
    (s : Session σ (Work S)) (i : Image S) : Prop where
  found_initial : ∀ q, FoundAt env strategy (begun initial s) 0 q ↔ q ∈ initial
  mem_reachable : ∀ q, q ∈ i.reachable.states ↔
    ∃ k ≤ i.depth, FoundAt env strategy (begun initial s) k q
  recorded : Recorded (FirstReached env strategy (begun initial s)) i

/-- A search records each error at the first depth at which it can. -/
theorem timely_of_run [RegionState S] (hStrategy : strategy.Plain env)
    (hConsistent : env.solver.Consistent) {maxDepth : Option Nat} {initial : List S} {i : Image S}
    (h : (breadthFirst env strategy maxDepth initial).run s = some (.ok i t)) :
    Timely env strategy initial s i := by
  have hGoesOn : ∀ s, Ensures s strategy.goesOn (fun _ t => t = s) fun _ => True := by
    rw [hStrategy.goesOn]
    exact fun s => .pure rfl
  obtain ⟨n, interrupted, r, ending, hDeepens, rfl, -⟩ := exists_deepens hGoesOn h
  have hChronicle := hDeepens.chronicle hStrategy hConsistent rfl
  refine ⟨fun q => ?_, fun q => ?_, hChronicle.recorded.nodup, hChronicle.recorded.mem_iff,
    hChronicle.recorded.depths⟩
  · rw [Deepens.start.foundAt_iff]
    exact mem_states_ofInitial
  · show q ∈ r.work.image.reachable.states ↔ ∃ k ≤ r.work.image.depth, _
    rw [hChronicle.depth_eq]
    exact hChronicle.mem_reachable q

/-- **Errors are recorded at the first possible depth, once.** For a solver whose answers depend on
the question alone, whenever a symbolic or an enumerative search returns an image: each error label
reached is listed once and has one way to it and one message, at some depth; the labels of its name
are disabled on all states found earlier than the depth before; and the way is the history of a
state found at the depth before, and then the label, so that it is as many labels longer than the
history of an initial state as the depth says. -/
theorem errors_recorded_at_first_depth (hConsistent : env.solver.Consistent)
    (maxDepth : Option Nat) :
    (∀ (simplify : Bool) (initial : List SymbolicState) (s t : Session σ (Work SymbolicState))
      (i : Image SymbolicState),
      (breadthFirst env (symbolic env simplify) maxDepth initial).run s = some (.ok i t) →
      Timely env (symbolic env simplify) initial s i) ∧
    (∀ (initial : List ConcreteState) (s t : Session σ (Work ConcreteState))
        (i : Image ConcreteState),
      (breadthFirst env (enumerative env) maxDepth initial).run s = some (.ok i t) →
      Timely env (enumerative env) initial s i) :=
  ⟨fun simplify _ _ _ _ => timely_of_run (plain_symbolic env simplify) hConsistent,
    fun _ _ _ _ => timely_of_run (plain_enumerative env) hConsistent⟩

open scoped Reals

/-- Both errors of a switch are recorded at the second depth. -/
theorem errors_recorded_at_first_depth_relay :
    let env : Surroundings Unit := { solver := .exhaustive }
    let s : Session Unit (Work SymbolicState) :=
      { memory := (), work := { unrolling := { system := relaySystem } } }
    env.solver.Consistent ∧ ∃ i t,
      (breadthFirst env (symbolic env true) none [relaySystem.defaultState 1]).run s =
        some (.ok i t) ∧ i.reachedErrors = ["overload", "drain"] ∧
      i.counterexamples[("drain" : String)]? = some ["set", "drain"] ∧
      Timely env (symbolic env true) [relaySystem.defaultState 1] s i := by
  intro env s
  have hConsistent : env.solver.Consistent := fun _ _ _ => rfl
  have hCheck : (breadthFirst env (symbolic env true) none [relaySystem.defaultState 1]).returns 4 s
      (fun i _ => i.reachedErrors = ["overload", "drain"] ∧
        i.counterexamples[("drain" : String)]? = some ["set", "drain"]) = true := by
    decide +kernel
  obtain ⟨i, t, hRun, hFound⟩ := Exploration.exists_of_returns hCheck
  obtain ⟨hReached, hWay⟩ := of_decide_eq_true hFound
  exact ⟨hConsistent, i, t, hRun, hReached, hWay,
    (errors_recorded_at_first_depth hConsistent none).1 true _ s t i hRun⟩

end Search

end StateSpace
