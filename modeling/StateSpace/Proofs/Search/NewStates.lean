import StateSpace.Proofs.Search.Events

/-!
# What is reported as new

Unrolling reports for each depth the number of its new states. A search reports the number of
successors that a depth has found, before it leaves out those that are known. So its number is that
of the states added to what is reached if it has found nothing known, and it is too large otherwise
(`new_states_counted`, `known_successor_reported`).
-/

namespace StateSpace.Search

open Explore

/-! ## New and known states -/

/-- How a strategy tells which of the states found at a depth are new and which are known, given
what was reached before and what is added. -/
structure Criterion (S : Type) where
  New : (reached : Region S) → S → Prop
  Known : (reached added : Region S) → S → Prop

/-- A symbolic state is known if the solver finds no values in it that are not covered. -/
def byCoverage {σ : Type} (env : Surroundings σ) (xs : List Variable) :
    Criterion SymbolicState where
  New reached q := env.solver.Answers (q.outside (reached.covered xs)) .sat
  Known reached _ q := env.solver.Answers (q.outside (reached.covered xs)) .unsat

/-- A concrete state is known if its values were reached before or are those of another state
added. -/
def byValues (_ : List Variable) : Criterion ConcreteState where
  New reached q := ∀ c ∈ reached.states, q.values ≠ c.values
  Known reached added q := ∃ c, (c ∈ reached.states ∨ c ∈ added.states) ∧ q.values = c.values

variable {σ S : Type} {env : Surroundings σ} {strategy : Strategy σ S} {system : System} {l : Label}
  {criterion : List Variable → Criterion S} {s r t : Session σ (Work S)}

/-- What becomes of the states found at a depth: those that are new are the next frontier and are
added to what is reached, and the others are known. So there are at least as many found as added,
and as many only if nothing found is left out. -/
structure Sifted (criterion : Criterion S) (found : Region S) (before after : Image S) : Prop where
  added : ∀ (name : String) q, after.frontier[name]? = some q →
    found[name]? = some q ∧ criterion.New before.reachable q
  left : ∀ (name : String) q, found[name]? = some q → after.frontier[name]? = some q ∨
    criterion.Known before.reachable after.frontier q
  reachable : ∀ (name : String) q, after.reachable[name]? = some q ↔
    before.reachable[name]? = some q ∨ after.frontier[name]? = some q
  size_eq : after.reachable.size = before.reachable.size + after.frontier.size
  size_le : after.frontier.size ≤ found.size
  size_eq_iff : after.frontier.size = found.size ↔
    ∀ name : String, name ∈ found → name ∈ after.frontier

/-- A strategy finds states under new names and sifts them. -/
structure Strategy.Sifts (criterion : List Variable → Criterion S) (strategy : Strategy σ S) :
    Prop where
  expand : ∀ (l : Label) {system : System} {base : Nat} {reached : Region S}
    {s : Session σ (Work S)},
    Sprouting (fun _ => True) system base reached s.work → Ensures s (strategy.expand l)
      (fun _ t => Sprouting (fun _ => True) system base reached t.work) fun _ => True
  testError : ∀ (l : Label) {system : System} {base : Nat} {reached : Region S}
    {s : Session σ (Work S)},
    Sprouting (fun _ => True) system base reached s.work → Ensures s (strategy.testError l)
      (fun _ t => Sprouting (fun _ => True) system base reached t.work) fun _ => True
  difference : ∀ (r reached : Region S) (xs : List Variable) (s : Session σ (Work S)),
    Ensures s (strategy.difference r reached xs) (fun added t => t.work = s.work ∧
      (∀ (name : String) q,
        added[name]? = some q → r[name]? = some q ∧ (criterion xs).New reached q) ∧
      ∀ (name : String) q, r[name]? = some q → added[name]? = some q ∨
        (criterion xs).Known reached added q) fun _ => True

/-! ## Strategies -/

theorem Strategy.Plain.expand_sprouting [RegionState S] (h : strategy.Plain env) (l : Label)
    {base : Nat} {reached : Region S} (hs : Sprouting (fun _ => True) system base reached s.work) :
    Ensures s (strategy.expand l) (fun _ t => Sprouting (fun _ => True) system base reached t.work)
      fun _ => True :=
  h.expand l (Sprouting (fun _ => True) system base reached)
    (fun _ issued _ hw _ => hw.addPending issued trivial) hs

theorem sifts_symbolic (env : Surroundings σ) (simplify : Bool) :
    (symbolic env simplify).Sifts (byCoverage env) where
  expand l _ _ _ _ hs := (plain_symbolic env simplify).expand_sprouting l hs
  testError _ _ _ _ _ hs := ensures_testReachable_keeps (fun _ _ _ => hs.recordError _ _) hs
  difference r reached xs _ := Region.ensures_difference env r reached xs

theorem sifts_synchronised (env : Surroundings σ) (owner : FlagOwner) :
    (synchronised env owner).Sifts (byCoverage env) where
  expand := (sifts_symbolic env true).expand
  testError _ _ _ _ _ hs := ensures_testFrontier_keeps owner hs.halt
    (fun _ _ _ _ hw => hw.recordError _ _) hs
  difference := (sifts_symbolic env true).difference

theorem sifts_enumerative (env : Surroundings σ) : (enumerative env).Sifts byValues where
  expand l _ _ _ _ hs := (plain_enumerative env).expand_sprouting l hs
  testError _ _ _ _ _ hs := ensures_testReachable_keeps (fun _ _ _ => hs.recordError _ _) hs
  difference _ _ _ _ :=
    ⟨rfl, fun _ _ hq => Region.getElem?_newValues hq, fun _ _ hq => Region.getElem?_newValues_or hq⟩

/-! ## Depth by depth -/

section Depths

variable (hStrategy : strategy.Sifts criterion)

include hStrategy

/-- The body of a depth gives new names to what it finds. -/
theorem ensures_fireDepth_sprouting (hs : Resting system s.work) :
    Ensures s (fireDepth env strategy) (fun _ t =>
      Sprouting (fun _ => True) system s.work.image.names
      s.work.image.reachable t.work) fun _ => True := by
  refine ensures_fireDepth fun r hr =>
    ensures_fireLabels_keeps (fun t => Sprouting (fun _ => True) system
    s.work.image.names s.work.image.reachable t.work) (fun l _ _ _ _ ht => hStrategy.expand l ht)
    (fun l _ _ _ _ ht => hStrategy.testError l ht) ?_
  rw [hr]
  exact hs.sprouting

/-- A depth sifts what it has found. -/
theorem sifted_deepen (hs : Resting system s.work) {interrupted : Bool}
    (h : deepen env strategy s = .ok interrupted t) :
    Resting system t.work ∧
      Sifted (criterion system.stateVariables) (found env strategy s) s.work.image
      t.work.image := by
  obtain ⟨r, hFire, hClose⟩ := deepen_cases h
  have hr := (ensures_fireDepth_sprouting hStrategy hs).of_eq_ok hFire
  obtain ⟨added, ⟨hNew, hLeft⟩, ht⟩ :=
    (ensures_closeDepth (fun p => hStrategy.difference _ _ _ p) _).of_eq_ok hClose
  have hAdded : ∀ (name : String) q, added[name]? = some q →
      (successors strategy r.work.image)[name]? = some q := fun name q hq => (hNew name q hq).1
  rw [← found_of_fireDepth hFire, hr.reachable, hs.system_eq] at hNew hLeft
  have hNames : ∀ name : String, name ∈ added → name ∈ found env strategy s := by
    intro name hName
    rw [Std.TreeMap.mem_iff_isSome_getElem?, Option.isSome_iff_exists] at hName ⊢
    obtain ⟨q, hq⟩ := hName
    exact ⟨q, (hNew name q hq).1⟩
  obtain ⟨hle, heq⟩ := Region.size_le_of_subset hNames
  rw [ht]
  refine ⟨hs.advance hr hAdded, hNew, hLeft, fun name q => ?_, ?_, hle, heq⟩
  · exact (hs.getElem?_advance hr hAdded).trans or_comm
  · show (r.work.image.reachable.union added).size = _
    rw [hr.reachable]
    exact Region.size_union fun name hName => hs.notMem_reachable hr hAdded hName

/-- Each of some depths sifts what it has found. -/
theorem Deepens.sifted (hs : Resting system s.work) {k : Nat} {interrupted : Bool}
    (h : Deepens env strategy s k interrupted t) :
    Resting system t.work ∧ ∀ j < k, ∃ last before after, Deepens env strategy s j false before ∧
      Deepens env strategy s (j + 1) last after ∧ Sifted (criterion system.stateVariables)
        (foundAfter env strategy j s) before.work.image after.work.image := by
  induction h with
  | start => exact ⟨hs, fun j hj => absurd hj (Nat.not_lt_zero j)⟩
  | @deepen k r t interrupted h hRun ih =>
    obtain ⟨hr, hEarlier⟩ := ih
    obtain ⟨ht, hSifted⟩ := sifted_deepen hStrategy hr hRun
    refine ⟨ht, fun j hj => ?_⟩
    rcases Nat.lt_succ_iff_lt_or_eq.mp hj with hj | rfl
    · exact hEarlier j hj
    · have hFound : foundAfter env strategy j s = found env strategy r := h.foundAfter_add 0
      exact ⟨interrupted, r, t, h, h.deepen hRun, hFound ▸ hSifted⟩

end Depths

/-! ## Runs -/

/-- What a search reports as new: for each depth the number of the states that it has found, of
which those that are known are not added. -/
structure CountsFound (env : Surroundings σ) (strategy : Strategy σ S) (criterion : Criterion S)
    (initial : List S) (s : Session σ (Work S)) (i : Image S) (t : Session σ (Work S)) : Prop where
  counts : Counts s t (List.range' 1 i.depth) fun depth =>
    (foundAfter env strategy (depth - 1) (begun initial s)).size
  sifted : ∀ k < i.depth, ∃ interrupted before after,
    Deepens env strategy (begun initial s) k false before ∧
    Deepens env strategy (begun initial s) (k + 1) interrupted after ∧
    Sifted criterion (foundAfter env strategy k (begun initial s)) before.work.image
      after.work.image
  last : ∃ interrupted after ending,
    Deepens env strategy (begun initial s) i.depth interrupted after ∧
    i = { after.work.image with ending }

/-- Searches count what they find and report what is new of it. -/
theorem countsFound_search (hWatched : env.watched = true) (hTurns : strategy.TakesTurns env)
    (hSifts : strategy.Sifts criterion) {maxDepth : Option Nat} {initial : List S} {i : Image S}
    (h : (breadthFirst env strategy maxDepth initial).run s = some (.ok i t)) :
    CountsFound env strategy (criterion s.work.unrolling.system.stateVariables) initial s i t := by
  obtain ⟨events, hReports, hDepths⟩ := reports_search hTurns h
  obtain ⟨interrupted, after, ending, hDeepens, hi, -⟩ := hTurns.exists_deepens h
  have hResting : Resting s.work.unrolling.system (begun initial s).work :=
    resting_ofInitial rfl rfl
  refine ⟨?_, (hDeepens.sifted hSifts hResting).2, interrupted, after, ending, hDeepens, hi⟩
  simpa using counts_of_depths hWatched hReports hDepths (fun depth =>
    (foundAfter env strategy (depth - 1) (begun initial s)).size) (by simp)

/-- **What is reported as new.** Whatever the solver, the depth bound and the reactions of the stop
flag, if an exploration returns: it has reported one number of new states for each depth that it
went through, and its profile shows these numbers. Those of an unrolling are the numbers of new
states in its layers. Those of a search are the numbers of successors found, and of these only the
ones that are new are added to what is reached: the number is that of the states added if and only
if no successor is left out. -/
theorem new_states_counted (hWatched : env.watched = true) (maxDepth : Option Nat) :
    (∀ (s : Session σ Unrolling) (ending : Ending) (t : Session σ Unrolling),
      (Unrolling.unroll env maxDepth).run s = some (.ok ending t) →
      Counts s t (List.range' (s.work.currentDepth + 1) (t.work.currentDepth - s.work.currentDepth))
        fun depth => (t.work.layer depth).fresh.length) ∧
    (∀ (simplify : Bool) (initial : List SymbolicState) (s : Session σ (Work SymbolicState))
      (i : Image SymbolicState) (t : Session σ (Work SymbolicState)),
      (breadthFirst env (symbolic env simplify) maxDepth initial).run s = some (.ok i t) →
      CountsFound env (symbolic env simplify)
        (byCoverage env s.work.unrolling.system.stateVariables) initial s i t) ∧
    (∀ (owner : FlagOwner) (initial : List SymbolicState) (s : Session σ (Work SymbolicState))
      (i : Image SymbolicState) (t : Session σ (Work SymbolicState)),
      (breadthFirst env (synchronised env owner) maxDepth initial).run s = some (.ok i t) →
      CountsFound env (synchronised env owner)
        (byCoverage env s.work.unrolling.system.stateVariables) initial s i t) ∧
    (∀ (initial : List ConcreteState) (s : Session σ (Work ConcreteState)) (i : Image ConcreteState)
      (t : Session σ (Work ConcreteState)),
      (breadthFirst env (enumerative env) maxDepth initial).run s = some (.ok i t) →
      CountsFound env (enumerative env) (byValues s.work.unrolling.system.stateVariables)
        initial s i t) := by
  refine ⟨fun s ending t h => ?_, fun simplify _ _ _ _ h => ?_, fun owner _ _ _ _ h => ?_,
    fun _ _ _ _ h => ?_⟩
  · obtain ⟨events, hReports, hDepths⟩ := Unrolling.reports_unroll h
    simpa using counts_of_depths hWatched hReports hDepths
      (fun depth => (t.work.layer depth).fresh.length) (by simp)
  · exact countsFound_search hWatched (takesTurns_symbolic env simplify)
      (sifts_symbolic env simplify) h
  · exact countsFound_search hWatched (takesTurns_synchronised env owner)
      (sifts_synchronised env owner) h
  · exact countsFound_search hWatched (takesTurns_enumerative env) (sifts_enumerative env) h

/-- A variable that can be set again and again. -/
def togglingSystem : System where
  stateVariables := [Unrolling.switch]
  initialValues := [(Unrolling.switch, .not (.var Unrolling.switch))]
  labels := [{ name := "set", stateVariables := [Unrolling.switch],
               effects := [(Unrolling.switch, .var Unrolling.switch.primed)] }]

open scoped Reals

/-- Setting the variable again brings nothing new: unrolling reports that, and a search reports the
successor that it has found. -/
theorem new_states_counted_toggling :
    let env : Surroundings Unit := { solver := .exhaustive }
    let s : Session Unit Unrolling := { memory := (), work := { system := togglingSystem } }
    let s' : Session Unit (Work SymbolicState) :=
      { memory := (), work := { unrolling := { system := togglingSystem } } }
    let initial := [togglingSystem.defaultState 1]
    env.watched = true ∧
    (∃ ending t, (Unrolling.unroll env none).run s = some (.ok ending t) ∧
      (t.work.layer 1).fresh.length = 1 ∧ (t.work.layer 2).fresh.length = 0 ∧
      Counts s t [1, 2] fun depth => (t.work.layer depth).fresh.length) ∧
    ∃ i t, (breadthFirst env (symbolic env true) none initial).run s' = some (.ok i t) ∧
      i.depth = 2 ∧ (foundAfter env (symbolic env true) 1 (begun initial s')).size = 1 ∧
      CountsFound env (symbolic env true) (byCoverage env togglingSystem.stateVariables) initial s'
        i t := by
  intro env s s' initial
  have hCounted := @new_states_counted Unit env rfl none
  have hUnroll : (Unrolling.unroll env none).returns 4 s (fun _ t =>
        t.work.layers.keys = [0, 1, 2] ∧
      (t.work.layer 1).fresh.length = 1 ∧ (t.work.layer 2).fresh.length = 0) = true := by
    rw [Unrolling.unroll_eq]
    decide +kernel
  have hSearch : (breadthFirst env (symbolic env true) none initial).returns 4 s'
      (fun i _ => i.depth = 2) = true := by
    decide +kernel
  have hFound : (foundAfter env (symbolic env true) 1 (begun initial s')).size = 1 := by
    decide +kernel
  obtain ⟨ending, t, hRun, hChecked⟩ := Exploration.exists_of_returns hUnroll
  obtain ⟨hKeys, hFirst, hSecond⟩ := of_decide_eq_true hChecked
  obtain ⟨i, t', hRun', hChecked'⟩ := Exploration.exists_of_returns hSearch
  have hStart : s.work.currentDepth = 0 := Unrolling.currentDepth_eq_getLast? _
  have hEnd : t.work.currentDepth = 2 := by
    rw [Unrolling.currentDepth_eq_getLast?, hKeys]
    rfl
  have hCounts := hCounted.1 s ending t hRun
  rw [hStart, hEnd] at hCounts
  exact ⟨rfl, ⟨ending, t, hRun, hFirst, hSecond, hCounts⟩, i, t', hRun',
    of_decide_eq_true hChecked', hFound, hCounted.2.1 true initial s' i t' hRun'⟩

/-- At its second depth, a search reports a new state and shows it in its profile, though it has
added none: what is reached is what was reached after one depth. -/
theorem known_successor_reported :
    let env : Surroundings Unit := { solver := .exhaustive }
    let s : Session Unit (Work SymbolicState) :=
      { memory := (), work := { unrolling := { system := togglingSystem } } }
    let initial := [togglingSystem.defaultState 1]
    (∃ i t, (breadthFirst env (symbolic env true) (some 1) initial).run s = some (.ok i t) ∧
      i.reachable.size = 2) ∧
    ∃ i t, (breadthFirst env (symbolic env true) none initial).run s = some (.ok i t) ∧
      i.depth = 2 ∧ i.reachable.size = 2 ∧ i.frontier.size = 0 ∧ .newStates 2 1 ∈ t.trace ∧
      t.profile.newStatesAt 2 = 1 ∧ "  depth 2: 0 steps, 1 new states" ∈ t.profile.reportLines := by
  intro env s initial
  have hBounded : (breadthFirst env (symbolic env true) (some 1) initial).returns 4 s
      (fun i _ => i.reachable.size = 2) = true := by
    decide +kernel
  have hSearch : (breadthFirst env (symbolic env true) none initial).returns 4 s (fun i t =>
      i.depth = 2 ∧ i.reachable.size = 2 ∧ i.frontier.size = 0 ∧ .newStates 2 1 ∈ t.trace ∧
      t.profile.newStatesAt 2 = 1 ∧ "  depth 2: 0 steps, 1 new states" ∈ t.profile.reportLines) =
        true := by
    decide +kernel
  obtain ⟨i, t, hRun, hChecked⟩ := Exploration.exists_of_returns hBounded
  obtain ⟨i', t', hRun', hChecked'⟩ := Exploration.exists_of_returns hSearch
  exact ⟨⟨i, t, hRun, of_decide_eq_true hChecked⟩, i', t', hRun', of_decide_eq_true hChecked'⟩

end StateSpace.Search
