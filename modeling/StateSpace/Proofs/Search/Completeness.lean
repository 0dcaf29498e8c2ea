import StateSpace.Proofs.Search.Depth
import StateSpace.Proofs.Unrolling.Completeness

/-!
# What a region search has reached

Every state reached is on the frontier or settled: whatever its labels lead to is covered, and the
error labels that are enabled on it are known (`Search.Explored`). One depth that is not interrupted
settles the frontier and covers one more firing. A depth that is interrupted still loses nothing
that was covered before it. So the search covers as many firings as its ending tells
(`Search.searchSymbolic_complete`), whenever the stop flag is raised.
-/

namespace StateSpace.Search

open Explore Environment

variable {σ : Type} {env : Surroundings σ} {system : System} {strategy : Strategy σ SymbolicState}
  {base : Nat} {w w' : Work SymbolicState} {s t : Session σ (Work SymbolicState)}
  {ν ν' : Environment} {q : SymbolicState} {maxDepth : Option Nat}

/-- A region covers values. -/
def Covers [Reals] (system : System) (r : Region SymbolicState) (ν : Environment) : Prop :=
  (r.covered system.stateVariables).holds ν = true

theorem covers_iff [Reals] {r : Region SymbolicState} :
    Covers system r ν ↔
      ∃ q ∈ r.states, q.isError = false ∧ q.Describes system.stateVariables ν :=
  holds_coverage

/-- Whatever the labels lead to from a state is covered, and the error labels enabled there are
known. -/
structure Settled [Reals] (system : System) (i : Image SymbolicState) (q : SymbolicState) :
    Prop where
  leads : ∀ l ∈ system.labels, l.isConstructor = false → l.isError = false → ∀ ν ν',
    q.Describes system.stateVariables ν → system.Leads l ν ν' → Covers system i.reachable ν'
  fails : ∀ l ∈ system.labels, l.isConstructor = false → l.isError = true → ∀ ν,
    q.Describes system.stateVariables ν → system.Enables ν l → l.name ∈ i.reachedErrors

/-- What holds before every depth of a search. -/
structure Explored [Reals] (system : System) (w : Work SymbolicState) : Prop where
  probing : Probing system w.image.names w
  settled : ∀ q ∈ w.image.reachable.states,
    q ∈ w.image.frontier.states ∨ Settled system w.image q
  reached : ∀ n ≤ w.image.depth, ∀ ν, system.ReachesIn n ν → Covers system w.image.reachable ν

/-! ## One depth -/

/-- Firing all labels fires each of them on the whole frontier, unless it is interrupted. -/
theorem ensures_fireLabels_faithful [Reals] (hStrategy : strategy.Faithful env system)
    (hs : Probing system base s.work) :
    Ensures s (fireLabels strategy system.labels)
      (fun interrupted t => Probing system base t.work ∧ Extends s.work t.work ∧
        (interrupted = false → ∀ l ∈ system.labels, l.isConstructor = false →
          ∀ q ∈ s.work.image.frontier.states, Fired system t.work q l))
      (fun _ => True) := by
  refine (ensures_fireLabels (fun t => Probing system base t.work ∧ Extends s.work t.work)
    (fun l t => ∀ q ∈ s.work.image.frontier.states, Fired system t.work q l) ?_
    ⟨hs, .refl _⟩).mono (fun interrupted t ⟨⟨ht, hExtends⟩, _, hAll⟩ => ⟨ht, hExtends, hAll⟩)
      fun _ h => h
  rintro l hl - t ⟨ht, hExtends⟩
  have hFire : Ensures t (if l.isError then strategy.testError l else strategy.expand l)
      (fun _ r => Probing system base r.work ∧ Extends t.work r.work ∧
        ∀ q ∈ t.work.image.frontier.states, Fired system r.work q l) (fun _ => True) := by
    split
    · next hError => exact hStrategy.testError l hl hError ht
    · next hError => exact hStrategy.expand l hl (by simpa using hError) ht
  refine hFire.mono (fun _ r ⟨hr, hExtends', hFired⟩ => ⟨⟨hr, hExtends.trans hExtends'⟩, ?_, ?_⟩)
    fun _ h => h
  · rwa [hExtends.frontier] at hFired
  · exact fun l' hl' q hq => (hl' q hq).extends hExtends'

/-- What the region of successors adds, once they are states about current values. -/
structure Adds (solver : Solver σ) (system : System) (w : Work SymbolicState)
    (added : Region SymbolicState) : Prop where
  pending : ∀ (name : String) q, added[name]? = some q →
    ∃ p, w.image.pending[name]? = some p ∧ q = current p
  covered : ∀ p ∈ w.image.pending.states, current p ∈ added.states ∨
    solver.Answers ((current p).outside (w.image.reachable.covered system.stateVariables)) .unsat

section Advance

variable {solver : Solver σ} {added : Region SymbolicState}

/-- No name of a state added occurs among those reached. -/
theorem mem_states_union (hw : Probing system base w) (hAdded : Adds solver system w added) :
    q ∈ (w.image.reachable.union added).states ↔
      q ∈ w.image.reachable.states ∨ q ∈ added.states := by
  simp only [Region.mem_states, Region.getElem?_union]
  constructor
  · rintro ⟨name, hName | ⟨-, hName⟩⟩
    · exact .inr ⟨name, hName⟩
    · exact .inl ⟨name, hName⟩
  · rintro (⟨name, hName⟩ | ⟨name, hName⟩)
    · refine ⟨name, .inr ⟨fun hMem => ?_, hName⟩⟩
      obtain ⟨q', hq'⟩ : ∃ q', added[name]? = some q' := by
        rwa [Std.TreeMap.mem_iff_isSome_getElem?, Option.isSome_iff_exists] at hMem
      obtain ⟨p, hp, -⟩ := hAdded.pending name q' hq'
      obtain ⟨⟨m, hm, rfl⟩, -⟩ := hw.reachable name q hName
      obtain ⟨⟨m', hm', -, heq⟩, -⟩ := hw.pending _ p hp
      have := Region.nameOf_injective heq
      omega
    · exact ⟨name, .inl hName⟩

theorem covers_union_of_covers [Reals] (hw : Probing system base w)
    (hAdded : Adds solver system w added)
    (hν : Covers system w.image.reachable ν) : Covers system (w.image.reachable.union added) ν := by
  obtain ⟨q, hq, hRest⟩ := covers_iff.mp hν
  exact covers_iff.mpr ⟨q, (mem_states_union hw hAdded).mpr (.inl hq), hRest⟩

/-- What a successor describes is covered afterwards: it is added, or it was covered before. -/
theorem covers_union_of_pending [Reals] (hTrue : solver.Truthful) (hw : Probing system base w)
    (hAdded : Adds solver system w added) {p : SymbolicState} (hp : p ∈ w.image.pending.states)
    (hν : (current p).Describes system.stateVariables ν) :
    Covers system (w.image.reachable.union added) ν := by
  rcases hAdded.covered p hp with hMem | ⟨memory, hUnsat⟩
  · obtain ⟨name, hName⟩ := Region.mem_states.mp hp
    obtain ⟨-, hnoError, -⟩ := hw.pending name p hName
    exact covers_iff.mpr ⟨_, (mem_states_union hw hAdded).mpr (.inr hMem), hnoError, hν⟩
  · exact covers_union_of_covers hw hAdded (covered_of_outside (hTrue.unsat _ _ hUnsat) hν)

/-- The end of a depth leaves the search in order. -/
theorem Probing.advance (hw : Probing system base w) (hAdded : Adds solver system w added) :
    Probing system w.image.names (advance w added) where
  system_eq := hw.system_eq
  base_le := Nat.le_refl _
  reachable name q hq := by
    rcases Region.getElem?_union.mp hq with hq | ⟨-, hq⟩
    · obtain ⟨p, hp, rfl⟩ := hAdded.pending name q hq
      obtain ⟨⟨m, -, hm, hName⟩, -, hTidy⟩ := hw.pending name p hp
      exact ⟨⟨m, hm, hName⟩, hTidy⟩
    · obtain ⟨⟨m, hm, hName⟩, hTidy⟩ := hw.reachable name q hq
      exact ⟨⟨m, hm.trans hw.base_le, hName⟩, hTidy⟩
  frontier q hq := (mem_states_union hw hAdded).mpr (.inr hq)
  pending name q hq := by
    simp [Search.advance] at hq

/-- A depth in which all labels were fired on the frontier settles it, and covers one more
firing. -/
theorem Explored.advance [Reals] (h : Explored system w) (hTrue : solver.Truthful)
    (hw : Probing system w.image.names w') (hReachable : w'.image.reachable = w.image.reachable)
    (hDepth : w'.image.depth = w.image.depth + 1)
    (hErrors : w.image.reachedErrors ⊆ w'.image.reachedErrors)
    (hAdded : Adds solver system w' added)
    (hFired : ∀ l ∈ system.labels, l.isConstructor = false →
      ∀ q ∈ w.image.frontier.states, Fired system w' q l) :
    Explored system (advance w' added) := by
  have hSettled : ∀ q ∈ w.image.reachable.states,
    Settled system (Search.advance w' added).image q := by
    intro q hq
    -- a state of the frontier is settled by this depth, the others were before
    rcases h.settled q hq with hq | hq
    · refine ⟨fun l hl hno hnoError ν ν' hν hLeads => ?_, fun l hl hno hError ν hν hEnabled => ?_⟩
      · obtain ⟨p, hp, hν'⟩ := (hFired l hl hno q hq).leads hnoError ν ν' hν hLeads
        exact covers_union_of_pending hTrue hw hAdded hp hν'
      · exact (hFired l hl hno q hq).fails hError ν hν hEnabled
    · refine ⟨fun l hl hno hnoError ν ν' hν hLeads => ?_, fun l hl hno hError ν hν hEnabled => ?_⟩
      · have hCovers := hq.leads l hl hno hnoError ν ν' hν hLeads
        rw [← hReachable] at hCovers
        exact covers_union_of_covers hw hAdded hCovers
      · exact hErrors (hq.fails l hl hno hError ν hν hEnabled)
  refine ⟨hw.advance hAdded, fun q hq => ?_, fun n hn ν hν => ?_⟩
  · rcases (mem_states_union hw hAdded).mp hq with hq | hq
    · rw [hReachable] at hq
      exact .inr (hSettled q hq)
    · exact .inl hq
  · have hn : n ≤ w.image.depth + 1 := hDepth ▸ hn
    cases hν with
    | start hStart =>
      refine covers_union_of_covers hw hAdded ?_
      rw [hReachable]
      exact h.reached 0 (Nat.zero_le _) ν (.start hStart)
    | @fire n before _ l hBefore hl hno hnoError hLeads =>
      obtain ⟨q, hq, -, hDescribes⟩ := covers_iff.mp (h.reached n (by omega) before hBefore)
      exact (hSettled q hq).leads l hl hno hnoError before ν hDescribes hLeads

end Advance

/-- The difference of regions adds what has values that are not covered. -/
theorem adds_difference (env : Surroundings σ) (system : System) (w : Work SymbolicState)
    (t : Session σ (Work SymbolicState)) (hCurrent : strategy.toCurrent = current) :
    Ensures t (Region.difference env (successors strategy w.image) w.image.reachable
      system.stateVariables) (fun added r => r.work = t.work ∧ Adds env.solver system w added)
      (fun _ => True) := by
  refine (Region.ensures_difference env _ _ _).mono (fun added r ⟨hr, hFrom, hAll⟩ => ⟨hr, ?_, ?_⟩)
    fun _ h => h
  · intro name q hq
    obtain ⟨p, hp, hqp⟩ := getElem?_successors.mp (hFrom name q hq).1
    exact ⟨p, hp, hCurrent ▸ hqp⟩
  · intro p hp
    obtain ⟨name, hName⟩ := Region.mem_states.mp hp
    refine (hAll name (current p) ?_).imp_left fun hMem => Region.mem_states.mpr ⟨name, hMem⟩
    exact getElem?_successors.mpr ⟨p, hName, hCurrent ▸ rfl⟩

/-- The labels of a depth have been fired on the frontier, all of them unless it is interrupted. -/
structure Swept [Reals] (system : System) (w : Work SymbolicState) (interrupted : Bool)
    (w' : Work SymbolicState) : Prop where
  probing : Probing system w.image.names w'
  extended : Extends (deeper w) w'
  fired : interrupted = false → ∀ l ∈ system.labels, l.isConstructor = false →
    ∀ q ∈ w.image.frontier.states, Fired system w' q l

/-- One depth: what was covered stays so, and what is added has been fired on. -/
theorem ensures_deepen_explored [Reals] (hStrategy : strategy.Faithful env system)
    (hTrue : env.solver.Truthful) (hs : Explored system s.work) :
    Ensures s (deepen env strategy)
      (fun interrupted t =>
        (∀ ν, Covers system s.work.image.reachable ν → Covers system t.work.image.reachable ν) ∧
        (interrupted = false →
          t.work.image.depth = s.work.image.depth + 1 ∧ Explored system t.work))
      (fun _ => True) := by
  have hProbing := hs.probing
  have hFire : ∀ r, r.work = deeper s.work →
      Ensures r (fireLabels strategy s.work.unrolling.system.labels)
        (fun interrupted t => Swept system s.work interrupted t.work) (fun _ => True) := by
    intro r hr
    rw [hProbing.system_eq]
    have hr' : Probing system s.work.image.names r.work := by
      rw [hr]
      exact ⟨hProbing.system_eq, hProbing.base_le, hProbing.reachable, hProbing.frontier,
        hProbing.pending⟩
    refine (ensures_fireLabels_faithful hStrategy hr').mono
      (fun interrupted t ⟨ht, hExtends, hFired⟩ => ?_) fun _ h => h
    rw [hr] at hExtends hFired
    exact ⟨ht, hExtends, hFired⟩
  refine (ensures_deepen (Swept system s.work) (Adds env.solver system) hFire fun w t => ?_).mono
    (fun interrupted t h => ?_) fun _ h => h
  · rw [hProbing.system_eq, hStrategy.difference]
    exact adds_difference env system w t hStrategy.toCurrent
  · obtain ⟨w, added, hw, hAdded, ht⟩ := h
    have hReachable : w.image.reachable = s.work.image.reachable := hw.extended.reachable
    rw [ht]
    refine ⟨fun ν hν => ?_, fun hThrough => ⟨hw.extended.depth, ?_⟩⟩
    · rw [← hReachable] at hν
      exact covers_union_of_covers hw.probing hAdded hν
    · exact hs.advance hTrue hw.probing hReachable hw.extended.depth hw.extended.reachedErrors
        hAdded (hw.fired hThrough)

/-! ## Runs -/

/-- The ending of a search tells how many firings are covered. -/
structure Accounts [Reals] (system : System) (maxDepth : Option Nat) (i : Image SymbolicState) :
    Prop where
  bounded : i.ending = .bounded → ∃ bound, maxDepth = some bound ∧
    ∀ n ≤ bound, ∀ ν, system.ReachesIn n ν → Covers system i.reachable ν
  stopped : ∀ k, i.ending = .stopped k →
    ∀ n ≤ k, ∀ ν, system.ReachesIn n ν → Covers system i.reachable ν
  fixpoint : ∀ k, i.ending = .fixpoint k →
    (∀ history ν, system.Reaches history ν → Covers system i.reachable ν) ∧
    ∀ l ∈ system.labels, l.isConstructor = false → l.isError = true → ∀ history ν,
      system.Reaches history ν → system.Enables ν l → l.name ∈ i.reachedErrors

/-- With nothing on the frontier everything reached is settled. -/
theorem Explored.accounts_fixpoint [Reals] (h : Explored system w)
    (hEmpty : w.image.frontier.isEmpty = true)
    (k : Nat) : Accounts system maxDepth { w.image with ending := .fixpoint k } := by
  have hSettled : ∀ q ∈ w.image.reachable.states, Settled system w.image q := by
    intro q hq
    refine (h.settled q hq).resolve_left ?_
    rw [Region.states_of_isEmpty hEmpty]
    exact List.not_mem_nil
  have hReaches : ∀ history ν, system.Reaches history ν → Covers system w.image.reachable ν := by
    intro history ν hν
    induction hν with
    | start hStart => exact h.reached 0 (Nat.zero_le _) _ (.start hStart)
    | @fire _ ν ν' l _ hl hno hnoError hLeads ih =>
      obtain ⟨q, hq, -, hDescribes⟩ := covers_iff.mp ih
      exact (hSettled q hq).leads l hl hno hnoError ν ν' hDescribes hLeads
  refine ⟨nofun, nofun, fun _ _ => ⟨hReaches, fun l hl hno hError history ν hν hEnabled => ?_⟩⟩
  obtain ⟨q, hq, -, hDescribes⟩ := covers_iff.mp (hReaches history ν hν)
  exact (hSettled q hq).fails l hl hno hError ν hDescribes hEnabled

/-- A turn goes on with everything in order, or it ends and tells what is covered. -/
theorem ensures_turn_explored [Reals] (hStrategy : strategy.Faithful env system)
    (hTrue : env.solver.Truthful) (hs : Explored system s.work) :
    Ensures s (turn env strategy maxDepth)
      (fun next t => next.Satisfies (fun _ => Explored system t.work) (Accounts system maxDepth))
      (fun _ => True) := by
  refine ensures_turn hStrategy.goesOn (fun hEmpty => hs.accounts_fixpoint hEmpty _)
    (fun hBound => ⟨fun _ => ⟨_, hBound, hs.reached⟩, nofun, nofun⟩) fun _ => ?_
  refine (ensures_deepen_explored hStrategy hTrue hs).mono
    (fun interrupted t ⟨hCovers, ht⟩ => ⟨⟨nofun, fun k hk n hn ν hν => ?_, nofun⟩,
      fun hThrough => (ht hThrough).2⟩) fun _ h => h
  cases hk
  cases interrupted with
  | true =>
    -- the depth was cut short, but what was covered before it still is
    exact hCovers ν (hs.reached n hn ν hν)
  | false =>
    obtain ⟨hDepth, ht⟩ := ht rfl
    exact ht.reached n (hDepth ▸ hn) ν hν

/-! ## The start -/

/-- A search begins with everything on the frontier. -/
theorem explored_ofInitial [Reals] {initial : List SymbolicState}
    (hSystem : w.unrolling.system = system)
    (hTidy : ∀ q ∈ initial, q.Tidy system.stateVariables (w.issued + 1))
    (hStarts : ∀ history ν, system.Starts history ν →
      ∃ q ∈ initial, q.isError = false ∧ q.Describes system.stateVariables ν) :
    Explored system { w with image := .ofInitial initial } where
  probing := {
    system_eq := hSystem
    base_le := Nat.le_refl _
    reachable := fun name q hq => by
      obtain ⟨k, hk, rfl⟩ := getElem?_ofInitial.mp hq
      have hlt : k < initial.length := (List.getElem?_eq_some_iff.mp hk).1
      exact ⟨⟨k + 1, hlt, rfl⟩, hTidy q (List.mem_of_getElem? hk)⟩
    frontier := List.Subset.refl _
    pending := fun name q hq => by simp [Image.ofInitial] at hq }
  settled q hq := .inl hq
  reached n hn ν hν := by
    cases hν with
    | start hStart =>
      obtain ⟨q, hq, hRest⟩ := hStarts _ ν hStart
      exact covers_iff.mpr ⟨q, mem_states_ofInitial.mpr hq, hRest⟩
    | fire => cases hn

/-- The start of a search is that of its unrolling. -/
theorem ensures_start {S : Type} {s : Session σ (Work S)} :
    Ensures s (start env)
      (fun _ t => ∃ u, Unrolling.Starting env.solver.Answers s.work.unrolling u ∧
        t.work = { s.work with unrolling := u })
      (fun _ => True) := by
  refine (Ensures.onPart Unrolling.ensures_start).mono (fun _ t h => ?_) fun _ h => h
  obtain ⟨t', ⟨hStarting, -⟩, ht⟩ := h
  exact ⟨t'.work, hStarting, ht⟩

/-- The initial states are the new ones of depth 0, and the error state among them says nothing. -/
theorem initial_of_starting {solver : Solver σ} {u : Unrolling}
    (h : Unrolling.Starting solver.Answers { system := system } u) :
    u.initial = (u.layer 0).fresh ∧ u.errorState.formulas = [] := by
  cases h with
  | already hStarted => cases hStarted
  | default => exact ⟨rfl, rfl⟩
  | built _ _ _ hSweep =>
    refine ⟨rfl, ?_⟩
    have hwf := (Unrolling.orderly_unstarted system).wellFormed
    exact hSweep.formulas_errorState (hwf.withDefault.modifyLayer_id 0)

/-- The initial states of a system that has been started: they are in order, and describe whatever
executions start with. -/
theorem initialStates_of_starting [Reals] {u : Unrolling} (hTrue : env.solver.Truthful)
    (hSystem : system.Hygienic) (h : Unrolling.Starting env.solver.Answers { system := system } u) :
    u.system = system ∧
    (∀ q ∈ u.initialStates, q.Tidy system.stateVariables (u.transitions.size + 1)) ∧
    ∀ history ν, system.Starts history ν →
      ∃ q ∈ u.initialStates, q.isError = false ∧ q.Describes system.stateVariables ν := by
  have hComplete := h.complete hTrue hSystem
  have hwf := hComplete.covering.wellFormed
  obtain ⟨hInitial, hError⟩ := initial_of_starting h
  refine ⟨hComplete.covering.system_eq, fun q hq => ?_, fun history ν hStart => ?_⟩
  · obtain ⟨id, hid, rfl⟩ := List.mem_map.mp hq
    rw [hInitial] at hid
    by_cases hne : id = Unrolling.errorId
    · subst hne
      have hNil : (u.state Unrolling.errorId).formulas = [] := hError
      refine ⟨?_, ?_, ?_⟩ <;> simp [hNil]
    · exact hComplete.covering.tidy id (hwf.listed 0 id (hwf.fresh 0 hid)) hne
  · obtain ⟨id, hid, hne, hν⟩ := hComplete.starts history ν hStart
    refine ⟨u.state id, List.mem_map.mpr ⟨id, hInitial ▸ hid, rfl⟩, ?_, hν⟩
    exact hwf.noError id (hwf.listed 0 id (hwf.fresh 0 hid)) hne

/-- **A region search tells the truth.** For every system read from a description that declares its
variables first and uses no name that looks hidden, every symbolic strategy, every solver with true
answers, every depth bound and whatever happens to the stop flag: if the search returns an image,
then the region reached covers whatever a number of firings reaches, up to the bound if the search
is bounded, up to the depth told if it is stopped, and any number if it ends at a fixpoint. At a
fixpoint every error label but the constructors that is enabled at values reached is among the
errors reached. -/
theorem searchSymbolic_complete [Reals] {text : String}
    (hParse : Description.parseSystem text = .ok system) (hFirst : Description.DeclaresFirst text)
    (hVisible : ∀ x ∈ system.declared, Renaming.isHidden x.name = false)
    (hTrue : env.solver.Truthful)
    (hStrategy : (∃ simplify, strategy = symbolic env simplify) ∨
      ∃ owner, strategy = synchronised env owner)
    (hFresh : s.work.unrolling = { system := system }) {i : Image SymbolicState}
    (hRun : (searchSymbolic env strategy maxDepth).run s = some (.ok i t)) :
    (i.ending = .bounded → ∃ bound, maxDepth = some bound ∧
      ∀ n ≤ bound, ∀ ν, system.ReachesIn n ν → Covers system i.reachable ν) ∧
    (∀ k, i.ending = .stopped k →
      ∀ n ≤ k, ∀ ν, system.ReachesIn n ν → Covers system i.reachable ν) ∧
    ∀ k, i.ending = .fixpoint k →
      (∀ history ν, system.Reaches history ν → Covers system i.reachable ν) ∧
      ∀ l ∈ system.labels, l.isConstructor = false → l.isError = true → ∀ history ν,
        system.Reaches history ν → system.Enables ν l → l.name ∈ i.reachedErrors := by
  have hSystem : system.Hygienic :=
    ⟨Description.wellScoped_of_declaresFirst hParse hFirst, hVisible⟩
  have hFaithful : strategy.Faithful env system := by
    rcases hStrategy with ⟨simplify, rfl⟩ | ⟨owner, rfl⟩
    · exact faithful_symbolic hTrue hSystem simplify
    · exact faithful_synchronised hTrue hSystem owner
  have hSeed : Ensures s (seedSymbolic env) (fun _ r => Explored system r.work)
      (fun _ => True) := by
    refine ensures_start.bind fun _ r ⟨u, hStarting, hr⟩ =>
      .work_bind (.modifyWork_bind (.modifyWork ?_))
    rw [hFresh] at hStarting
    obtain ⟨hSame, hTidy, hStarts⟩ := initialStates_of_starting hTrue hSystem hStarting
    rw [hr]
    refine explored_ofInitial hSame (fun q hq => (hTidy q hq).mono ?_) hStarts
    exact Nat.succ_le_succ (Nat.le_max_right _ _)
  have hAccounts : Accounts system maxDepth i :=
    Exploration.of_run_eq_ok (fun _ r hr => ensures_turn_explored hFaithful hTrue hr) hSeed hRun
  exact ⟨hAccounts.bounded, hAccounts.stopped, hAccounts.fixpoint⟩

/-- A variable that is set once, and an error where it is set. -/
def alarmText : String :=
  "VARIABLES:\ndeclare x:bool\n\nTRANSITION set:\nPRECONDITION:\n!x\nEFFECT:\nx: x'\n\n" ++
    "TRANSITION alarm:\nPRECONDITION:\nx\nEFFECT:\nERROR\n"

/-- The label that is an error where the variable is set. -/
def alarm : Label where
  name := "alarm"
  stateVariables := [Unrolling.switch]
  preconditions := [.var Unrolling.switch]
  isError := true

/-- The system of `alarmText`. -/
def alarmSystem : System where
  stateVariables := [Unrolling.switch]
  labels := Unrolling.switchSystem.labels ++ [alarm]

open scoped Reals

/-- The search ends at a fixpoint, covers whatever is reached, and has found the error if any values
reached enable it. -/
theorem searchSymbolic_complete_alarm :
    ∃ (i : Image SymbolicState) (t : Session Unit (Work SymbolicState)),
      (searchSymbolic { solver := .exhaustive } (symbolic { solver := .exhaustive } true) none).run
        { memory := (), work := { unrolling := { system := alarmSystem } } } = some (.ok i t) ∧
      i.ending = .fixpoint 1 ∧ "alarm" ∈ i.reachedErrors ∧
      ∀ history ν, alarmSystem.Reaches history ν → Covers alarmSystem i.reachable ν := by
  have hCheck : Exploration.returns 4
      (searchSymbolic { solver := .exhaustive } (symbolic { solver := .exhaustive } true) none)
      { memory := (), work := { unrolling := { system := alarmSystem } } }
      (fun i _ => i.ending = .fixpoint 1 ∧ "alarm" ∈ i.reachedErrors) = true := by
    decide +kernel
  obtain ⟨i, t, hRun, hEnding⟩ := Exploration.exists_of_returns hCheck
  obtain ⟨hFixpoint, hError⟩ := of_decide_eq_true hEnding
  have hParse : Description.parseSystem alarmText = .ok alarmSystem := by decide +kernel
  have hFirst : Description.DeclaresFirst alarmText := by decide +kernel
  obtain ⟨-, -, hAll⟩ := searchSymbolic_complete hParse hFirst (by decide +kernel)
    Solver.exhaustive_truthful (.inl ⟨true, rfl⟩) rfl hRun
  exact ⟨i, t, hRun, hFixpoint, hError, (hAll 1 hFixpoint).1⟩

/-- A search fires no constructors, so one that is an error label is not among the errors reached,
even where it is enabled at values reached. -/
theorem searched_constructor_error_unnoticed :
    Description.parseSystem Unrolling.refusalText = .ok Unrolling.refusalSystem ∧
    Description.DeclaresFirst Unrolling.refusalText ∧
    (∀ x ∈ Unrolling.refusalSystem.declared, Renaming.isHidden x.name = false) ∧
    (Unrolling.refuseLabel ∈ Unrolling.refusalSystem.labels ∧ Unrolling.refuseLabel.isError = true ∧
      ∃ history ν, Unrolling.refusalSystem.Reaches history ν ∧
        Unrolling.refusalSystem.Enables ν Unrolling.refuseLabel) ∧
    ∃ (i : Image SymbolicState) (t : Session Unit (Work SymbolicState)),
      (searchSymbolic { solver := .exhaustive } (symbolic { solver := .exhaustive } true) none).run
        { memory := (), work := { unrolling := { system := Unrolling.refusalSystem } } } =
          some (.ok i t) ∧
      i.ending = .fixpoint 0 ∧ Unrolling.refuseLabel.name ∉ i.reachedErrors := by
  refine ⟨by decide +kernel, by decide +kernel, by decide +kernel,
    ⟨.tail _ (.head _), rfl, Unrolling.exists_enables_refuse⟩, ?_⟩
  have hCheck : Exploration.returns 4
      (searchSymbolic { solver := .exhaustive } (symbolic { solver := .exhaustive } true) none)
      { memory := (), work := { unrolling := { system := Unrolling.refusalSystem } } }
      (fun i _ => i.ending = .fixpoint 0 ∧ Unrolling.refuseLabel.name ∉ i.reachedErrors) =
      true := by
    decide +kernel
  obtain ⟨i, t, hRun, hEnding⟩ := Exploration.exists_of_returns hCheck
  exact ⟨i, t, hRun, of_decide_eq_true hEnding⟩

end StateSpace.Search
