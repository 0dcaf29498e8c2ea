import StateSpace.Proofs.Search.FirstDepth
import StateSpace.Proofs.Unrolling.Events

/-!
# What searches report

While a search fires its labels, it reports turns of inner phases; then it closes the depth with two
phases more. This holds for each strategy, because each reports what it asks and what it applies in
turns and does all else silently (`Strategy.TakesTurns`). So a search that returns has reported
depth by depth, and with each depth the number of successors that it has found (`reports_search`).
Together with unrolling: whatever the solver, the depth bound and the stop flag do, the events of a
run are well bracketed (`explorations_bracketed`).
-/

namespace StateSpace

namespace Search

open Explore

variable {σ ω S : Type} {env : Surroundings σ} {strategy : Strategy σ S} {l : Label}
  {s r t : Session σ (Work S)}

/-! ## Guards and errors -/

/-- Inner phases of the current depth have taken turns, and the depth is the same. -/
structure Passes (env : Surroundings σ) (s t : Session σ (Work S)) : Prop where
  inside : Inside env s.work.image.depth s t
  depth_eq : t.work.image.depth = s.work.image.depth

namespace Passes

theorem refl (env : Surroundings σ) (s : Session σ (Work S)) : Passes env s s :=
  ⟨.refl env _ s, rfl⟩

theorem trans (h : Passes env s r) (h' : Passes env r t) : Passes env s t :=
  ⟨h.inside.trans (h.depth_eq ▸ h'.inside), h'.depth_eq.trans h.depth_eq⟩

theorem of_work_eq (hWork : t.work = s.work) (h : Inside env s.work.image.depth s t) :
    Passes env s t :=
  ⟨h, by rw [hWork]⟩

end Passes

theorem depth_recordError (i : Image S) (label : String) (history : List String) :
    (i.recordError label history).depth = i.depth := by
  unfold Image.recordError
  split <;> rfl

section Guards

variable [RegionState S]

theorem ensures_satisfiesGuard_inside (q : S) :
    Ensures s (satisfiesGuard env l q)
      (fun _ t => t.work = s.work ∧ Inside env s.work.image.depth s t) (fun _ => True) :=
  ensures_image_bind (ensures_holdsDuring_inside rfl _ _ _)

/-- Looking for an enabled state reports inner phases only. -/
theorem ensures_firstEnabled_inside (states : List S) :
    Ensures s (firstEnabled env l states)
      (fun _ t => t.work = s.work ∧ Inside env s.work.image.depth s t) (fun _ => True) := by
  induction states generalizing s with
  | nil => exact .pure ⟨rfl, .refl env _ s⟩
  | cons q rest ih =>
    refine (ensures_satisfiesGuard_inside q).bind fun enabled r ⟨hr, hInside⟩ => ?_
    split
    · exact .pure ⟨hr, hInside⟩
    · refine ih.mono (fun _ t ⟨ht, hRest⟩ => ⟨ht.trans hr, ?_⟩) fun _ h => h
      rw [hr] at hRest
      exact hInside.trans hRest

theorem passes_recordFrom (q : S) :
    Ensures s (recordFrom l q) (fun _ t => Passes env s t) (fun _ => True) :=
  ⟨.nothing rfl rfl, depth_recordError _ _ _⟩

/-- Testing an error label on all that is reached. -/
theorem passes_testReachable :
    Ensures s (testReachable env l) (fun _ t => Passes env s t) (fun _ => True) := by
  refine ensures_image_bind ?_
  split
  · exact .pure (.refl env s)
  · refine (ensures_firstEnabled_inside _).bind fun found r ⟨hr, hInside⟩ => ?_
    have hPasses := Passes.of_work_eq hr hInside
    cases found with
    | none => exact .pure hPasses
    | some q => exact (passes_recordFrom q).mono (fun _ _ ht => hPasses.trans ht) fun _ h => h

/-- Testing an error label on the frontier. -/
theorem passes_testFrontier (owner : FlagOwner) :
    Ensures s (testFrontier env owner l) (fun _ t => Passes env s t) (fun _ => True) := by
  refine ensures_image_bind ((ensures_firstEnabled_inside _).bind fun found r ⟨hr, hInside⟩ => ?_)
  have hPasses := Passes.of_work_eq hr hInside
  cases found with
  | none => exact .pure hPasses
  | some q =>
    have hRaise : Ensures r (raiseFlag owner) (fun _ t => Passes env r t) (fun _ => True) := by
      cases owner <;> exact ⟨.nothing rfl rfl, rfl⟩
    refine hRaise.bind fun _ p hp => ?_
    exact (passes_recordFrom q).mono (fun _ _ ht => (hPasses.trans hp).trans ht) fun _ h => h

end Guards

/-! ## Silent steps -/

section Silent

variable {s : Session σ ω}

/-- Simplifying a formula reports nothing. -/
theorem ensures_simplifyFormula_memory (x : Variable) (e : Expr) :
    Ensures s (simplifyFormula env x e) (fun _ t => ∃ memory, t = { s with memory := memory })
      (fun _ => True) := by
  unfold simplifyFormula
  dsimp only
  split
  · exact .pure ⟨_, rfl⟩
  · refine Ensures.bind (Q := fun _ t => ∃ memory, t = { s with memory := memory }) ⟨_, rfl⟩ ?_
    rintro answer _ ⟨memory, rfl⟩
    split
    · exact .pure ⟨_, rfl⟩
    · exact .throw trivial
    · split
      · exact .pure ⟨_, rfl⟩
      · refine ((ensures_holds_memory _ _).mono (fun _ _ h => h) fun _ _ => trivial).bind ?_
        rintro other _ ⟨-, memory', rfl⟩
        split <;> exact .pure ⟨_, rfl⟩

/-- Simplifying formulas reports nothing. -/
theorem ensures_simplifyFormulas_memory (fs : Formulas) :
    Ensures s (simplifyFormulas env fs) (fun _ t => ∃ memory, t = { s with memory := memory })
      (fun _ => True) := by
  induction fs generalizing s with
  | nil => exact .pure ⟨_, rfl⟩
  | cons entry rest ih =>
    refine (ensures_simplifyFormula_memory entry.1 entry.2).bind ?_
    rintro e _ ⟨memory, rfl⟩
    refine ih.bind ?_
    rintro rest' _ ⟨memory', rfl⟩
    exact .pure ⟨_, rfl⟩

/-- Sorting out what is covered reports nothing. -/
theorem ensures_uncovered_memory (covered : Expr) (entries : List (String × SymbolicState)) :
    Ensures s (Region.uncovered env covered entries) (fun _ t => ∃ memory,
        t = { s with memory := memory })
      (fun _ => True) := by
  induction entries generalizing s with
  | nil => exact .pure ⟨_, rfl⟩
  | cons entry rest ih =>
    refine Ensures.bind ((ensures_holds_memory _ _).mono (fun _ _ h => h) fun _ _ => trivial) ?_
    rintro new _ ⟨-, memory, rfl⟩
    split
    · refine ih.bind ?_
      rintro added _ ⟨memory', rfl⟩
      exact .pure ⟨_, rfl⟩
    · exact ih

end Silent

/-! ## Strategies -/

/-- Firing a label on a symbolic state. -/
theorem passes_expandSymbolic {s : Session σ (Work SymbolicState)} (simplify : Bool)
    (q : SymbolicState) :
    Ensures s (expandSymbolic env simplify l q) (fun _ t => Passes env s t) (fun _ => True) := by
  refine (ensures_satisfiesGuard_inside q).bind fun enabled r ⟨hr, hInside⟩ => ?_
  split
  · refine ensures_image_bind (.reports_bind fun p hp hStart => ?_)
    refine .modifyWork_bind (.work_bind ?_)
    have hFinish : ∀ fs memory, Ensures
        { p with memory := memory, work := { p.work with issued := p.work.issued + 1 } }
        (do modifyImage fun i =>
              i.addPending { id := i.names + 1, formulas := fs, history := q.history ++ [l.name] }
            report env (.finished (.apply l.name) r.work.image.depth))
        (fun _ t => Passes env s t) (fun _ => True) := by
      intro fs memory
      refine ensures_modifyImage_bind ((ensures_reports env _).mono (fun _ t ⟨ht, hFinish⟩ => ?_)
        fun _ h => h)
      have hTurn : Reports env [.started (.apply l.name) r.work.image.depth,
          .finished (.apply l.name) r.work.image.depth] r t :=
        hStart.trans ⟨hFinish.trace, hFinish.profile⟩
      refine (Passes.of_work_eq hr hInside).trans ⟨.turn rfl hTurn, ?_⟩
      rw [ht]
      show p.work.image.depth = _
      rw [hp]
    dsimp only
    split
    · refine (ensures_simplifyFormulas_memory _).bind ?_
      rintro fs _ ⟨memory, rfl⟩
      exact hFinish fs memory
    · exact hFinish _ _
  · exact .pure (.of_work_eq hr hInside)

/-- Firing a label on a concrete state. -/
theorem passes_expandConcrete {s : Session σ (Work ConcreteState)} (q : ConcreteState) :
    Ensures s (expandConcrete env l q) (fun _ t => Passes env s t) (fun _ => True) := by
  refine (ensures_satisfiesGuard_inside q).bind fun enabled r ⟨hr, hInside⟩ => ?_
  split
  · refine ensures_image_bind (.reports_bind fun p hp hStart => ?_)
    refine Ensures.bind (Q := fun _ t => ∃ memory, t = { p with memory := memory }) ⟨_, rfl⟩ ?_
    rintro answer _ ⟨memory, rfl⟩
    refine .reports_bind fun o ho hFinish => ?_
    have hTurn : Reports env [.started (.apply l.name) r.work.image.depth,
        .finished (.apply l.name) r.work.image.depth] r o :=
          hStart.trans ⟨hFinish.trace, hFinish.profile⟩
    have hDepth : o.work.image.depth = r.work.image.depth := by
      rw [ho]
      show p.work.image.depth = _
      rw [hp]
    have hPasses := (Passes.of_work_eq hr hInside).trans ⟨.turn rfl hTurn, hDepth⟩
    split
    · exact .modifyWork (hPasses.trans ⟨.nothing rfl rfl, rfl⟩)
    · exact .pure hPasses
    · exact .throw trivial
  · exact .pure (.of_work_eq hr hInside)

/-- A strategy takes turns in what it reports. -/
structure Strategy.TakesTurns (env : Surroundings σ) (strategy : Strategy σ S) : Prop where
  expand : ∀ (l : Label) (s : Session σ (Work S)),
    Ensures s (strategy.expand l) (fun _ t => Passes env s t) fun _ => True
  testError : ∀ (l : Label) (s : Session σ (Work S)),
    Ensures s (strategy.testError l) (fun _ t => Passes env s t) fun _ => True
  difference : ∀ (r reached : Region S) (xs : List Variable) (s : Session σ (Work S)),
    Ensures s (strategy.difference r reached xs) (fun _ t => ∃ memory,
        t = { s with memory := memory })
      fun _ => True
  goesOn : ∀ s, Ensures s strategy.goesOn (fun _ t => t = s) fun _ => True

theorem passes_forM {f : S → Step σ S Unit}
    (hf : ∀ q s, Ensures s (f q) (fun _ t => Passes env s t) fun _ => True)
    (s : Session σ (Work S)) :
    Ensures s (do (← image).frontier.states.forM f) (fun _ t => Passes env s t) fun _ => True :=
  ensures_image_bind (Ensures.forM (fun t => Passes env s t)
    (fun q _ t ht => (hf q t).mono (fun _ _ hr => ht.trans hr) fun _ h => h) (.refl env s))

theorem takesTurns_symbolic (env : Surroundings σ) (simplify : Bool) :
    (symbolic env simplify).TakesTurns env where
  expand _ s := passes_forM (fun q _ => passes_expandSymbolic simplify q) s
  testError _ _ := passes_testReachable
  difference _ _ _ _ := ensures_uncovered_memory _ _
  goesOn _ := .pure rfl

theorem takesTurns_synchronised (env : Surroundings σ) (owner : FlagOwner) :
    (synchronised env owner).TakesTurns env where
  expand := (takesTurns_symbolic env true).expand
  testError _ _ := passes_testFrontier owner
  difference := (takesTurns_symbolic env true).difference
  goesOn s := by cases owner <;> exact rfl

theorem takesTurns_enumerative (env : Surroundings σ) : (enumerative env).TakesTurns env where
  expand _ s := passes_forM (fun q _ => passes_expandConcrete q) s
  testError _ _ := passes_testReachable
  difference _ _ _ _ := .pure ⟨_, rfl⟩
  goesOn _ := .pure rfl

/-! ## One depth -/

/-- The successors that a depth finds, before it looks which of them are new. -/
def found (env : Surroundings σ) (strategy : Strategy σ S) (s : Session σ (Work S)) : Region S :=
  match fireDepth env strategy s with
  | .ok _ t => successors strategy t.work.image
  | .error _ _ => {}

/-- The successors that a depth finds after some others. -/
def foundAfter (env : Surroundings σ) (strategy : Strategy σ S) :
    Nat → Session σ (Work S) → Region S
  | 0, s => found env strategy s
  | k + 1, s =>
    match deepen env strategy s with
    | .ok _ t => foundAfter env strategy k t
    | .error _ _ => {}

theorem found_of_fireDepth {interrupted : Bool} (h : fireDepth env strategy s = .ok interrupted r) :
    found env strategy s = successors strategy r.work.image := by
  rw [found, h]

theorem Deepens.foundAfter_add {k : Nat} (h : Deepens env strategy s k false r) (m : Nat) :
    foundAfter env strategy (k + m) s = foundAfter env strategy m r := by
  generalize hInterrupted : false = interrupted at h
  induction h generalizing m with
  | start => rw [Nat.zero_add]
  | @deepen k p t interrupted h hRun ih =>
    rw [Nat.add_assoc, Nat.add_comm 1 m, ih (m + 1) rfl, foundAfter, hRun]

section Depth

variable (hStrategy : strategy.TakesTurns env)

include hStrategy

theorem passes_fireLabels (labels : List Label) :
    Ensures s (fireLabels strategy labels) (fun _ t => Passes env s t) (fun _ => True) :=
  ensures_fireLabels_keeps (Passes env s)
    (fun l _ _ _ t ht => (hStrategy.expand l t).mono (fun _ _ hr => ht.trans hr) fun _ h => h)
    (fun l _ _ _ t ht => (hStrategy.testError l t).mono (fun _ _ hr => ht.trans hr) fun _ h => h)
    (.refl env s)

/-- The end of a depth reports the closing phases, the count and the end of the iteration. -/
theorem ensures_closeDepth_reports (xs : List Variable) (depth : Nat) :
    Ensures s (closeDepth env strategy xs depth)
      (fun _ t => t.work.image.depth = s.work.image.depth ∧
        ∃ closing, Turns Phase.IsClosing depth closing ∧
          Reports env (.finished .iteration depth ::
            .newStates depth s.work.image.pending.size :: closing) s t)
      (fun _ => True) := by
  refine .reports_bind fun w₁ hw₁ h₁ =>
    ensures_image_bind (.reports_bind fun w₂ hw₂ h₂ => .reports_bind
    fun w₃ hw₃ h₃ => ensures_image_bind (ensures_modifyImage_bind (.reports_bind fun w₄ hw₄ h₄ =>
    .reports_bind fun w₅ hw₅ h₅ => ensures_image_bind ?_)))
  refine (hStrategy.difference _ _ _ _).bind ?_
  rintro added _ ⟨memory, rfl⟩
  refine .reports_bind fun w₆ hw₆ h₆ =>
    .modifyWork ⟨?_, _, .cons (.inl rfl) (.cons (.inr rfl) .nil), ?_⟩
  · show w₆.work.image.depth = _
    rw [hw₆]
    show w₅.work.image.depth = _
    rw [hw₅, hw₄]
    show w₃.work.image.depth = _
    rw [hw₃, hw₂, hw₁]
  · rw [hw₁] at h₂
    have hRename : Reports env [.finished .rename depth] w₃ w₄ := ⟨h₄.trace, h₄.profile⟩
    have hDifference : Reports env [.finished .difference depth] w₅ w₆ := ⟨h₆.trace, h₆.profile⟩
    have hAll := ((((h₁.trans h₂).trans h₃).trans hRename).trans h₅).trans hDifference
    exact ⟨hAll.trace, hAll.profile⟩

/-- The body of a depth reports its start and inner phases. -/
theorem ensures_fireDepth_reports :
    Ensures s (fireDepth env strategy)
      (fun _ t => t.work.image.depth = s.work.image.depth + 1 ∧
        ∃ inner, Turns (·.isInner = true) (s.work.image.depth + 1) inner ∧
          Reports env (.started .iteration (s.work.image.depth + 1) :: inner) s t)
      (fun _ => True) := by
  refine .work_bind
    (ensures_modifyImage_bind (ensures_image_bind (.reports_bind fun r hr hStart => ?_)))
  refine (passes_fireLabels hStrategy _).mono (fun _ t ht => ?_) fun _ h => h
  have hDepth : r.work.image.depth = s.work.image.depth + 1 := by rw [hr]
  obtain ⟨inner, hInner, hReports⟩ := ht.inside
  rw [hDepth] at hInner
  have hStarted : Reports env [.started .iteration (s.work.image.depth + 1)] s r :=
    ⟨hStart.trace, hStart.profile⟩
  exact ⟨ht.depth_eq.trans hDepth, inner, hInner, hStarted.trans hReports⟩

/-- A depth reports its iteration, the number of successors that it has found, and how it is
closed. -/
theorem reports_deepen {interrupted : Bool} (h : deepen env strategy s = .ok interrupted t) :
    t.work.image.depth = s.work.image.depth + 1 ∧
      ∃ events, Reports env events s t ∧
        DepthByDepth s.work.image.depth [(found env strategy s).size] events := by
  obtain ⟨r, hFire, hClose⟩ := deepen_cases h
  obtain ⟨hDepth, inner, hInner, hStart⟩ := (ensures_fireDepth_reports hStrategy).of_eq_ok hFire
  obtain ⟨hDepth', closing, hClosing, hEnd⟩ :=
    (ensures_closeDepth_reports hStrategy _ _).of_eq_ok hClose
  refine ⟨hDepth'.trans hDepth, _, hStart.trans hEnd, ?_⟩
  rw [found_of_fireDepth hFire, successors, Std.TreeMap.size_map]
  have hDepths : DepthByDepth s.work.image.depth [r.work.image.pending.size] _ :=
    .cons hInner hClosing (.nil _)
  rwa [List.append_nil] at hDepths

/-- Depths report one after the other. -/
theorem Deepens.reports {k : Nat} {interrupted : Bool}
    (h : Deepens env strategy s k interrupted t) : t.work.image.depth = s.work.image.depth + k ∧
      ∃ events, Reports env events s t ∧ DepthByDepth s.work.image.depth
        ((List.range' (s.work.image.depth + 1) k).map fun depth =>
          (foundAfter env strategy (depth - s.work.image.depth - 1) s).size) events := by
  induction h with
  | start => exact ⟨rfl, [], .nothing rfl rfl, .nil _⟩
  | @deepen k r t interrupted h hRun ih =>
    obtain ⟨hDepth, events, hReports, hDepths⟩ := ih
    obtain ⟨hDepth', later, hLater, hLast⟩ := reports_deepen hStrategy hRun
    refine ⟨by omega, events ++ later, hReports.trans hLater, ?_⟩
    have hFound : foundAfter env strategy (s.work.image.depth + 1 + k - s.work.image.depth - 1) s =
        found env strategy r := by
      rw [show s.work.image.depth + 1 + k - s.work.image.depth - 1 = k + 0 by omega,
        h.foundAfter_add]
      rfl
    rw [List.range'_concat, List.map_append, List.map_singleton, Nat.one_mul, hFound]
    refine hDepths.append ?_
    rwa [List.length_map, List.length_range', ← hDepth]

end Depth

/-! ## Runs -/

/-- A search that returns has gone through as many depths as its image says. -/
theorem Strategy.TakesTurns.exists_deepens (hStrategy : strategy.TakesTurns env)
    {maxDepth : Option Nat} {initial : List S} {i : Image S}
    (h : (breadthFirst env strategy maxDepth initial).run s = some (.ok i t)) :
    ∃ interrupted r ending, Deepens env strategy (begun initial s) i.depth interrupted r ∧
      i = { r.work.image with ending } ∧ t = { r with work := { r.work with image := i } } := by
  obtain ⟨n, interrupted, r, ending, hDeepens, hi, ht⟩ := Search.exists_deepens hStrategy.goesOn h
  have hDepth : i.depth = n := by
    rw [hi]
    exact (hDeepens.reports hStrategy).1.trans (Nat.zero_add n)
  exact ⟨interrupted, r, ending, hDepth ▸ hDeepens, hi, by rw [ht, hi]; rfl⟩

/-- A search reports depth by depth, and with each depth the number of successors that it has
found. -/
theorem reports_search (hStrategy : strategy.TakesTurns env) {maxDepth : Option Nat}
    {initial : List S}
    {i : Image S} (h : (breadthFirst env strategy maxDepth initial).run s = some (.ok i t)) :
    ∃ events, Reports env events s t ∧ DepthByDepth 0
      ((List.range' 1 i.depth).map fun depth =>
        (foundAfter env strategy (depth - 1) (begun initial s)).size) events := by
  obtain ⟨interrupted, r, ending, hDeepens, -, ht⟩ := hStrategy.exists_deepens h
  obtain ⟨-, events, hReports, hDepths⟩ := hDeepens.reports hStrategy
  refine ⟨events, ?_, hDepths⟩
  rw [ht]
  exact ⟨hReports.trace, hReports.profile⟩

theorem observed_search (hWatched : env.watched = true) (hStrategy : strategy.TakesTurns env)
    {maxDepth : Option Nat} {initial : List S} {i : Image S}
    (h : (breadthFirst env strategy maxDepth initial).run s = some (.ok i t)) :
    Observed s t (List.range' 1 i.depth) := by
  obtain ⟨events, hReports, hDepths⟩ := reports_search hStrategy h
  simpa using observed_of_depths hWatched hReports hDepths

/-- **Events are well bracketed.** Whatever the system, the solver, the depth bound and the
reactions of the stop flag: if an unrolling or a search with any strategy returns, then its observer
has got events in which each phase that starts is closed by a finish of the same phase and depth, in
nested order, with guards, applications and tests of novelty inside the iteration of their depth.
The iterations are those of the depths that the run went through, in this order, and a profile at
rest comes to rest again, with an entry for each of them. -/
theorem explorations_bracketed (hWatched : env.watched = true) (maxDepth : Option Nat) :
    (∀ (s : Session σ Unrolling) (ending : Ending) (t : Session σ Unrolling),
      (Unrolling.unroll env maxDepth).run s = some (.ok ending t) →
      Observed s t (List.range' (s.work.currentDepth + 1)
        (t.work.currentDepth - s.work.currentDepth))) ∧
    (∀ (simplify : Bool) (initial : List SymbolicState) (s : Session σ (Work SymbolicState))
      (i : Image SymbolicState) (t : Session σ (Work SymbolicState)),
      (breadthFirst env (symbolic env simplify) maxDepth initial).run s = some (.ok i t) →
      Observed s t (List.range' 1 i.depth)) ∧
    (∀ (owner : FlagOwner) (initial : List SymbolicState) (s : Session σ (Work SymbolicState))
      (i : Image SymbolicState) (t : Session σ (Work SymbolicState)),
      (breadthFirst env (synchronised env owner) maxDepth initial).run s = some (.ok i t) →
      Observed s t (List.range' 1 i.depth)) ∧
    (∀ (initial : List ConcreteState) (s : Session σ (Work ConcreteState)) (i : Image ConcreteState)
      (t : Session σ (Work ConcreteState)),
      (breadthFirst env (enumerative env) maxDepth initial).run s = some (.ok i t) →
      Observed s t (List.range' 1 i.depth)) := by
  refine ⟨fun s ending t h => ?_, fun simplify _ _ _ _ h => ?_, fun owner _ _ _ _ h => ?_,
    fun _ _ _ _ h => ?_⟩
  · obtain ⟨events, hReports, hDepths⟩ := Unrolling.reports_unroll h
    simpa using observed_of_depths hWatched hReports hDepths
  · exact observed_search hWatched (takesTurns_symbolic env simplify) h
  · exact observed_search hWatched (takesTurns_synchronised env owner) h
  · exact observed_search hWatched (takesTurns_enumerative env) h

open scoped Reals

/-- A stop flag that goes up in the middle of the second depth: both explorations still close the
phases that are under way. -/
theorem explorations_bracketed_relay :
    let env : Surroundings Unit :=
      { solver := .exhaustive, react := fun trace stop => stop || 19 ≤ trace.length }
    let s : Session Unit Unrolling := { memory := (), work := { system := relaySystem } }
    let s' : Session Unit (Work SymbolicState) :=
      { memory := (), work := { unrolling := { system := relaySystem } } }
    env.watched = true ∧
    (∃ t, (Unrolling.unroll env none).run s = some (.ok (.stopped 1) t) ∧ Observed s t [1, 2]) ∧
    ∃ i t, (breadthFirst env (synchronised env .own) none [relaySystem.defaultState 1]).run s' =
        some (.ok i t) ∧
      i.ending = .stopped 1 ∧ Observed s' t [1, 2] := by
  intro env s s'
  have hBracketed := @explorations_bracketed Unit env rfl none
  have hUnroll : (Unrolling.unroll env none).returns 4 s (fun ending t =>
      ending = .stopped 1 ∧ t.work.layers.keys = [0, 1, 2]) = true := by
    rw [Unrolling.unroll_eq]
    decide +kernel
  have hSearch : (breadthFirst env (synchronised env .own) none
      [relaySystem.defaultState 1]).returns 4 s'
      (fun i _ => i.ending = .stopped 1 ∧ i.depth = 2) = true := by
    decide +kernel
  obtain ⟨ending, t, hRun, hFound⟩ := Exploration.exists_of_returns hUnroll
  obtain ⟨rfl, hKeys⟩ := of_decide_eq_true hFound
  obtain ⟨i, t', hRun', hFound'⟩ := Exploration.exists_of_returns hSearch
  obtain ⟨hEnding, hDepth⟩ := of_decide_eq_true hFound'
  have hStart : s.work.currentDepth = 0 := Unrolling.currentDepth_eq_getLast? _
  have hEnd : t.work.currentDepth = 2 := by
    rw [Unrolling.currentDepth_eq_getLast?, hKeys]
    rfl
  have hObserved := hBracketed.1 s (.stopped 1) t hRun
  have hObserved' := hBracketed.2.2.1 .own [relaySystem.defaultState 1] s' i t' hRun'
  rw [hStart, hEnd] at hObserved
  rw [hDepth] at hObserved'
  exact ⟨rfl, ⟨t, hRun, hObserved⟩, i, t', hRun', hEnding, hObserved'⟩

end Search

end StateSpace
