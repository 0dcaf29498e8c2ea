import StateSpace.Proofs.Exploration.Events
import StateSpace.Proofs.Unrolling.Bound

/-!
# What unrolling reports

An iteration touches the layer of its own depth and no other one. So after any number of iterations,
the layers are those that were there and one for each iteration, and what an iteration has reported
as the number of its new states is still the number of new states in its layer
(`Unrolling.reports_unroll`).
-/

namespace StateSpace.Unrolling

open Explore

variable {σ : Type} {env : Surroundings σ} {given : Expr → Verdict → Prop} {u v w : Unrolling}
  {s t : Session σ Unrolling} {depth source k n last : Nat} {l : Label}

/-! ## Other layers -/

/-- Nothing has changed but the layer of one depth. -/
structure SameElsewhere (depth : Nat) (u v : Unrolling) : Prop where
  started : u.started = true → v.started = true
  layer : ∀ k ≠ depth, v.layer k = u.layer k
  layers : ∀ k ≠ depth, k ∈ v.layers ↔ k ∈ u.layers
  kept : depth ∈ u.layers → depth ∈ v.layers

namespace SameElsewhere

theorem refl (depth : Nat) (u : Unrolling) : SameElsewhere depth u u :=
  ⟨fun h => h, fun _ _ => rfl, fun _ _ => Iff.rfl, fun h => h⟩

theorem trans (h : SameElsewhere depth u v) (h' : SameElsewhere depth v w) :
    SameElsewhere depth u w where
  started hu := h'.started (h.started hu)
  layer k hk := (h'.layer k hk).trans (h.layer k hk)
  layers k hk := (h'.layers k hk).trans (h.layers k hk)
  kept hu := h'.kept (h.kept hu)

theorem modifyLayer (u : Unrolling) (depth : Nat) (f : Layer → Layer) :
    SameElsewhere depth u (u.modifyLayer depth f) where
  started hu := hu
  layer k hk := by rw [layer_modifyLayer, if_neg hk]
  layers k hk := (mem_layers_modifyLayer f).trans (or_iff_right hk)
  kept _ := (mem_layers_modifyLayer f).mpr (.inl rfl)

theorem currentDepth_eq (h : SameElsewhere 0 u v) : v.currentDepth = u.currentDepth :=
  Nat.le_antisymm (currentDepth_le_of_layers fun k hk => (h.layers k hk).mp)
    (currentDepth_le_of_layers fun k hk => (h.layers k hk).mpr)

end SameElsewhere

/-- Firing a label changes its own depth only. -/
theorem Firing.sameElsewhere (h : Firing given depth source l u v) : SameElsewhere depth u v := by
  cases h with
  | disabled => exact .refl depth u
  | failed =>
    refine ⟨fun hu => by rwa [started_enterError], fun k hk => ?_, fun k hk => ?_, fun _ => ?_⟩
    · rw [layer_enterError, if_neg hk]
    · exact mem_layers_enterError.trans (or_iff_right hk)
    · exact mem_layers_enterError.mpr (.inl rfl)
  | succeeded =>
    refine ⟨fun hu => hu, fun k hk => ?_, fun k hk => ?_, fun _ => ?_⟩
    · rw [layer_enterSuccessor, if_neg hk]
    · exact mem_layers_enterSuccessor.trans (or_iff_right hk)
    · exact mem_layers_enterSuccessor.mpr (.inl rfl)

theorem Sweep.sameElsewhere {tasks : List (Nat × Label)} (h : Sweep given depth tasks u v) :
    SameElsewhere depth u v := by
  induction h with
  | nil => exact .refl depth _
  | cons hFire _ ih => exact hFire.sameElsewhere.trans ih

/-- The start changes depth 0 only. -/
theorem Starting.sameElsewhere (h : Starting given u v) : SameElsewhere 0 u v := by
  have hStarted := h.started
  cases h with
  | already => exact .refl 0 u
  | default =>
    have hListed := SameElsewhere.modifyLayer u.withDefault 0 fun layer =>
      { layer with fresh := layer.fresh ++ [u.states.size], all := layer.all ++ [u.states.size] }
    exact ⟨fun _ => hStarted, hListed.layer, hListed.layers, hListed.kept⟩
  | built _ _ _ hSweep =>
    have hBuilt := (SameElsewhere.modifyLayer u.withDefault 0 id).trans hSweep.sameElsewhere
    exact ⟨fun _ => hStarted, hBuilt.layer, hBuilt.layers, hBuilt.kept⟩

/-- An iteration opens the layer of its depth. -/
theorem sameElsewhere_iterate (hStarted : s.work.started = true)
    (h : iterate env (depth + 1) s = .ok () t) :
    SameElsewhere (depth + 1) s.work t.work ∧ depth + 1 ∈ t.work.layers := by
  obtain ⟨⟨done, -, hSweep⟩, -⟩ := (ensures_iterate hStarted).of_eq_ok h
  have hOpened := SameElsewhere.modifyLayer s.work (depth + 1) fun _ => {}
  exact ⟨hOpened.trans hSweep.sameElsewhere,
    hSweep.sameElsewhere.kept ((mem_layers_modifyLayer _).mpr (.inl rfl))⟩

/-- Iterations leave the layers before them as they are, and add one for each. -/
theorem layers_rounds (hStarted : s.work.started = true)
    (h : rounds (iteration env) n depth s = .ok last t) :
    (∀ k ≤ depth, t.work.layer k = s.work.layer k) ∧
      ∀ k, k ∈ t.work.layers ↔ k ∈ s.work.layers ∨ depth < k ∧ k ≤ depth + n := by
  induction n generalizing depth s with
  | zero =>
    cases h
    exact ⟨fun _ _ => rfl, fun k => (or_iff_left (by omega)).symm⟩
  | succ n ih =>
    obtain ⟨next, r, hRound, hRest⟩ := bind_eq_ok.mp h
    obtain ⟨rfl, hIterate⟩ := iteration_eq_ok hRound
    obtain ⟨hSame, hOpened⟩ := sameElsewhere_iterate hStarted hIterate
    obtain ⟨hLayer, hLayers⟩ := ih (hSame.started hStarted) hRest
    refine ⟨fun k hk => ?_, fun k => ?_⟩
    · rw [hLayer k (by omega), hSame.layer k (by omega)]
    · rw [hLayers]
      by_cases heq : k = depth + 1
      · subst heq
        exact iff_of_true (.inl hOpened) (.inr (by omega))
      · exact or_congr (hSame.layers k heq) (by omega)

/-- The current depth as it can be evaluated. -/
theorem currentDepth_eq_getLast? (u : Unrolling) :
    u.currentDepth = u.layers.keys.getLast?.getD 0 := by
  rw [currentDepth, Std.TreeMap.maxKey?_eq_getLast?_keys]

/-- Each round takes the unrolling one depth further. -/
theorem currentDepth_rounds (hStarted : s.work.started = true)
    (h : rounds (iteration env) n s.work.currentDepth s = .ok last t) :
    t.work.currentDepth = s.work.currentDepth + n := by
  obtain ⟨-, hLayers⟩ := layers_rounds hStarted h
  cases n with
  | zero =>
    cases h
    rfl
  | succ n =>
    refine currentDepth_eq ((hLayers _).mpr (.inr (by omega))) fun k hk => ?_
    rcases (hLayers k).mp hk with hk | hk
    · have := le_currentDepth hk
      omega
    · exact hk.2

/-! ## Events -/

/-- Firing a label reports inner phases of its depth. -/
theorem ensures_fire_inside :
    Ensures s (fire env depth source l) (fun _ t => Inside env depth s t) (fun _ => True) := by
  refine .work_bind ((ensures_holdsDuring_inside rfl _ _ _).bind fun enabled t ⟨_, ht⟩ => ?_)
  split
  · split
    · exact .modifyWork (ht.trans (.nothing rfl rfl))
    · refine .reports_bind fun r _ hStart => .work_bind (.reports_bind fun q _ hFinish => ?_)
      have hq := ht.trans (.turn rfl (hStart.trans hFinish))
      have hEnter : ∀ new (p : Session σ Unrolling), Inside env depth q p →
          Ensures p (modifyWork fun u => u.enterSuccessor l source depth
            ((l.applyTo (s.work.state source) r.work.nextTransition r.work.states.size).withHistory
              (s.work.state source).history l.name) new)
            (fun _ t => Inside env depth s t) (fun _ => True) :=
        fun new p hp => .modifyWork ((hq.trans hp).trans (.nothing rfl rfl))
      split
      · exact hEnter true q (.refl env depth q)
      · exact (ensures_holdsDuring_inside rfl _ _ _).bind fun new p ⟨_, hp⟩ => hEnter new p hp
  · exact .pure ht

/-- So does firing labels on a state. -/
theorem ensures_fireLabels_inside (labels : List Label) :
    Ensures s (fireLabels env depth source labels) (fun _ t => Inside env depth s t)
      (fun _ => True) := by
  induction labels generalizing s with
  | nil => exact .pure (.refl env depth s)
  | cons l ls ih =>
    refine .stopped_bind ?_
    split
    · exact .pure (.refl env depth s)
    · split
      · exact ensures_fire_inside.bind fun _ t ht => ih.mono (fun _ r hr => ht.trans hr)
          fun _ h => h
      · exact ih

/-- So does firing labels on the states of a depth. -/
theorem ensures_fireFrontier_inside (labels : List Label) (sources : List Nat) :
    Ensures s (fireFrontier env depth labels sources) (fun _ t => Inside env depth s t)
      (fun _ => True) := by
  induction sources generalizing s with
  | nil => exact .pure (.refl env depth s)
  | cons source rest ih =>
    unfold fireFrontier
    split
    · exact ih
    · refine (ensures_fireLabels_inside labels).bind fun through t ht => ?_
      split
      · exact ih.mono (fun _ r hr => ht.trans hr) fun _ h => h
      · exact .pure ht

/-- The start reports nothing, whatever constructors it fires. -/
theorem ensures_start_reports :
    Ensures s (start env) (fun _ t => Reports env [] s t) (fun _ => True) := by
  refine .work_bind ?_
  split
  · exact .pure (.nothing rfl rfl)
  · dsimp only
    split
    · exact .throw trivial
    · refine .modifyWork_bind ?_
      split
      · exact .modifyWork_bind (.modifyWork (.nothing rfl rfl))
      · refine .modifyWork_bind ?_
        refine Ensures.bind (Ensures.forM (fun t => Reports env [] s t) (fun l _ t ht => ?_)
          (.nothing rfl rfl)) fun _ t ht => .modifyWork_bind (.modifyWork ⟨ht.trace, ht.profile⟩)
        refine ensures_fire_inside.mono (fun _ r ⟨events, _, hr⟩ => ?_) fun _ h => h
        exact ht.trans hr.of_quietly

/-- An iteration reports its phase and counts what it has listed as new. -/
theorem ensures_iterate_reports :
    Ensures s (iterate env (depth + 1))
      (fun _ t => ∃ inner, Turns (·.isInner = true) (depth + 1) inner ∧
        Reports env ((.started .iteration (depth + 1) :: inner) ++
            [.finished .iteration (depth + 1),
          .newStates (depth + 1) (t.work.layer (depth + 1)).fresh.length]) s t)
      (fun _ => True) := by
  unfold iterate
  rw [if_neg (Nat.succ_ne_zero depth)]
  refine ensures_start_reports.bind fun _ r hr => .reports_bind fun q _ hStart => ?_
  refine .modifyWork_bind (.work_bind ?_)
  refine (ensures_fireFrontier_inside _ _).bind fun _ p ⟨inner, hInner, hp⟩ => ?_
  refine .reports_bind fun o ho hFinish => .work_bind ?_
  refine (ensures_reports env _).mono (fun _ t ⟨ht, hCount⟩ => ⟨inner, hInner, ?_⟩) fun _ h => h
  have hFired : Reports env inner q p := ⟨hp.trace, hp.profile⟩
  rw [ht]
  exact ((hr.trans hStart).trans hFired).trans (hFinish.trans hCount)

/-- Iterations report depth by depth, with the number of new states that the layers have in the
end. -/
theorem reports_rounds (hStarted : s.work.started = true)
    (h : rounds (iteration env) n depth s = .ok last t) :
    ∃ events, Reports env events s t ∧ DepthByDepth depth
      ((List.range' (depth + 1) n).map fun k => (t.work.layer k).fresh.length) events := by
  induction n generalizing depth s with
  | zero =>
    cases h
    exact ⟨[], .nothing rfl rfl, .nil _⟩
  | succ n ih =>
    obtain ⟨next, r, hRound, hRest⟩ := bind_eq_ok.mp h
    obtain ⟨rfl, hIterate⟩ := iteration_eq_ok hRound
    have hr := (sameElsewhere_iterate hStarted hIterate).1.started hStarted
    obtain ⟨inner, hInner, hReports⟩ := ensures_iterate_reports.of_eq_ok hIterate
    obtain ⟨events, hEvents, hDepths⟩ := ih hr hRest
    refine ⟨_, hReports.trans hEvents, ?_⟩
    rw [List.range'_succ, List.map_cons, (layers_rounds hr hRest).1 (depth + 1) (Nat.le_refl _)]
    exact .cons hInner .nil hDepths

/-! ## Runs -/

/-- Unrolling reports depth by depth, from the depth that it goes on from to the one that it comes
to, and what it reports for a depth is the number of new states in its layer. -/
theorem reports_unroll {maxDepth : Option Nat} {ending : Ending}
    (h : (unroll env maxDepth).run s = some (.ok ending t)) :
    ∃ events, Reports env events s t ∧ DepthByDepth s.work.currentDepth
      ((List.range' (s.work.currentDepth + 1) (t.work.currentDepth - s.work.currentDepth)).map
        fun k => (t.work.layer k).fresh.length) events := by
  obtain ⟨r, n, _, hStart, hRounds⟩ := exists_rounds_of_run h
  have hStarting := (ensures_start.of_eq_ok hStart).1
  have hDepth := hStarting.sameElsewhere.currentDepth_eq
  obtain ⟨events, hEvents, hDepths⟩ := reports_rounds hStarting.started hRounds
  refine ⟨events, (ensures_start_reports.of_eq_ok hStart).trans hEvents, ?_⟩
  rwa [currentDepth_rounds hStarting.started hRounds, hDepth, Nat.add_sub_cancel_left, ← hDepth]

end StateSpace.Unrolling
