import StateSpace.Proofs.Execution
import StateSpace.Proofs.Exploration.Rounds
import StateSpace.Proofs.Unrolling.Basic
import StateSpace.Unrolling.Unroll

/-!
# What unrolling does to an unrolling

Firing a label on a state does one of three things to the unrolling (`Unrolling.Firing`): nothing,
because the precondition cannot hold; enter the error state; or enter a successor. An iteration
fires labels on states one after the other (`Unrolling.Sweep`), all of them unless it is cut short.
Every statement about unrolling is proved for one firing, and from there for sweeps.
-/

namespace StateSpace.Unrolling

open Explore

variable {σ : Type} {env : Surroundings σ} {given : Expr → Verdict → Prop} {u v w : Unrolling}
  {l : Label} {s : Session σ Unrolling} {depth source : Nat} {record : σ → Expr → Verdict → Prop}

/-- The successor that firing a label on a state enters. -/
def successor (u : Unrolling) (l : Label) (source : Nat) : SymbolicState :=
  (l.applyTo (u.state source) u.nextTransition u.states.size).withHistory
    (u.state source).history l.name

theorem bare_entered (u : Unrolling) (l : Label) (source depth : Nat) (new : Bool) :
    ((u.enterSuccessor l source depth (u.successor l source) new).state u.states.size).bare =
      (u.successor l source).bare := by
  rw [bare_enterSuccessor, if_pos rfl]

theorem formulas_entered (u : Unrolling) (l : Label) (source depth : Nat) (new : Bool) :
    ((u.enterSuccessor l source depth (u.successor l source) new).state u.states.size).formulas =
      (l.applyTo (u.state source) u.nextTransition u.states.size).formulas :=
  (SymbolicState.formulas_of_bare (bare_entered u l source depth new)).trans rfl

/-- What firing a label on a state can do, with the answers that it rests on: `given` are the
answers that were given. -/
inductive Firing (given : Expr → Verdict → Prop) (depth source : Nat) (l : Label) (u : Unrolling) :
    Unrolling → Prop where
  | disabled (hGuard : given (l.guardOn (u.state source).toExpr) .unsat) :
      Firing given depth source l u u
  | failed (hGuard : given (l.guardOn (u.state source).toExpr) .sat)
      (hError : l.isError = true) : Firing given depth source l u (u.enterError l source depth)
  | succeeded (new : Bool) (hGuard : given (l.guardOn (u.state source).toExpr) .sat)
      (hError : l.isError = false)
      (hNew : if l.isConstructor then new = true else
        given ((u.successor l source).outside u.reached) (if new then .sat else .unsat)) :
      Firing given depth source l u
        (u.enterSuccessor l source depth (u.successor l source) new)

/-- What is known of answers may be weakened. -/
theorem Firing.mono {given' : Expr → Verdict → Prop} (h : Firing given depth source l u v)
    (hGiven : ∀ e verdict, given e verdict → given' e verdict) :
    Firing given' depth source l u v := by
  cases h with
  | disabled hGuard => exact .disabled (hGiven _ _ hGuard)
  | failed hGuard hError => exact .failed (hGiven _ _ hGuard) hError
  | succeeded new hGuard hError hNew =>
    refine .succeeded new (hGiven _ _ hGuard) hError ?_
    split at hNew
    · next hConstructor =>
      rw [if_pos hConstructor]
      exact hNew
    · next hConstructor =>
      rw [if_neg hConstructor]
      exact hGiven _ _ hNew

theorem Firing.grows (h : Firing given depth source l u v) (hu : u.WellFormed) :
    Grows depth u v := by
  cases h with
  | disabled => exact .refl depth u
  | failed => exact grows_enterError hu
  | succeeded => exact grows_enterSuccessor hu rfl

theorem Firing.wellFormed (h : Firing given depth source l u v) (hu : u.WellFormed) :
    v.WellFormed := by
  cases h with
  | disabled => exact hu
  | failed => exact hu.enterError
  | succeeded => exact hu.enterSuccessor rfl rfl

/-- Firings one after the other. -/
inductive Sweep (given : Expr → Verdict → Prop) (depth : Nat) :
    List (Nat × Label) → Unrolling → Unrolling → Prop
  | nil {u : Unrolling} : Sweep given depth [] u u
  | cons {u v w : Unrolling} {source : Nat} {l : Label} {rest : List (Nat × Label)}
      (hFire : Firing given depth source l u v) (hRest : Sweep given depth rest v w) :
      Sweep given depth ((source, l) :: rest) u w

theorem Sweep.append {tasks tasks' : List (Nat × Label)} (h : Sweep given depth tasks u v)
    (h' : Sweep given depth tasks' v w) : Sweep given depth (tasks ++ tasks') u w := by
  induction h with
  | nil => exact h'
  | cons hFire _ ih => exact .cons hFire (ih h')

theorem Sweep.mono {given' : Expr → Verdict → Prop} {tasks : List (Nat × Label)}
    (h : Sweep given depth tasks u v) (hGiven : ∀ e verdict, given e verdict → given' e verdict) :
    Sweep given' depth tasks u v := by
  induction h with
  | nil => exact .nil
  | cons hFire _ ih => exact .cons (hFire.mono hGiven) ih

/-- What one firing keeps, a sweep keeps, and what one firing settles stays settled: `Done` of a
task holds once the task is fired. -/
theorem Sweep.keeps {tasks : List (Nat × Label)} (Inv : Unrolling → Prop)
    (Done : Unrolling → Nat × Label → Prop)
    (hStep : ∀ task ∈ tasks, ∀ u v, Inv u → Firing given depth task.1 task.2 u v →
      Inv v ∧ Done v task ∧ ∀ other, Done u other → Done v other)
    (h : Sweep given depth tasks u v) (hu : Inv u) :
    Inv v ∧ (∀ task ∈ tasks, Done v task) ∧ ∀ other, Done u other → Done v other := by
  induction h with
  | nil => exact ⟨hu, by simp, fun _ h => h⟩
  | @cons u v w source l rest hFire hRest ih =>
    obtain ⟨hv, hDone, hKept⟩ := hStep (source, l) List.mem_cons_self u v hu hFire
    obtain ⟨hw, hAll, hStays⟩ := ih (fun task hTask => hStep task (List.mem_cons_of_mem _ hTask)) hv
    exact ⟨hw, List.forall_mem_cons.mpr ⟨hStays _ hDone, hAll⟩, fun other h => hStays _ (hKept _ h)⟩

/-- A sweep that may have been cut short. -/
def CutSweep (given : Expr → Verdict → Prop) (depth : Nat) (tasks : List (Nat × Label))
    (u v : Unrolling) : Prop :=
  ∃ done, done <+: tasks ∧ Sweep given depth done u v

namespace CutSweep

variable {tasks tasks' : List (Nat × Label)}

theorem nil (tasks : List (Nat × Label)) (u : Unrolling) : CutSweep given depth tasks u u :=
  ⟨[], List.nil_prefix, .nil⟩

theorem mono {given' : Expr → Verdict → Prop} (h : CutSweep given depth tasks u v)
    (hGiven : ∀ e verdict, given e verdict → given' e verdict) :
    CutSweep given' depth tasks u v := by
  obtain ⟨done, hDone, hSweep⟩ := h
  exact ⟨done, hDone, hSweep.mono hGiven⟩

theorem cons (h : CutSweep given depth tasks v w) (hFire : Firing given depth source l u v) :
    CutSweep given depth ((source, l) :: tasks) u w := by
  obtain ⟨done, hDone, hSweep⟩ := h
  exact ⟨(source, l) :: done, List.cons_prefix_cons.mpr ⟨rfl, hDone⟩, .cons hFire hSweep⟩

theorem append_right (h : CutSweep given depth tasks u v) (tasks' : List (Nat × Label)) :
    CutSweep given depth (tasks ++ tasks') u v := by
  obtain ⟨done, hDone, hSweep⟩ := h
  exact ⟨done, hDone.trans (List.prefix_append _ _), hSweep⟩

theorem append_left (h : CutSweep given depth tasks' v w) (hSweep : Sweep given depth tasks u v) :
    CutSweep given depth (tasks ++ tasks') u w := by
  obtain ⟨done, hDone, hSweep'⟩ := h
  exact ⟨tasks ++ done, (List.prefix_append_right_inj tasks).mpr hDone, hSweep.append hSweep'⟩

end CutSweep

theorem Sweep.grows {tasks : List (Nat × Label)} (h : Sweep given depth tasks u v)
    (hu : u.WellFormed) : Grows depth u v ∧ v.WellFormed := by
  induction h with
  | nil => exact ⟨.refl depth _, hu⟩
  | cons hFire _ ih =>
    obtain ⟨hGrows, hwf⟩ := ih (hFire.wellFormed hu)
    exact ⟨(hFire.grows hu).trans hGrows, hwf⟩

theorem Sweep.cut {tasks : List (Nat × Label)} (h : Sweep given depth tasks u v) :
    CutSweep given depth tasks u v :=
  ⟨tasks, List.prefix_refl _, h⟩

/-- The error state given nothing, whatever is fired. -/
theorem Firing.formulas_errorState (h : Firing given depth source l u v) (hu : u.WellFormed) :
    v.errorState.formulas = u.errorState.formulas := by
  cases h with
  | disabled => rfl
  | failed =>
    have hBare := errorState_enterError l source depth hu.nonempty
    split at hBare <;> exact (SymbolicState.formulas_of_bare hBare).trans rfl
  | succeeded new =>
    have hBare := bare_enterSuccessor u l source depth (u.successor l source) new errorId
    rw [if_neg (Nat.ne_of_lt hu.nonempty)] at hBare
    exact SymbolicState.formulas_of_bare hBare

theorem Sweep.formulas_errorState {tasks : List (Nat × Label)} (h : Sweep given depth tasks u v)
    (hu : u.WellFormed) : v.errorState.formulas = u.errorState.formulas := by
  induction h with
  | nil => rfl
  | cons hFire _ ih => exact (ih (hFire.wellFormed hu)).trans (hFire.formulas_errorState hu)

theorem CutSweep.grows {tasks : List (Nat × Label)} (h : CutSweep given depth tasks u v)
    (hu : u.WellFormed) : Grows depth u v ∧ v.WellFormed := by
  obtain ⟨done, -, hSweep⟩ := h
  exact hSweep.grows hu

/-! ## Runs -/

/-- Firing a label, with its answers on record. -/
theorem ensures_fire_onward (hRecords : env.solver.Records record) :
    Ensures s (fire env depth source l)
      (fun _ t => (Firing (record t.memory) depth source l s.work t.work ∧ Onward record s t) ∧
        (env.Steady → s.stop = false → t.stop = false))
      (fun t => Onward record s t ∧ t.work = s.work) := by
  refine .work_bind ?_
  refine (ensures_holdsDuring_onward hRecords _ _ _ _).bind fun enabled t ⟨hGuard, hst, ht⟩ => ?_
  cases enabled with
  | false =>
    refine .pure ⟨⟨?_, hst⟩, ht.2⟩
    rw [ht.1]
    exact .disabled hGuard
  | true =>
    simp only [if_true] at hGuard ⊢
    by_cases hError : l.isError = true
    · rw [if_pos hError]
      refine .modifyWork ⟨⟨?_, hst⟩, ht.2⟩
      simp only [ht.1]
      exact .failed hGuard hError
    · rw [if_neg hError]
      refine (ensures_report_onward env record (by simp)).bind fun _ r ⟨htr, hr⟩ => .work_bind ?_
      refine (ensures_report_onward env record (by simp)).bind fun _ q ⟨hrq, hq⟩ => ?_
      have hrs := ht.trans hr
      have hqs := hrs.trans hq
      have htq := htr.trans hrq
      -- the reports in between leave the data alone, so the successor is that of the first session
      have hSuccessor : (l.applyTo (s.work.state source) r.work.nextTransition
          r.work.states.size).withHistory (s.work.state source).history l.name =
          s.work.successor l source := by
        rw [successor, hrs.1]
      rw [hSuccessor, hrs.1]
      -- a constructor enters its state unasked, any other label after a question about it
      have hEnter : ∀ new (p : Session σ Unrolling), Undisturbed env s p → Onward record t p →
          (if l.isConstructor then new = true else
            record p.memory ((s.work.successor l source).outside s.work.reached)
              (if new then .sat else .unsat)) →
          Ensures p (modifyWork fun u =>
              u.enterSuccessor l source depth (s.work.successor l source) new)
            (fun _ t => (Firing (record t.memory) depth source l s.work t.work ∧
                Onward record s t) ∧
              (env.Steady → s.stop = false → t.stop = false))
            (fun t => Onward record s t ∧ t.work = s.work) := by
        intro new p hp htp hNew
        refine .modifyWork ⟨⟨?_, hst.trans htp⟩, hp.2⟩
        simp only [hp.1]
        exact .succeeded new (htp _ _ hGuard) (by simpa using hError) hNew
      by_cases hConstructor : l.isConstructor = true
      · rw [if_pos hConstructor]
        exact hEnter true q hqs htq (by rw [if_pos hConstructor])
      · rw [if_neg hConstructor]
        refine ((ensures_holdsDuring_onward hRecords _ _ _ _).mono (fun _ _ h => h) ?_).bind ?_
        · intro p ⟨hqp, hp⟩
          exact ⟨(hst.trans htq).trans hqp, hp.trans hqs.1⟩
        · intro new p ⟨hNew, hqp, hp⟩
          exact hEnter new p (hqs.trans hp) (htq.trans hqp) (by rwa [if_neg hConstructor])

theorem ensures_fire :
    Ensures s (fire env depth source l)
      (fun _ t => Firing env.solver.Answers depth source l s.work t.work ∧
        (env.Steady → s.stop = false → t.stop = false))
      (fun t => t.work = s.work) :=
  (ensures_fire_onward env.solver.records_answers).mono (fun _ _ h => ⟨h.1.1, h.2⟩) fun _ h => h.2

/-- The firings of all labels but the constructors on one state. -/
def labelTasks (source : Nat) (labels : List Label) : List (Nat × Label) :=
  (labels.filter (!·.isConstructor)).map fun l => (source, l)

/-- The firings that an iteration has to do: all labels on all states but the error state. -/
def tasks (labels : List Label) (sources : List Nat) : List (Nat × Label) :=
  (sources.filter (· ≠ errorId)).flatMap fun source => labelTasks source labels

theorem mem_tasks {labels : List Label} {sources : List Nat} {task : Nat × Label} :
    task ∈ tasks labels sources ↔
      (task.1 ∈ sources ∧ task.1 ≠ errorId) ∧ task.2 ∈ labels ∧ task.2.isConstructor = false := by
  obtain ⟨source, l⟩ := task
  simp [tasks, labelTasks]

/-- Firing labels on a state: a sweep, cut short only by the flag or a failure. -/
theorem ensures_fireLabels_onward (hRecords : env.solver.Records record) (labels : List Label) :
    Ensures s (fireLabels env depth source labels)
      (fun through t =>
        (CutSweep (record t.memory) depth (labelTasks source labels) s.work t.work ∧
          Onward record s t) ∧
        (through = true → Sweep (record t.memory) depth (labelTasks source labels) s.work t.work) ∧
        (env.Steady → s.stop = false → through = true ∧ t.stop = false))
      (fun t =>
        CutSweep (record t.memory) depth (labelTasks source labels) s.work t.work ∧
          Onward record s t) := by
  induction labels generalizing s with
  | nil => exact ⟨⟨.nil _ _, .refl s⟩, fun _ => .nil, fun _ hs => ⟨rfl, hs⟩⟩
  | cons l ls ih =>
    refine .stopped_bind ?_
    split
    · next hStop => exact ⟨⟨.nil _ _, .refl s⟩, by simp, by simp [hStop]⟩
    · split
      · next hFires =>
        have hTasks : labelTasks source (l :: ls) = (source, l) :: labelTasks source ls := by
          simp [labelTasks, hFires]
        rw [hTasks]
        -- a firing that fails has changed nothing: the sweep is cut before it
        have hFailed : ∀ t : Session σ Unrolling, Onward record s t ∧ t.work = s.work →
            CutSweep (record t.memory) depth ((source, l) :: labelTasks source ls) s.work t.work ∧
              Onward record s t := by
          rintro t ⟨hst, ht⟩
          rw [ht]
          exact ⟨.nil _ _, hst⟩
        refine ((ensures_fire_onward hRecords).mono (fun _ _ h => h) hFailed).bind
          fun _ t ⟨⟨hFire, hst⟩, ht⟩ => ?_
        refine ih.mono (fun through r ⟨⟨hCut, htr⟩, hAll, hr⟩ => ?_) fun r ⟨hCut, htr⟩ =>
          ⟨hCut.cons (hFire.mono htr), hst.trans htr⟩
        exact ⟨⟨hCut.cons (hFire.mono htr), hst.trans htr⟩,
          fun hThrough => .cons (hFire.mono htr) (hAll hThrough),
          fun hSteady hs => hr hSteady (ht hSteady hs)⟩
      · next hFires =>
        have hTasks : labelTasks source (l :: ls) = labelTasks source ls := by
          simp [labelTasks, hFires]
        rw [hTasks]
        exact ih

/-- Firing labels on the states of a depth. -/
theorem ensures_fireFrontier_onward (hRecords : env.solver.Records record) (labels : List Label)
    (sources : List Nat) :
    Ensures s (fireFrontier env depth labels sources)
      (fun _ t =>
        (CutSweep (record t.memory) depth (tasks labels sources) s.work t.work ∧
          Onward record s t) ∧
        (env.Steady → s.stop = false →
          Sweep (record t.memory) depth (tasks labels sources) s.work t.work ∧ t.stop = false))
      (fun t =>
        CutSweep (record t.memory) depth (tasks labels sources) s.work t.work ∧
          Onward record s t) := by
  induction sources generalizing s with
  | nil => exact ⟨⟨.nil _ _, .refl s⟩, fun _ hs => ⟨.nil, hs⟩⟩
  | cons source rest ih =>
    unfold fireFrontier
    split
    · next hError =>
      have hTasks : tasks labels (source :: rest) = tasks labels rest := by simp [tasks, hError]
      rw [hTasks]
      exact ih
    · next hError =>
      have hTasks : tasks labels (source :: rest) = labelTasks source labels ++
        tasks labels rest := by
        simp [tasks, hError]
      rw [hTasks]
      refine ((ensures_fireLabels_onward hRecords labels).mono (fun _ _ h => h)
        fun t h => ⟨h.1.append_right _, h.2⟩).bind fun through t ⟨⟨hCut, hst⟩, hAll, ht⟩ => ?_
      cases through with
      | false =>
        refine ⟨⟨hCut.append_right _, hst⟩, fun hSteady hs => ?_⟩
        -- only the flag cuts the labels short, and it is down
        cases (ht hSteady hs).1
      | true =>
        have hRest : ∀ r, CutSweep (record r.memory) depth (tasks labels rest) t.work r.work ∧
            Onward record t r → CutSweep (record r.memory) depth
              (labelTasks source labels ++ tasks labels rest) s.work r.work ∧ Onward record s r :=
          fun r ⟨hCut', htr⟩ => ⟨hCut'.append_left ((hAll rfl).mono htr), hst.trans htr⟩
        refine ih.mono (fun _ r ⟨hCut', hr⟩ => ⟨hRest r hCut', fun hSteady hs => ?_⟩) hRest
        obtain ⟨hSweep, hStop⟩ := hr hSteady (ht hSteady hs).2
        exact ⟨((hAll rfl).mono hCut'.2).append hSweep, hStop⟩

/-- An iteration of a started unrolling empties its layer and does its tasks, with the answers on
record. -/
theorem ensures_iterate_onward (hRecords : env.solver.Records record)
    (hStarted : s.work.started = true) :
    let sweepTasks := tasks s.work.system.labels (s.work.layer depth).fresh
    let emptied := s.work.modifyLayer (depth + 1) fun _ => {}
    Ensures s (iterate env (depth + 1))
      (fun _ t => (CutSweep (record t.memory) (depth + 1) sweepTasks emptied t.work ∧
          Onward record s t) ∧
        (env.Steady → s.stop = false →
          Sweep (record t.memory) (depth + 1) sweepTasks emptied t.work) ∧
        (env.Calm → s.stop = false → t.stop = false))
      (fun t => CutSweep (record t.memory) (depth + 1) sweepTasks emptied t.work ∨
        t.work = s.work) := by
  intro sweepTasks emptied
  unfold iterate
  rw [if_neg (Nat.succ_ne_zero depth)]
  have hStart : Ensures s (start env) (fun _ t => t = s) (fun t =>
      CutSweep (record t.memory) (depth + 1) sweepTasks emptied t.work ∨ t.work = s.work) := by
    refine .work_bind ?_
    rw [if_pos hStarted]
    exact .pure rfl
  refine hStart.bind fun _ t ht => ?_
  subst ht
  refine (ensures_report_onward env record (by simp)).bind fun _ r ⟨htr, hr⟩ =>
    .modifyWork_bind (.work_bind ?_)
  simp only [hr.1]
  -- emptying a layer leaves the one before it as it is
  have hFrontier : (emptied.layer (depth + 1 - 1)).fresh = (t.work.layer depth).fresh := by
    simp [emptied]
  show Ensures _ (fireFrontier env (depth + 1) t.work.system.labels
    (emptied.layer (depth + 1 - 1)).fresh >>= _) _ _
  rw [hFrontier]
  refine ((ensures_fireFrontier_onward hRecords _ _).mono (fun _ _ h => h)
    fun _ h => .inl h.1).bind fun _ q ⟨⟨hCut, hrq⟩, hAll⟩ => ?_
  refine (ensures_report_onward env record (by simp)).bind fun _ p ⟨hqp, hp⟩ => .work_bind ?_
  refine ((ensures_report_memory env _).and (ensures_report_calm _)).mono ?_ fun _ h => h
  intro _ o ⟨hMemory, hWork, hCalm⟩
  rw [hMemory, hWork, hp.1]
  have htp : Onward record t p := (htr.trans hrq).trans hqp
  refine ⟨⟨hCut.mono hqp, fun e verdict h => hMemory ▸ htp e verdict h⟩, fun hSteady hs => ?_,
    fun hEnv hs => ?_⟩
  · exact (hAll hSteady (hr.2 hSteady hs)).1.mono hqp
  · exact hCalm hEnv (hp.2 hEnv.steady (hAll hEnv.steady (hr.2 hEnv.steady hs)).2)

/-- An iteration is a sweep over the new states of the depth before. -/
theorem ensures_iterate (hStarted : s.work.started = true) :
    let sweepTasks := tasks s.work.system.labels (s.work.layer depth).fresh
    let emptied := s.work.modifyLayer (depth + 1) fun _ => {}
    Ensures s (iterate env (depth + 1))
      (fun _ t => CutSweep env.solver.Answers (depth + 1) sweepTasks emptied t.work ∧
        (env.Steady → s.stop = false →
          Sweep env.solver.Answers (depth + 1) sweepTasks emptied t.work) ∧
        (env.Calm → s.stop = false → t.stop = false))
      (fun t => CutSweep env.solver.Answers (depth + 1) sweepTasks emptied t.work ∨
        t.work = s.work) :=
  (ensures_iterate_onward env.solver.records_answers hStarted).mono (fun _ _ h => ⟨h.1.1, h.2⟩)
    fun _ h => h

section Loops

variable (Inv : Unrolling → Prop) (hIterate : ∀ depth (s : Session σ Unrolling), Inv s.work →
  Ensures s (iterate env (depth + 1)) (fun _ t => Inv t.work) (fun t => Inv t.work))

include hIterate

/-- What an iteration keeps, whether it returns or fails, a turn keeps. -/
theorem ensures_turn (maxDepth : Option Nat) (depth : Nat) (hs : Inv s.work) :
    Ensures s (turn env maxDepth depth) (fun _ t => Inv t.work) (fun t => Inv t.work) := by
  refine .work_bind ?_
  split
  · exact .pure hs
  · refine .stopped_bind ?_
    split
    · exact .pure hs
    · split
      · exact .pure hs
      · refine (hIterate depth s hs).bind fun _ t ht => .stopped_bind ?_
        split
        · exact .pure ht
        · exact .pure ht

/-- What the start ensures and an iteration keeps, whether it returns or fails, unrolling keeps. -/
theorem ensures_unroll {R : Session σ Unrolling → Prop} {maxDepth : Option Nat}
    (hStart : Ensures s (start env) (fun _ t => Inv t.work) R) (hR : ∀ t, Inv t.work → R t)
    (n : Nat) : Ensures s ((unroll env maxDepth).after n) (fun _ t => Inv t.work) R := by
  have hTurn : ∀ depth (t : Session σ Unrolling), Inv t.work →
      Ensures t ((unroll env maxDepth).turn depth)
        (fun next r => next.Satisfies (fun _ => Inv r.work) (fun _ => Inv r.work)) R := by
    intro depth t ht
    refine (ensures_turn Inv hIterate maxDepth depth ht).mono (fun next r hr => ?_) fun r hr =>
      hR r hr
    cases next <;> exact hr
  have hFirst : Ensures s (unroll env maxDepth).first (fun _ t => Inv t.work) R :=
    hStart.bind fun _ t ht => .work_bind (.pure ht)
  refine (Exploration.ensures_after hTurn hFirst n).mono (fun next t ht => ?_) fun _ h => h
  cases next <;> exact ht

theorem ensures_deepen (count : Nat) (hs : Inv s.work) :
    Ensures s (deepen env count depth) (fun _ t => Inv t.work) (fun t => Inv t.work) := by
  induction count generalizing depth s with
  | zero => exact .pure hs
  | succ count ih =>
    refine .work_bind ?_
    split
    · exact .pure hs
    · exact (hIterate depth s hs).bind fun _ t ht => ih ht

end Loops

/-- The iteration after a depth, which leads to the next one. -/
def iteration (env : Surroundings σ) (depth : Nat) : Explore σ Unrolling Nat := do
  iterate env (depth + 1)
  return depth + 1

theorem iteration_of_ok {t : Session σ Unrolling} {a : Unit}
    (h : iterate env (depth + 1) s = .ok a t) : iteration env depth s = .ok (depth + 1) t :=
  bind_run_of_ok h

theorem iteration_of_error {t : Session σ Unrolling} {e : Failure}
    (h : iterate env (depth + 1) s = .error e t) : iteration env depth s = .error e t :=
  bind_run_of_error h

theorem iteration_eq_ok {t : Session σ Unrolling} {next : Nat}
    (h : iteration env depth s = .ok next t) :
    next = depth + 1 ∧ iterate env (depth + 1) s = .ok () t := by
  obtain ⟨_, r, hIterate, hNext⟩ := bind_eq_ok.mp h
  cases hNext
  exact ⟨rfl, hIterate⟩

section Turn

variable {maxDepth : Option Nat} {t : Session σ Unrolling} {ending : Ending}

/-- A turn that is not over before its iteration. -/
theorem turn_of_iterate (hNew : s.work.hasNew depth = true) (hStop : s.stop = false)
    (hBound : maxDepth ≠ some depth) :
    turn env maxDepth depth s =
      (do iterate env (depth + 1)
          if ← stopped then return Turn.done (Ending.stopped depth)
          return Turn.again (depth + 1)) s := by
  rw [turn, work_bind_run, if_neg (by simpa using hNew), stopped_bind_run,
    if_neg (by simpa using hStop), if_neg hBound]

theorem turn_of_ok (hNew : s.work.hasNew depth = true) (hStop : s.stop = false)
    (hBound : maxDepth ≠ some depth) (hIterate : iterate env (depth + 1) s = .ok () t)
    (hStop' : t.stop = false) : turn env maxDepth depth s = .ok (.again (depth + 1)) t := by
  rw [turn_of_iterate hNew hStop hBound, bind_run_of_ok hIterate, stopped_bind_run,
    if_neg (by simpa using hStop')]
  rfl

/-- A turn is over before its iteration if nothing is new, the flag is up, or the bound is
reached. -/
theorem turn_of_over (env : Surroundings σ)
    (hOver : ¬(s.work.hasNew depth = true ∧ s.stop = false ∧ maxDepth ≠ some depth)) :
    ∃ ending, turn env maxDepth depth s = .ok (.done ending) s ∧
      (s.work.hasNew depth = false ∧ ending = .fixpoint (depth - 1) ∨
        s.stop = true ∧ ending = .stopped depth ∨ maxDepth = some depth ∧ ending = .bounded) := by
  by_cases hNew : s.work.hasNew depth = true
  swap
  · refine ⟨.fixpoint (depth - 1), ?_, .inl ⟨by simpa using hNew, rfl⟩⟩
    rw [turn, work_bind_run, if_pos (by simpa using hNew)]
    rfl
  by_cases hStop : s.stop = true
  · refine ⟨.stopped depth, ?_, .inr (.inl ⟨hStop, rfl⟩)⟩
    rw [turn, work_bind_run, if_neg (by simpa using hNew), stopped_bind_run, if_pos hStop]
    rfl
  have hBound : maxDepth = some depth := by
    by_contra hBound
    exact hOver ⟨hNew, by simpa using hStop, hBound⟩
  refine ⟨.bounded, ?_, .inr (.inr ⟨hBound, rfl⟩)⟩
  rw [turn, work_bind_run, if_neg (by simpa using hNew), stopped_bind_run, if_neg hStop,
    if_pos hBound]
  rfl

/-- What a turn that goes on has done. -/
theorem turn_eq_again {next : Nat} (h : turn env maxDepth depth s = .ok (.again next) t) :
    next = depth + 1 ∧ (s.work.hasNew depth = true ∧ s.stop = false ∧ maxDepth ≠ some depth) ∧
      iterate env (depth + 1) s = .ok () t ∧ t.stop = false := by
  by_cases hGoes : s.work.hasNew depth = true ∧ s.stop = false ∧ maxDepth ≠ some depth
  swap
  · obtain ⟨ending, hOver, -⟩ := turn_of_over env hGoes
    rw [hOver] at h
    cases h
  obtain ⟨hNew, hStop, hBound⟩ := hGoes
  rw [turn_of_iterate hNew hStop hBound] at h
  obtain ⟨_, r, hIterate, hRest⟩ := bind_eq_ok.mp h
  rw [stopped_bind_run] at hRest
  split at hRest
  · cases hRest
  · next hStop' =>
    cases hRest
    exact ⟨rfl, ⟨hNew, hStop, hBound⟩, hIterate, by simpa using hStop'⟩

/-- What a turn that ends unrolling has done: nothing, or an iteration during which the flag went
up. -/
theorem turn_eq_done (h : turn env maxDepth depth s = .ok (.done ending) t) :
    t = s ∧ (s.work.hasNew depth = false ∧ ending = .fixpoint (depth - 1) ∨
      s.stop = true ∧ ending = .stopped depth ∨ maxDepth = some depth ∧ ending = .bounded) ∨
    s.stop = false ∧ iterate env (depth + 1) s = .ok () t ∧ t.stop = true ∧
      ending = .stopped depth := by
  by_cases hGoes : s.work.hasNew depth = true ∧ s.stop = false ∧ maxDepth ≠ some depth
  swap
  · obtain ⟨ending', hOver, hWhy⟩ := turn_of_over env hGoes
    rw [hOver] at h
    cases h
    exact .inl ⟨rfl, hWhy⟩
  obtain ⟨hNew, hStop, hBound⟩ := hGoes
  rw [turn_of_iterate hNew hStop hBound] at h
  obtain ⟨_, r, hIterate, hRest⟩ := bind_eq_ok.mp h
  rw [stopped_bind_run] at hRest
  split at hRest
  · next hStop' =>
    cases hRest
    exact .inr ⟨hStop, hIterate, hStop', rfl⟩
  · cases hRest

/-- A turn ends unrolling, before or after its iteration, or it goes on from the next depth. -/
theorem turn_cases (env : Surroundings σ) (maxDepth : Option Nat) (depth : Nat)
    (s : Session σ Unrolling) :
    (∃ n ≤ 1, ∃ ending, turn env maxDepth depth s =
      (do let _ ← rounds (iteration env) n depth
          return Turn.done ending) s) ∨
    (maxDepth ≠ some depth ∧ s.work.hasNew depth = true) ∧
      ∃ t, iterate env (depth + 1) s = .ok () t ∧
        turn env maxDepth depth s = .ok (.again (depth + 1)) t := by
  by_cases hGoes : s.work.hasNew depth = true ∧ s.stop = false ∧ maxDepth ≠ some depth
  swap
  · obtain ⟨ending, hOver, -⟩ := turn_of_over env hGoes
    exact .inl ⟨0, Nat.zero_le 1, ending, hOver⟩
  obtain ⟨hNew, hStop, hBound⟩ := hGoes
  cases hIterate : iterate env (depth + 1) s with
  | error e t =>
    refine .inl ⟨1, Nat.le_refl 1, .stopped depth, ?_⟩
    have hRounds : rounds (iteration env) 1 depth s = .error e t :=
      bind_run_of_error (iteration_of_error hIterate)
    rw [turn_of_iterate hNew hStop hBound, bind_run_of_error hIterate, bind_run_of_error hRounds]
  | ok a t =>
    by_cases hStop' : t.stop = false
    · exact .inr ⟨⟨hBound, hNew⟩, t, rfl, turn_of_ok hNew hStop hBound hIterate hStop'⟩
    · refine .inl ⟨1, Nat.le_refl 1, .stopped depth, ?_⟩
      have hRounds : rounds (iteration env) 1 depth s = .ok (depth + 1) t :=
        bind_run_of_ok (iteration_of_ok hIterate)
      rw [turn_of_iterate hNew hStop hBound, bind_run_of_ok hIterate, stopped_bind_run,
        if_pos (by simpa using hStop'), bind_run_of_ok hRounds]

/-- Turns that go on are so many iterations. -/
theorem rounds_of_turns {n next : Nat}
    (h : (unroll env maxDepth).turns n depth s = .ok (.again next) t) :
    rounds (iteration env) n depth s = .ok next t := by
  induction n generalizing depth s with
  | zero =>
    cases h
    rfl
  | succ n ih =>
    obtain ⟨next', r, hTurn, hRest⟩ := Exploration.turns_succ_eq_again h
    obtain ⟨rfl, -, hIterate, -⟩ := turn_eq_again hTurn
    exact (bind_run_of_ok (iteration_of_ok hIterate)).trans (ih hRest)

/-- Unrolling that returns is the start and some iterations. -/
theorem exists_rounds_of_run (h : (unroll env maxDepth).run s = some (.ok ending t)) :
    ∃ r n last, start env s = .ok () r ∧
      rounds (iteration env) n r.work.currentDepth r = .ok last t := by
  obtain ⟨n, last, q, hAfter, hTurn⟩ := Exploration.exists_last_of_run h
  obtain ⟨depth, r, hFirst, hTurns⟩ := bind_eq_ok.mp hAfter
  obtain ⟨_, r', hStart, hCurrent⟩ := bind_eq_ok.mp hFirst
  obtain ⟨rfl, rfl⟩ : r'.work.currentDepth = depth ∧ r' = r := by
    cases hCurrent
    exact ⟨rfl, rfl⟩
  have hRounds := rounds_of_turns hTurns
  rcases turn_eq_done hTurn with ⟨rfl, -⟩ | ⟨-, hIterate, -, -⟩
  · exact ⟨r', n, last, hStart, hRounds⟩
  · exact ⟨r', n + 1, last + 1, hStart, (rounds_add_one hRounds).trans (iteration_of_ok hIterate)⟩

end Turn

/-- A turn that is some rounds and the end is the whole loop. -/
theorem loop_of_turn_eq {maxDepth : Option Nat} {step : Explore σ Unrolling Nat} {ending : Ending}
    (h : turn env maxDepth depth s = (do let _ ← step; return Turn.done ending) s) :
    (unroll env maxDepth).loop depth s = some ((do let _ ← step; return ending) s) := by
  have hTurn : (unroll env maxDepth).turn depth s = _ := h
  cases hStep : step s with
  | ok a t =>
    rw [bind_run_of_ok hStep] at hTurn
    rw [Exploration.loop_of_done hTurn, bind_run_of_ok hStep]
    rfl
  | error e t =>
    rw [bind_run_of_error hStep] at hTurn
    rw [Exploration.loop_of_error hTurn, bind_run_of_error hStep]

/-! ## The start -/

/-- Firing labels without looking at the flag. -/
theorem ensures_forM_fire (labels : List Label) :
    Ensures s (labels.forM (fire env depth source))
      (fun _ t => Sweep env.solver.Answers depth (labels.map fun l => (source, l)) s.work t.work ∧
        (env.Steady → s.stop = false → t.stop = false))
      (fun t => CutSweep env.solver.Answers depth (labels.map fun l => (source, l)) s.work
        t.work) := by
  induction labels generalizing s with
  | nil => exact ⟨.nil, fun _ hs => hs⟩
  | cons l ls ih =>
    show Ensures s (fire env depth source l >>= fun _ => ls.forM (fire env depth source)) _ _
    refine (ensures_fire.mono (fun _ _ h => h) fun t ht => ?_).bind fun _ t ⟨hFire, ht⟩ => ?_
    · rw [ht]
      exact .nil _ _
    · refine ih.mono (fun _ r ⟨hSweep, hr⟩ => ?_) fun r hCut => hCut.cons hFire
      exact ⟨.cons hFire hSweep, fun hSteady hs => hr hSteady (ht hSteady hs)⟩

theorem layer_modifyLayer_id {k : Nat} : (u.modifyLayer depth id).layer k = u.layer k := by
  rw [layer_modifyLayer]
  split
  · next hk => rw [hk]; rfl
  · rfl

theorem WellFormed.modifyLayer_id (h : u.WellFormed) (depth : Nat) :
    (u.modifyLayer depth id).WellFormed := by
  refine h.congr rfl (fun k => ?_) fun k => ?_ <;> rw [layer_modifyLayer_id]
  · exact List.Subset.refl _
  · exact h.fresh k

/-- The unrolling with the default state, which is not listed yet. -/
def withDefault (u : Unrolling) : Unrolling :=
  { u with states := u.states.push (u.system.defaultState u.states.size) }

theorem size_states_withDefault : u.withDefault.states.size = u.states.size + 1 :=
  Array.size_push _

theorem state_withDefault {id : Nat} :
    u.withDefault.state id =
      if id = u.states.size then u.system.defaultState u.states.size else u.state id :=
  state_push _

/-- The default state keeps the unrolling well formed. -/
theorem WellFormed.withDefault (h : u.WellFormed) : u.withDefault.WellFormed := by
  have hOld : ∀ id, id ≠ u.states.size → u.withDefault.state id = u.state id :=
    fun id hid => by rw [state_withDefault, if_neg hid]
  refine ⟨?_, ?_, fun id hid hne => ?_, fun k id hid => ?_, h.fresh⟩
  · rw [size_states_withDefault]
    exact Nat.lt_succ_of_lt h.nonempty
  · rw [errorState, hOld _ (Nat.ne_of_lt h.nonempty)]
    exact h.isError
  · rw [state_withDefault]
    split
    · rw [System.defaultState_eq]
    · rw [size_states_withDefault] at hid
      exact h.noError id (by omega) hne
  · rw [size_states_withDefault]
    exact Nat.lt_succ_of_lt (h.listed k id hid)

/-- Listing a state keeps the unrolling well formed. -/
theorem WellFormed.list (h : u.WellFormed) (depth : Nat) {id : Nat} (hid : id < u.states.size) :
    (u.modifyLayer depth fun layer =>
      { layer with fresh := layer.fresh ++ [id], all := layer.all ++ [id] }).WellFormed where
  nonempty := h.nonempty
  isError := h.isError
  noError := h.noError
  listed k id' hid' := by
    have := h.listed k id'
    rw [layer_modifyLayer] at hid'
    show id' < u.states.size
    grind
  fresh k := by
    have := h.fresh k
    rw [layer_modifyLayer]
    grind

/-- The unrolling whose only initial state is the default state. -/
def startedByDefault (u : Unrolling) : Unrolling :=
  let listed := u.withDefault.modifyLayer 0 fun layer =>
    { layer with fresh := layer.fresh ++ [u.states.size], all := layer.all ++ [u.states.size] }
  { listed with initial := u.initial ++ [u.states.size], started := true }

/-- The firings of the constructors on the default state. -/
def constructorTasks (u : Unrolling) : List (Nat × Label) :=
  u.system.constructors.map fun l => (u.states.size, l)

/-- How an unrolling is started: not at all if it is already, from the default state, or by
constructors. -/
inductive Starting (given : Expr → Verdict → Prop) (u : Unrolling) : Unrolling → Prop where
  | already (hStarted : u.started = true) : Starting given u u
  | default (hStarted : u.started = false) (hNone : u.system.constructors = []) :
      Starting given u u.startedByDefault
  | built (hStarted : u.started = false) (hSome : u.system.constructors ≠ [])
      (hInit : u.system.initialValues = []) {v : Unrolling}
      (hSweep : Sweep given 0 u.constructorTasks (u.withDefault.modifyLayer 0 id) v) :
      Starting given u { v with initial := (v.layer 0).fresh, started := true }

theorem id_defaultState (s : System) (id : Nat) : (s.defaultState id).id = id := by
  rw [System.defaultState_eq]

theorem start_of_started (hs : s.work.started = true) : start env s = .ok () s := by
  rw [start, work_bind_run, if_pos hs]
  rfl

/-- The start: a default state, or a sweep of the constructors. -/
theorem ensures_start :
    Ensures s (start env)
      (fun _ t => Starting env.solver.Answers s.work t.work ∧
        (env.Steady → s.stop = false → t.stop = false))
      (fun t => t.work = s.work ∨
        CutSweep env.solver.Answers 0 s.work.constructorTasks (s.work.withDefault.modifyLayer 0 id)
          t.work) := by
  unfold start
  refine .work_bind ?_
  by_cases hStarted : s.work.started = true
  · rw [if_pos hStarted]
    exact .pure ⟨.already hStarted, fun _ hs => hs⟩
  · rw [if_neg hStarted]
    rw [Bool.not_eq_true] at hStarted
    dsimp only
    rw [id_defaultState]
    split
    · exact .throw (.inl rfl)
    · next hInit =>
      refine .modifyWork_bind ?_
      split
      · next hNone =>
        refine .modifyWork_bind (.modifyWork ⟨?_, fun _ hs => hs⟩)
        exact .default hStarted (List.isEmpty_iff.mp hNone)
      · next hNone =>
        refine .modifyWork_bind ?_
        refine ((ensures_forM_fire _).mono (fun _ _ h => h) fun t hCut => .inr hCut).bind
          fun _ t ⟨hSweep, ht⟩ => .modifyWork_bind (.modifyWork ⟨?_, ht⟩)
        have hSome : s.work.system.constructors ≠ [] := by simpa using hNone
        have hnoInit : s.work.system.initialValues = [] := by simpa [hSome] using hInit
        exact Starting.built (v := t.work) hStarted hSome hnoInit hSweep

/-! ## Order -/

/-- A well-formed unrolling of a system whose states mention nothing unknown. -/
structure Orderly (system : System) (u : Unrolling) : Prop where
  wellFormed : u.WellFormed
  system_eq : u.system = system
  tidy : ∀ id < u.states.size, id ≠ errorId →
    (u.state id).Tidy system.stateVariables u.nextTransition

variable {system : System}

theorem Orderly.congr (h : Orderly system u) (hSystem : v.system = u.system)
    (hStates : v.states = u.states) (hTransitions : v.transitions = u.transitions)
    (hAll : ∀ k, (v.layer k).all ⊆ (u.layer k).all)
    (hFresh : ∀ k, (v.layer k).fresh ⊆ (v.layer k).all) : Orderly system v := by
  have hState : ∀ id, v.state id = u.state id := fun id => by rw [state, state, hStates]
  have hNext : v.nextTransition = u.nextTransition := by
    rw [nextTransition, nextTransition, hTransitions]
  refine ⟨h.wellFormed.congr hStates hAll hFresh, hSystem.trans h.system_eq, ?_⟩
  simpa only [hState, hStates, hNext] using h.tidy

/-- Firing a label keeps the states orderly. -/
theorem Firing.orderly (h : Firing given depth source l u v) (hu : Orderly system u)
    (hl : l.Hygienic system.stateVariables) (hSource : source < u.states.size)
    (hne : source ≠ errorId) : Orderly system v := by
  have hGrows := h.grows hu.wellFormed
  refine ⟨h.wellFormed hu.wellFormed, hGrows.system.trans hu.system_eq, fun id hid hid' => ?_⟩
  by_cases hOld : id < u.states.size
  · exact SymbolicState.tidy_of_formulas_eq ((hu.tidy id hOld hid').mono hGrows.nextTransition_le)
      (SymbolicState.formulas_of_bare (hGrows.bare id hOld hid'))
  · cases h with
    | disabled => exact absurd hid hOld
    | failed => exact absurd (size_states_enterError ▸ hid) hOld
    | succeeded new =>
      rw [size_states_enterSuccessor] at hid
      obtain rfl : id = u.states.size := by omega
      have hNext : (u.enterSuccessor l source depth (u.successor l source) new).nextTransition =
          u.nextTransition + 1 := by
        simp [nextTransition, transitions_enterSuccessor]
      rw [hNext]
      exact SymbolicState.tidy_of_formulas_eq (hl.tidy_applyTo (hu.tidy source hSource hne) _)
        (formulas_entered u l source depth new)

theorem orderly_unstarted (system : System) : Orderly system { system := system } where
  wellFormed := {
    nonempty := Nat.zero_lt_one
    isError := rfl
    noError := fun id hid hne => absurd (Nat.lt_one_iff.mp hid) hne
    listed := fun k id hid => by cases hid
    fresh := fun k id hid => by cases hid }
  system_eq := rfl
  tidy := fun id hid hne => absurd (Nat.lt_one_iff.mp hid) hne

theorem Orderly.withDefault (h : Orderly system u) (hSystem : system.WellScoped) :
    Orderly system u.withDefault := by
  refine ⟨h.wellFormed.withDefault, h.system_eq, fun id hid hne => ?_⟩
  rw [state_withDefault]
  split
  · rw [h.system_eq]
    exact hSystem.tidy_defaultState _ _
  · rw [size_states_withDefault] at hid
    exact h.tidy id (by omega) hne

theorem Orderly.list (h : Orderly system u) {id : Nat} (hid : id < u.states.size) :
    Orderly system (u.modifyLayer depth fun layer =>
      { layer with fresh := layer.fresh ++ [id], all := layer.all ++ [id] }) :=
  ⟨h.wellFormed.list depth hid, h.system_eq, h.tidy⟩

/-! ## The deepest depth -/

theorem currentDepth_eq (h : depth ∈ u.layers) (hle : ∀ k ∈ u.layers, k ≤ depth) :
    u.currentDepth = depth := by
  have hMax : u.layers.maxKey? = some depth := by
    rw [Std.TreeMap.maxKey?_eq_some_iff_mem_and_forall]
    refine ⟨h, fun k hk => ?_⟩
    rw [Nat.isLE_compare]
    exact hle k hk
  rw [currentDepth, hMax]
  rfl

/-- Unrolling begins with the deepest depth after the start. -/
theorem first_of_start {t : Session σ Unrolling} {a : Unit} (h : start env s = .ok a t)
    (maxDepth : Option Nat) : (unroll env maxDepth).first s = .ok t.work.currentDepth t := by
  show (start env >>= _) s = _
  rw [bind_run_of_ok h]
  rfl

/-- Unrolling with the deepest depth as the last of the keys, in which form it evaluates. -/
theorem unroll_eq (env : Surroundings σ) (maxDepth : Option Nat) :
    unroll env maxDepth =
      { first := do
          start env
          return (← work).layers.keys.getLast?.getD 0
        turn := turn env maxDepth } := by
  simp only [unroll, currentDepth, Std.TreeMap.maxKey?_eq_getLast?_keys]

end StateSpace.Unrolling
