import Mathlib.Logic.Relation
import StateSpace.Proofs.Unrolling.Firing

/-!
# Unrollings between calls

Whatever is called on an unrolling, and whether the call returns or fails, the unrolling goes
through changes of a few kinds (`Unrolling.Change`), one after the other
(`Unrolling.changes_of_run`). So what each change keeps holds of every unrolling that calls lead to
(`Unrolling.Reached.keeps`).
-/

namespace StateSpace.Unrolling

open Explore

variable {σ : Type} {env : Surroundings σ} {given : Expr → Verdict → Prop} {system : System}
  {u v w : Unrolling} {s t : Session σ Unrolling} {depth : Nat}

/-! ## Changes -/

theorem Firing.initial_eq {l : Label} {source : Nat} (h : Firing given depth source l u v) :
    v.initial = u.initial := by
  cases h with
  | disabled => rfl
  | failed =>
    show (u.listError l source depth).initial = u.initial
    unfold listError
    split <;> rfl
  | succeeded => rfl

/-- One change of an unrolling. -/
inductive Change (u : Unrolling) : Unrolling → Prop
  /-- The default state is entered, and not listed. -/
  | default : Change u u.withDefault
  /-- A state other than the error state is listed as new. -/
  | appended {id : Nat} (depth : Nat) (hid : id < u.states.size) (hne : id ≠ errorId) :
      Change u (u.modifyLayer depth fun layer =>
        { layer with fresh := layer.fresh ++ [id], all := layer.all ++ [id] })
  /-- A depth is there from now on. -/
  | opened (depth : Nat) : Change u (u.modifyLayer depth id)
  /-- What a depth held is dropped. -/
  | dropped (depth : Nat) : Change u (u.modifyLayer (depth + 1) fun _ => {})
  /-- A label is fired on a state other than the error state, a constructor at depth 0 and any other
  label later. -/
  | fired {given : Expr → Verdict → Prop} {depth source : Nat} {l : Label} {v : Unrolling}
      (hFire : Firing given depth source l u v) (hSource : source < u.states.size)
      (hne : source ≠ errorId) (hl : l ∈ u.system.labels)
      (hDepth : l.isConstructor = true ↔ depth = 0) : Change u v
  /-- The initial states are settled. -/
  | settled {initial : List Nat}
      (hInitial : ∀ id ∈ initial, id ∈ u.initial ∨ id ∈ (u.layer 0).fresh) :
      Change u { u with initial := initial, started := true }

/-- Changes one after the other. -/
def Changes : Unrolling → Unrolling → Prop :=
  Relation.ReflTransGen Change

theorem Change.system_eq (h : Change u v) : v.system = u.system := by
  cases h with
  | fired hFire =>
    cases hFire with
    | disabled => rfl
    | failed => exact system_enterError
    | succeeded => rfl
  | _ => rfl

theorem Change.wellFormed (h : Change u v) (hu : u.WellFormed) : v.WellFormed := by
  cases h with
  | default => exact hu.withDefault
  | appended depth hid => exact hu.list depth hid
  | opened depth => exact hu.modifyLayer_id depth
  | dropped depth => exact hu.opened (depth + 1)
  | fired hFire => exact hFire.wellFormed hu
  | settled => exact hu.congr rfl (fun _ => List.Subset.refl _) hu.fresh

theorem Changes.wellFormed (h : Changes u v) (hu : u.WellFormed) : v.WellFormed := by
  induction h with
  | refl => exact hu
  | tail _ hChange ih => exact hChange.wellFormed ih

/-! ## Sweeps and the start -/

/-- A task that an unrolling can do at a depth. -/
structure Ready (depth : Nat) (u : Unrolling) (task : Nat × Label) : Prop where
  source_lt : task.1 < u.states.size
  source_ne : task.1 ≠ errorId
  label_mem : task.2 ∈ u.system.labels
  label_iff : task.2.isConstructor = true ↔ depth = 0

/-- A sweep is a sequence of changes. -/
theorem Sweep.changes {tasks : List (Nat × Label)} (h : Sweep given depth tasks u v)
    (hu : u.WellFormed) (hTasks : ∀ task ∈ tasks, Ready depth u task) : Changes u v := by
  induction h with
  | nil => exact .refl
  | @cons u v w source l rest hFire hRest ih =>
    obtain ⟨hTask, hOthers⟩ := List.forall_mem_cons.mp hTasks
    have hGrows := hFire.grows hu
    refine .head (.fired hFire hTask.source_lt hTask.source_ne hTask.label_mem hTask.label_iff) ?_
    refine ih (hFire.wellFormed hu) fun task hMem => ?_
    have hReady := hOthers task hMem
    exact ⟨Nat.lt_of_lt_of_le hReady.source_lt hGrows.size, hReady.source_ne,
      hGrows.system ▸ hReady.label_mem, hReady.label_iff⟩

theorem CutSweep.changes {tasks : List (Nat × Label)} (h : CutSweep given depth tasks u v)
    (hu : u.WellFormed) (hTasks : ∀ task ∈ tasks, Ready depth u task) : Changes u v := by
  obtain ⟨done, hDone, hSweep⟩ := h
  exact hSweep.changes hu fun task hMem => hTasks task (hDone.subset hMem)

theorem lt_size_withDefault : u.states.size < u.withDefault.states.size := by
  rw [size_states_withDefault]
  exact Nat.lt_succ_self _

/-- Depth 0 is opened, with the default state to fire constructors on. -/
theorem changes_opened (u : Unrolling) : Changes u (u.withDefault.modifyLayer 0 id) :=
  .tail (.single .default) (.opened 0)

theorem ready_constructorTasks (hu : u.WellFormed) :
    ∀ task ∈ u.constructorTasks, Ready 0 (u.withDefault.modifyLayer 0 id) task := by
  intro task hTask
  obtain ⟨c, hc, rfl⟩ := List.mem_map.mp hTask
  obtain ⟨hMem, hConstructor⟩ := List.mem_filter.mp hc
  exact ⟨lt_size_withDefault, Nat.ne_of_gt hu.nonempty, hMem, iff_of_true hConstructor rfl⟩

/-- The start is a sequence of changes. -/
theorem Starting.changes (h : Starting given u v) (hu : u.WellFormed) : Changes u v := by
  cases h with
  | already => exact .refl
  | default =>
    have hListed := Change.appended 0 lt_size_withDefault (Nat.ne_of_gt hu.nonempty)
    refine .tail (.tail (.single .default) hListed) ?_
    refine .settled fun id hid => ?_
    rcases List.mem_append.mp hid with hOld | hNew
    · exact .inl hOld
    · rw [layer_modifyLayer, if_pos rfl]
      exact .inr (List.mem_append_right _ hNew)
  | built _ _ _ hSweep =>
    have hOpened := hu.withDefault.modifyLayer_id 0
    exact .tail ((changes_opened u).trans (hSweep.changes hOpened (ready_constructorTasks hu)))
      (.settled fun _ hid => .inr hid)

theorem Starting.started (h : Starting given u v) : v.started = true := by
  cases h with
  | already hStarted => exact hStarted
  | default => rfl
  | built => rfl

/-! ## Runs -/

/-- An iteration of an unrolling that is not started is the start and then the iteration. -/
theorem iterate_of_start {a : Unit} (hStart : start env s = .ok a t)
    (hStarted : t.work.started = true) (depth : Nat) :
    iterate env (depth + 1) s = iterate env (depth + 1) t := by
  unfold iterate
  rw [if_neg (Nat.succ_ne_zero depth)]
  dsimp only
  rw [bind_run_of_ok hStart, bind_run_of_ok (start_of_started hStarted)]

theorem iterate_of_start_error {e : Failure} (hStart : start env s = .error e t) :
    iterate env (depth + 1) s = .error e t := by
  unfold iterate
  rw [if_neg (Nat.succ_ne_zero depth)]
  exact bind_run_of_error hStart

theorem ready_tasks (hu : u.WellFormed) :
    ∀ task ∈ tasks u.system.labels (u.layer depth).fresh,
      Ready (depth + 1) (u.modifyLayer (depth + 1) fun _ => {}) task := by
  intro task hTask
  obtain ⟨⟨hid, hne⟩, hl, hno⟩ := mem_tasks.mp hTask
  exact ⟨hu.listed depth _ (hu.fresh depth hid), hne, hl, by simp [hno]⟩

/-- The changes of a run that has been started. -/
def Underway (u v : Unrolling) : Prop :=
  Changes u v ∧ v.WellFormed ∧ v.started = true

/-- The start, as far as it comes. -/
theorem ensures_start_underway (hs : s.work.WellFormed) :
    Ensures s (start env) (fun _ t => Underway s.work t.work) (fun t => Changes s.work t.work) := by
  refine ensures_start.mono (fun _ t ⟨hStarting, _⟩ => ?_) fun t ht => ?_
  · have hChanges := hStarting.changes hs
    exact ⟨hChanges, hChanges.wellFormed hs, hStarting.started⟩
  · rcases ht with hSame | hCut
    · rw [hSame]
      exact .refl
    · exact (changes_opened _).trans
        (hCut.changes (hs.withDefault.modifyLayer_id 0) (ready_constructorTasks hs))

/-- An iteration of a started unrolling, as far as it comes. -/
theorem ensures_iterate_underway (depth : Nat) (s : Session σ Unrolling) (hs : Underway u s.work) :
    Ensures s (iterate env (depth + 1)) (fun _ t => Underway u t.work)
      (fun t => Underway u t.work) := by
  obtain ⟨hChanges, hwf, hStarted⟩ := hs
  have hSweep : ∀ v, CutSweep env.solver.Answers (depth + 1)
      (tasks s.work.system.labels (s.work.layer depth).fresh)
      (s.work.modifyLayer (depth + 1) fun _ => {}) v → Underway u v := by
    intro v hCut
    have hDropped := hwf.opened (depth + 1)
    obtain ⟨hGrows, hv⟩ := hCut.grows hDropped
    refine ⟨?_, hv, hGrows.started.trans hStarted⟩
    exact (hChanges.tail (.dropped depth)).trans (hCut.changes hDropped (ready_tasks hwf))
  refine (ensures_iterate hStarted).mono (fun _ t ⟨hCut, _⟩ => hSweep t.work hCut) fun t ht => ?_
  rcases ht with hCut | hSame
  · exact hSweep t.work hCut
  · rw [hSame]
    exact ⟨hChanges, hwf, hStarted⟩

/-- An iteration is a sequence of changes, whether or not the start is over. -/
theorem ensures_iterate_changes (hs : s.work.WellFormed) (depth : Nat) :
    Ensures s (iterate env depth) (fun _ t => Changes s.work t.work)
      (fun t => Changes s.work t.work) := by
  cases depth with
  | zero => exact .throw .refl
  | succ depth =>
    have hStart : Ensures s (start env) (fun _ t => Underway s.work t.work)
        (fun t => Changes s.work t.work) := ensures_start_underway hs
    unfold Ensures
    cases hRun : start env s with
    | ok a t =>
      -- once started, the iteration is that of the session after the start
      have ht := hStart.of_eq_ok hRun
      rw [iterate_of_start hRun ht.2.2]
      exact (ensures_iterate_underway depth t ht).mono (fun _ _ h => h.1) fun _ h => h.1
    | error failure t =>
      rw [iterate_of_start_error hRun]
      exact hStart.of_eq_error hRun

/-! ## Calls -/

/-- What can be called on an unrolling. -/
inductive Operation where
  | start
  | iterate (depth : Nat)
  | unroll (maxDepth : Option Nat)
  | unrollTo (depth : Nat)

namespace Operation

/-- The first steps of a call, whatever it tells in the end: all of them, unless it is to unroll. -/
def steps (env : Surroundings σ) (n : Nat) : Operation → Explore σ Unrolling Unit
  | .start => Unrolling.start env
  | .iterate depth => Unrolling.iterate env depth
  | .unroll maxDepth => do
    let _ ← (Unrolling.unroll env maxDepth).after n
  | .unrollTo depth => do
    let _ ← Unrolling.unrollTo env depth

/-- How a call ends, if it does, whatever it tells then. -/
def run (env : Surroundings σ) (s : Session σ Unrolling) :
    Operation → Option (EStateM.Result Failure (Session σ Unrolling) Unit)
  | .start => some (Unrolling.start env s)
  | .iterate depth => some (Unrolling.iterate env depth s)
  | .unroll maxDepth => ((Unrolling.unroll env maxDepth).run s).map discard
  | .unrollTo depth => some (discard (Unrolling.unrollTo env depth s))

/-- A call that ends does so after finitely many steps. -/
theorem exists_steps {operation : Operation} {r : EStateM.Result Failure (Session σ Unrolling) Unit}
    (h : operation.run env s = some r) : ∃ n, operation.steps env n s = r := by
  cases operation with
  | start => exact ⟨0, Option.some.inj h⟩
  | iterate depth => exact ⟨0, Option.some.inj h⟩
  | unroll maxDepth =>
    obtain ⟨result, hRun, rfl⟩ := Option.map_eq_some_iff.mp h
    cases result with
    | ok ending t =>
      obtain ⟨n, hn⟩ := Exploration.run_eq_ok_iff.mp hRun
      exact ⟨n, bind_run_of_ok hn⟩
    | error e t =>
      obtain ⟨n, hn⟩ := Exploration.run_eq_error_iff.mp hRun
      exact ⟨n, bind_run_of_error hn⟩
  | unrollTo depth =>
    refine ⟨0, ?_⟩
    rw [← Option.some.inj h]
    show (Unrolling.unrollTo env depth >>= fun _ => pure ()) s = _
    cases hRun : Unrolling.unrollTo env depth s with
    | ok reached t => exact bind_run_of_ok hRun
    | error e t => exact bind_run_of_error hRun

theorem run_unroll {maxDepth : Option Nat} {ending : Ending}
    (h : (Unrolling.unroll env maxDepth).run s = some (.ok ending t)) :
    (Operation.unroll maxDepth).run env s = some (.ok () t) := by
  simp only [run, h, Option.map_some, Explore.discard]

end Operation

/-- The unrollings of a system that calls lead to. Each call has surroundings, memory and stop flag
of its own, and it may return or fail. -/
inductive Reached (system : System) : Unrolling → Prop
  | fresh : Reached system { system := system }
  | returned {σ : Type} (operation : Operation) {env : Surroundings σ} {s t : Session σ Unrolling}
      (h : Reached system s.work) (hRun : operation.run env s = some (.ok () t)) :
      Reached system t.work
  | failed {σ : Type} (operation : Operation) {env : Surroundings σ} {s t : Session σ Unrolling}
      {failure : Failure} (h : Reached system s.work)
      (hRun : operation.run env s = some (.error failure t)) : Reached system t.work

/-- The first steps of a call make changes one after the other. -/
theorem ensures_changes (operation : Operation) (hs : s.work.WellFormed) (n : Nat) :
    Ensures s (operation.steps env n) (fun _ t => Changes s.work t.work)
      (fun t => Changes s.work t.work) := by
  have hStart : Ensures s (start env) (fun _ t => Underway s.work t.work)
      (fun t => Changes s.work t.work) := ensures_start_underway hs
  cases operation with
  | start => exact hStart.mono (fun _ _ h => h.1) fun _ h => h
  | iterate depth => exact ensures_iterate_changes hs depth
  | unroll maxDepth =>
    exact (ensures_unroll (Underway s.work) ensures_iterate_underway hStart (fun _ h => h.1) n).bind
      fun _ _ h => .pure h.1
  | unrollTo depth =>
    refine Ensures.bind (Q := fun _ t => Changes s.work t.work) ?_ fun _ _ h => .pure h
    refine hStart.bind fun _ t ht => .work_bind ?_
    exact (ensures_deepen (Underway s.work) ensures_iterate_underway _ ht).mono
      (fun _ _ h => h.1) fun _ h => h.1

/-- A call, returned or failed, has made changes one after the other. -/
theorem changes_of_run {operation : Operation} (hs : s.work.WellFormed)
    (hRun : operation.run env s = some (.ok () t) ∨
      ∃ failure, operation.run env s = some (.error failure t)) : Changes s.work t.work := by
  rcases hRun with hRun | ⟨failure, hRun⟩
  · obtain ⟨n, hn⟩ := Operation.exists_steps hRun
    exact (ensures_changes operation hs n).of_eq_ok hn
  · obtain ⟨n, hn⟩ := Operation.exists_steps hRun
    exact (ensures_changes operation hs n).of_eq_error hn

/-- What every change keeps, changes keep. -/
theorem Changes.keeps (Inv : Unrolling → Prop)
    (hChange : ∀ u v, u.WellFormed → u.system = system → Inv u → Change u v → Inv v)
    (h : Changes u v) (hu : u.WellFormed ∧ u.system = system ∧ Inv u) :
    v.WellFormed ∧ v.system = system ∧ Inv v := by
  induction h with
  | refl => exact hu
  | tail _ hOne ih =>
    exact ⟨hOne.wellFormed ih.1, hOne.system_eq.trans ih.2.1, hChange _ _ ih.1 ih.2.1 ih.2.2 hOne⟩

/-- What holds of a fresh unrolling and is kept by each change holds of every unrolling reached. -/
theorem Reached.keeps (Inv : Unrolling → Prop) (hFresh : Inv { system := system })
    (hChange : ∀ u v, u.WellFormed → u.system = system → Inv u → Change u v → Inv v)
    (h : Reached system u) : Inv u := by
  have hAll : u.WellFormed ∧ u.system = system ∧ Inv u := by
    induction h with
    | fresh => exact ⟨(orderly_unstarted system).wellFormed, rfl, hFresh⟩
    | returned operation _ hRun ih =>
      exact (changes_of_run ih.1 (.inl hRun)).keeps Inv hChange ih
    | failed operation _ hRun ih =>
      exact (changes_of_run ih.1 (.inr ⟨_, hRun⟩)).keeps Inv hChange ih
  exact hAll.2.2

theorem Reached.wellFormed (h : Reached system u) : u.WellFormed :=
  h.keeps WellFormed (orderly_unstarted system).wellFormed fun _ _ hu _ _ hChange =>
    hChange.wellFormed hu

theorem Reached.system_eq (h : Reached system u) : u.system = system :=
  h.keeps (fun u => u.system = system) rfl fun _ _ _ hSystem _ hChange =>
    hChange.system_eq.trans hSystem

end StateSpace.Unrolling
