import StateSpace.Proofs.Unrolling.Integrity

/-!
# Where states come from

Every state of an unrolling but the error state has been reached from the default state by labels
that are no errors (`Unrolling.Reached.errorFree`). Labels are fired on such states only
(`Unrolling.Reached.source_start`), and whether a label is enabled is asked on such states only
(`Unrolling.Reached.asked`).
-/

namespace StateSpace

/-- Labels that are no errors, fired one after the other on the default state, and the variables
that the state afterwards has formulas for. -/
inductive System.ErrorFree (system : System) : List String → List Variable → Prop
  | default : ErrorFree system [] ((system.defaultState 0).formulas.map Prod.fst)
  | fire {history : List String} {xs : List Variable} {l : Label} (h : ErrorFree system history xs)
      (hl : l ∈ system.labels) (hnoError : l.isError = false) :
      ErrorFree system (history ++ [l.name]) l.stateVariables

theorem System.ErrorFree.label_of_mem {system : System} {history : List String} {xs : List Variable}
    (h : system.ErrorFree history xs) {name : String} (hName : name ∈ history) :
    ∃ l ∈ system.labels, l.isError = false ∧ l.name = name := by
  induction h with
  | default => cases hName
  | fire _ hl hnoError ih =>
    rcases List.mem_append.mp hName with hOld | hLast
    · exact ih hOld
    · exact ⟨_, hl, hnoError, (List.mem_singleton.mp hLast).symm⟩

/-- A state other than the error state, reached without an error label. -/
def SymbolicState.ErrorFree (system : System) (q : SymbolicState) : Prop :=
  q.isError = false ∧ system.ErrorFree q.history (q.formulas.map Prod.fst)

theorem Label.keys_successorFormulas (l : Label) (q : SymbolicState) (n : Nat) :
    (l.successorFormulas q n).map Prod.fst = l.stateVariables := by
  simp [successorFormulas, Formulas.rename, Function.comp_def]

theorem Formulas.keys_restoreCurrentNames (fs : Formulas) :
    fs.restoreCurrentNames.map Prod.fst = fs.map Prod.fst := by
  simp [restoreCurrentNames, Function.comp_def]

namespace SymbolicState.ErrorFree

variable {system : System} {q q' : SymbolicState} {l : Label}

theorem of_bare (h : ErrorFree system q) (hBare : q'.bare = q.bare) : ErrorFree system q' := by
  rw [ErrorFree, isError_of_bare hBare, history_of_bare hBare, formulas_of_bare hBare]
  exact h

theorem default (system : System) (id : Nat) : ErrorFree system (system.defaultState id) := by
  have hKeys : (system.defaultState id).formulas.map Prod.fst =
      (system.defaultState 0).formulas.map Prod.fst := by
    rw [System.formulas_defaultState, System.formulas_defaultState]
  rw [System.defaultState_eq]
  refine ⟨rfl, ?_⟩
  show system.ErrorFree [] ((system.defaultState id).formulas.map Prod.fst)
  rw [hKeys]
  exact .default

/-- What a label makes of the state, if it is no error. -/
theorem fire (h : ErrorFree system q) (hl : l ∈ system.labels) (hnoError : l.isError = false)
    (hError : q'.isError = false) (hHistory : q'.history = q.history ++ [l.name])
    (hKeys : q'.formulas.map Prod.fst = l.stateVariables) : ErrorFree system q' := by
  rw [ErrorFree, hHistory, hKeys]
  exact ⟨hError, h.2.fire hl hnoError⟩

end SymbolicState.ErrorFree

namespace Unrolling

open Explore

variable {σ : Type} {env : Surroundings σ} {given : Expr → Verdict → Prop} {system : System}
  {u v : Unrolling} {l : Label} {s t : Session σ Unrolling} {depth source : Nat}

/-! ## States -/

/-- Firing a label gives a state of no error. -/
theorem Firing.errorFree (h : Firing given depth source l u v) (hSource : source < u.states.size)
    (hne : source ≠ errorId) (hl : l ∈ system.labels)
    (hu : ∀ id < u.states.size, id ≠ errorId → (u.state id).ErrorFree system) :
    ∀ id < v.states.size, id ≠ errorId → (v.state id).ErrorFree system := by
  intro id hid hid'
  cases h with
  | disabled => exact hu id hid hid'
  | failed =>
    rw [size_states_enterError] at hid
    exact (hu id hid hid').of_bare (bare_enterError hid')
  | succeeded new _ hnoError =>
    rw [size_states_enterSuccessor] at hid
    have hBare := bare_enterSuccessor u l source depth (u.successor l source) new id
    split at hBare
    · have hSuccessor : (u.successor l source).ErrorFree system := by
        refine (hu source hSource hne).fire hl hnoError rfl rfl ?_
        exact (Formulas.keys_restoreCurrentNames _).trans (l.keys_successorFormulas _ _)
      exact hSuccessor.of_bare hBare
    · exact (hu id (by omega) hid').of_bare hBare

/-- Every state but the error state has been reached without an error label. -/
theorem Reached.errorFree (h : Reached system u) :
    ∀ id < u.states.size, id ≠ errorId → (u.state id).ErrorFree system := by
  refine h.keeps (fun u => ∀ id < u.states.size, id ≠ errorId → (u.state id).ErrorFree system)
    (fun id hid hne => absurd (Nat.lt_one_iff.mp hid) hne) fun u v _ hSystem hu hChange => ?_
  cases hChange with
  | default =>
    intro id hid hne
    rw [state_withDefault]
    split
    · rw [hSystem]
      exact .default system _
    · rw [size_states_withDefault] at hid
      exact hu id (by omega) hne
  | fired hFire hSource hne hl => exact hFire.errorFree hSource hne (hSystem ▸ hl) hu
  | _ => exact hu

/-! ## Initial states -/

/-- The initial states are states of the unrolling. -/
theorem Reached.initial_lt (h : Reached system u) : ∀ id ∈ u.initial, id < u.states.size := by
  refine h.keeps (fun u => ∀ id ∈ u.initial, id < u.states.size) (fun id hid => (by cases hid)) ?_
  intro u v hu _ hlt hChange id hid
  cases hChange with
  | default => exact Nat.lt_trans (hlt id hid) lt_size_withDefault
  | fired hFire =>
    rw [hFire.initial_eq] at hid
    exact Nat.lt_of_lt_of_le (hlt id hid) (hFire.grows hu).size
  | settled hSettled =>
    rcases hSettled id hid with hOld | hNew
    · exact hlt id hOld
    · exact hu.listed 0 id (hu.fresh 0 hNew)
  | _ => exact hlt id hid

/-- Unless the error state is one of them, the initial states have been reached without an error
label. -/
theorem Reached.initialStates (h : Reached system u) (hInitial : errorId ∉ u.initial) :
    ∀ q ∈ u.initialStates, q.ErrorFree system := by
  intro q hq
  obtain ⟨id, hid, rfl⟩ := List.mem_map.mp hq
  exact h.errorFree id (h.initial_lt id hid) fun heq => hInitial (heq ▸ hid)

/-- The error state is neither an initial state nor going to be one. -/
structure Startable (u : Unrolling) : Prop where
  fresh : errorId ∉ (u.layer 0).fresh
  initial : errorId ∉ u.initial

/-- Firing a label keeps the error state out of the initial ones. -/
theorem Firing.startable (h : Firing given depth source l u v) (hu : u.WellFormed)
    (hl : l.isConstructor = true → l.isError = false) (hDepth : l.isConstructor = true ↔ depth = 0)
    (hStartable : Startable u) : Startable v := by
  refine ⟨?_, h.initial_eq ▸ hStartable.initial⟩
  have hOld := hStartable.fresh
  cases h with
  | disabled => exact hOld
  | failed _ hError =>
    -- an error label is not a constructor, so it is not fired at depth 0
    have hne : 0 ≠ depth := fun heq => by simp [hl (hDepth.mpr heq.symm)] at hError
    rw [layer_enterError, if_neg hne]
    exact hOld
  | succeeded new =>
    have hNew : (u.successor l source).id ≠ errorId := Nat.ne_of_gt hu.nonempty
    rw [layer_enterSuccessor]
    grind

/-- Every change keeps the error state out of the initial ones. -/
theorem Change.startable (h : Change u v) (hu : u.WellFormed)
    (hConstructors : ∀ c ∈ u.system.constructors, c.isError = false) (hStartable : Startable u) :
    Startable v := by
  obtain ⟨hFresh, hInitial⟩ := hStartable
  cases h with
  | default => exact ⟨hFresh, hInitial⟩
  | appended depth _ hne =>
    refine ⟨?_, hInitial⟩
    rw [layer_modifyLayer]
    grind
  | opened depth =>
    refine ⟨?_, hInitial⟩
    rw [layer_modifyLayer_id]
    exact hFresh
  | dropped depth =>
    refine ⟨?_, hInitial⟩
    rw [layer_modifyLayer, if_neg (Nat.succ_ne_zero depth).symm]
    exact hFresh
  | settled hSettled => exact ⟨hFresh, fun hMem => (hSettled errorId hMem).elim hInitial hFresh⟩
  | fired hFire _ _ hl hDepth =>
    refine hFire.startable hu (fun hc => ?_) hDepth ⟨hFresh, hInitial⟩
    exact hConstructors _ (List.mem_filter.mpr ⟨hl, hc⟩)

/-- If no constructor is an error label, then the error state is not an initial state. -/
theorem Reached.errorId_notMem_initial (h : Reached system u)
    (hConstructors : ∀ c ∈ system.constructors, c.isError = false) : errorId ∉ u.initial := by
  have hStartable : Startable u := by
    refine h.keeps Startable ⟨fun hMem => (by cases hMem), fun hMem => (by cases hMem)⟩ ?_
    intro u v hu hSystem hStartable hChange
    exact hChange.startable hu (hSystem ▸ hConstructors) hStartable
  exact hStartable.initial

/-! ## Questions -/

/-- If the question that stays open is whether a label is enabled on a state, then the state is one
other than the error state. -/
def Asked (failure : Failure) (u : Unrolling) : Prop :=
  ∀ name id, failure = .undecided (.guardOnState name id) →
    ∃ source < u.states.size, source ≠ errorId ∧ (u.state source).id = id

/-- Firing a label fails only with a question about a state that is there. -/
theorem asked_fire (hSource : source < s.work.states.size) (hne : source ≠ errorId) :
    FailsFrom s Asked (fire env depth source l) := by
  intro failure t hRun
  rw [show t.work = s.work from ensures_fire.of_eq_error hRun]
  suffices hFails : ∀ name id, failure = .undecided (.guardOnState name id) →
      (s.work.state source).id = id from
    fun name id hid => ⟨source, hSource, hne, hFails name id hid⟩
  let Named (failure : Failure) : Prop :=
    ∀ name id, failure = .undecided (.guardOnState name id) → (s.work.state source).id = id
  show Named failure
  refine FailsOnly.of_work_bind ?_ hRun
  have hGuard : ∀ e, FailsOnly Named (holdsDuring env (.guard l.name) depth
      (.guardOnState l.name (s.work.state source).id) e : Explore σ Unrolling Bool) := by
    refine fun e => (FailsOnly.holdsDuring_open _ _ _ _).mono ?_
    rintro _ ⟨rfl, -⟩ name id ⟨⟩
    rfl
  have hNovelty : ∀ id e, FailsOnly Named
      (holdsDuring env .novelty depth (.novelty id) e : Explore σ Unrolling Bool) := by
    refine fun id e => (FailsOnly.holdsDuring_open _ _ _ _).mono ?_
    rintro _ ⟨rfl, -⟩ name id ⟨⟩
  refine (hGuard _).bind fun enabled => ?_
  split
  · split
    · exact .modifyWork _
    · refine (FailsOnly.report _).bind fun _ => FailsOnly.work.bind fun u => ?_
      refine (FailsOnly.report _).bind fun _ => ?_
      dsimp only
      split
      · exact (FailsOnly.pure true).bind fun _ => .modifyWork _
      · exact (hNovelty _ _).bind fun _ => .modifyWork _
  · exact .pure ()

/-- After a firing, the states are there still. -/
theorem wellFormed_of_fire {a : Unit} (hs : s.work.WellFormed)
    (hRun : fire env depth source l s = .ok a t) :
    t.work.WellFormed ∧ s.work.states.size ≤ t.work.states.size := by
  have hFire := (ensures_fire.of_eq_ok hRun).1
  exact ⟨hFire.wellFormed hs, (hFire.grows hs).size⟩

/-- So does firing labels on a state. -/
theorem asked_fireLabels (labels : List Label) (hs : s.work.WellFormed)
    (hSource : source < s.work.states.size) (hne : source ≠ errorId) :
    FailsFrom s Asked (fireLabels env depth source labels) := by
  induction labels generalizing s with
  | nil => exact .pure true
  | cons l ls ih =>
    refine .stopped_bind ?_
    split
    · exact .pure false
    · split
      · refine (asked_fire hSource hne).bind fun _ t hRun => ?_
        obtain ⟨ht, hSize⟩ := wellFormed_of_fire hs hRun
        exact ih ht (Nat.lt_of_lt_of_le hSource hSize)
      · exact ih hs hSource

/-- So does firing labels on the states of a depth. -/
theorem asked_fireFrontier (labels : List Label) (sources : List Nat) (hs : s.work.WellFormed)
    (hSources : ∀ source ∈ sources, source < s.work.states.size) :
    FailsFrom s Asked (fireFrontier env depth labels sources) := by
  induction sources generalizing s with
  | nil => exact .pure ()
  | cons source rest ih =>
    obtain ⟨hSource, hRest⟩ := List.forall_mem_cons.mp hSources
    unfold fireFrontier
    split
    · exact ih hs hRest
    · next hne =>
      refine (asked_fireLabels labels hs hSource hne).bind fun through t hRun => ?_
      obtain ⟨hGrows, ht⟩ :=
        ((ensures_fireLabels_onward env.solver.records_answers labels).of_eq_ok hRun).1.1.grows hs
      split
      · exact ih ht fun source hMem => Nat.lt_of_lt_of_le (hRest source hMem) hGrows.size
      · exact .pure ()

/-- So do the constructors. -/
theorem asked_forM_fire (labels : List Label) (hs : s.work.WellFormed)
    (hSource : source < s.work.states.size) (hne : source ≠ errorId) :
    FailsFrom s Asked (labels.forM (fire env depth source)) := by
  induction labels generalizing s with
  | nil => exact .pure ()
  | cons l ls ih =>
    show FailsFrom s Asked (fire env depth source l >>= fun _ => ls.forM (fire env depth source))
    refine (asked_fire hSource hne).bind fun _ t hRun => ?_
    obtain ⟨ht, hSize⟩ := wellFormed_of_fire hs hRun
    exact ih ht (Nat.lt_of_lt_of_le hSource hSize)

/-- So does the start. -/
theorem asked_start (hs : s.work.WellFormed) : FailsFrom s Asked (start env) := by
  refine .work_bind ?_
  split
  · exact .pure ()
  · dsimp only
    rw [id_defaultState]
    split
    · exact .throw fun name id h => by cases h
    · refine .modifyWork_bind ?_
      split
      · exact .modifyWork_bind (.modifyWork _)
      · have hOpened := hs.withDefault.modifyLayer_id 0
        have hne : s.work.states.size ≠ errorId := Nat.ne_of_gt hs.nonempty
        refine .modifyWork_bind ?_
        refine (asked_forM_fire _ hOpened lt_size_withDefault hne).bind fun _ t _ => ?_
        exact .modifyWork_bind (.modifyWork _)

theorem wellFormed_of_start {a : Unit} (hs : s.work.WellFormed) (hRun : start env s = .ok a t) :
    t.work.WellFormed :=
  ((ensures_start_underway hs).of_eq_ok hRun).2.1

theorem wellFormed_of_iterate {a : Unit} (hs : s.work.WellFormed)
    (hRun : iterate env depth s = .ok a t) : t.work.WellFormed :=
  ((ensures_iterate_changes hs depth).of_eq_ok hRun).wellFormed hs

/-- So does an iteration. -/
theorem asked_iterate (hs : s.work.WellFormed) (depth : Nat) :
    FailsFrom s Asked (iterate env depth) := by
  unfold iterate
  split
  · exact .throw fun name id h => by cases h
  · refine (asked_start hs).bind fun _ t hRun => .report_bind fun r hr => ?_
    have hr' : r.work.WellFormed := hr ▸ wellFormed_of_start hs hRun
    have hDropped := hr'.opened depth
    refine .modifyWork_bind (.work_bind ?_)
    refine (asked_fireFrontier _ _ hDropped fun source hMem => ?_).bind fun _ q _ => ?_
    · exact hDropped.listed _ _ (hDropped.fresh _ hMem)
    · exact .report_bind fun _ _ => .work_bind (.report _)

/-- So does a turn. -/
theorem asked_turn (maxDepth : Option Nat) (hs : s.work.WellFormed) :
    FailsFrom s Asked (turn env maxDepth depth) := by
  refine .work_bind ?_
  split
  · exact .pure _
  · refine .stopped_bind ?_
    split
    · exact .pure _
    · split
      · exact .pure _
      · refine (asked_iterate hs _).bind fun _ t hRun => .stopped_bind ?_
        split
        · exact .pure _
        · exact .pure _

/-- So do turns. -/
theorem asked_turns (maxDepth : Option Nat) (n : Nat) (hs : s.work.WellFormed) :
    FailsFrom s Asked ((unroll env maxDepth).turns n depth) := by
  induction n generalizing depth s with
  | zero => exact .pure _
  | succ n ih =>
    refine (asked_turn maxDepth hs).bind fun next t hTurn => ?_
    cases next with
    | again next =>
      obtain ⟨-, -, hIterate, -⟩ := turn_eq_again hTurn
      exact ih (wellFormed_of_iterate hs hIterate)
    | done ending => exact .pure _

theorem asked_deepen (count : Nat) (hs : s.work.WellFormed) :
    FailsFrom s Asked (deepen env count depth) := by
  induction count generalizing depth s with
  | zero => exact .pure _
  | succ count ih =>
    refine .work_bind ?_
    split
    · exact .pure _
    · exact (asked_iterate hs _).bind fun _ t hRun => ih (wellFormed_of_iterate hs hRun)

/-- So does every call. -/
theorem asked_steps (operation : Operation) (n : Nat) (hs : s.work.WellFormed) :
    FailsFrom s Asked (operation.steps env n) := by
  cases operation with
  | start => exact asked_start hs
  | iterate depth => exact asked_iterate hs depth
  | unroll maxDepth =>
    have hFirst : FailsFrom s Asked (unroll env maxDepth).first :=
      (asked_start hs).bind fun _ t _ => .work_bind (.pure _)
    refine FailsFrom.bind (hFirst.bind fun current t hRun => asked_turns maxDepth n ?_)
      fun _ _ _ => .pure ()
    obtain ⟨_, r, hStart, hCurrent⟩ := bind_eq_ok.mp hRun
    cases hCurrent
    exact wellFormed_of_start hs hStart
  | unrollTo depth =>
    have hUnrollTo : FailsFrom s Asked (unrollTo env depth) := by
      refine (asked_start hs).bind fun _ t hRun => .work_bind ?_
      exact asked_deepen _ (wellFormed_of_start hs hRun)
    exact hUnrollTo.bind fun _ _ _ => .pure ()

/-- A state that labels may be fired on: a state other than the error state, reached without an
error label. -/
structure Source (system : System) (u : Unrolling) (id : Nat) : Prop where
  lt : id < u.states.size
  ne : id ≠ errorId
  errorFree : (u.state id).ErrorFree system

theorem Reached.source_start (h : Reached system u) :
    ∀ t ∈ u.transitions, Source system u t.start := by
  intro t ht
  have hlt := (h.intact.links.ends t ht).1
  have hne := h.intact.routes.start_ne t ht
  exact ⟨hlt, hne, h.errorFree t.start hlt hne⟩

/-- Whether a label is enabled is asked on such states only. Any question may stay open, so it is
said of the question that does. -/
theorem Reached.asked (h : Reached system s.work) {operation : Operation} {name : String} {id : Nat}
    (hRun : operation.run env s = some (.error (.undecided (.guardOnState name id)) t)) :
    Source system t.work id := by
  have ht : Reached system t.work := h.failed operation hRun
  obtain ⟨n, hn⟩ := Operation.exists_steps hRun
  obtain ⟨source, hlt, hne, hid⟩ := asked_steps operation n h.wellFormed _ _ hn name id rfl
  obtain rfl : source = id := (ht.intact.states.ids source hlt).symm.trans hid
  exact ⟨hlt, hne, ht.errorFree source hlt hne⟩

end Unrolling

end StateSpace
