import StateSpace.Proofs.Exploration.Outcome
import StateSpace.Proofs.Unrolling.Changes
import StateSpace.Proofs.Unrolling.Completeness

/-!
# Integrity of unrollings

Whatever is called on an unrolling, in whatever order and with whatever answers, and even if calls
fail half-way: states and transitions are numbered in the order of their entry (`Numbered`), the
links of a state can be read off the transitions (`Linked`), transitions tell where they lead and
states how they were reached (`Routed`), and the error state is listed as new once (`Listed`).
-/

namespace StateSpace.Unrolling

open Explore

variable {σ : Type} {given : Expr → Verdict → Prop} {system : System} {u v : Unrolling} {l : Label}
  {t : Transition} {s : SymbolicState} {new : Bool} {depth source target id k : Nat}

/-! ## States -/

/-- Each state has its place as identity. The error state is the only one of its kind and has no
formulas. -/
structure Numbered (u : Unrolling) : Prop where
  ids : ∀ id < u.states.size, (u.state id).id = id
  isError : ∀ id < u.states.size, ((u.state id).isError = true ↔ id = errorId)
  formulas : u.errorState.formulas = []

theorem WellFormed.isError_iff (h : u.WellFormed) :
    ∀ id < u.states.size, ((u.state id).isError = true ↔ id = errorId) := by
  intro id hid
  refine ⟨fun hError => ?_, fun heq => heq ▸ h.isError⟩
  by_contra hne
  rw [h.noError id hid hne] at hError
  cases hError

/-- States keep their identities. -/
theorem Firing.ids (h : Firing given depth source l u v) (hu : u.WellFormed)
    (hIds : ∀ id < u.states.size, (u.state id).id = id) :
    ∀ id < v.states.size, (v.state id).id = id := by
  intro id hid
  cases h with
  | disabled => exact hIds id hid
  | failed =>
    rw [size_states_enterError] at hid
    by_cases hne : id = errorId
    · subst hne
      have hBare := errorState_enterError l source depth hu.nonempty
      split at hBare <;> exact (SymbolicState.id_of_bare hBare).trans (hIds _ hid)
    · exact (SymbolicState.id_of_bare (bare_enterError hne)).trans (hIds id hid)
  | succeeded new =>
    rw [size_states_enterSuccessor] at hid
    have hBare := bare_enterSuccessor u l source depth (u.successor l source) new id
    split at hBare
    · next heq => exact (SymbolicState.id_of_bare hBare).trans heq.symm
    · exact (SymbolicState.id_of_bare hBare).trans (hIds id (by omega))

/-- Every change keeps states and transitions numbered. -/
theorem Change.numbered (h : Change u v) (hu : u.WellFormed) (hNumbered : Numbered u) :
    Numbered v := by
  have hv := h.wellFormed hu
  cases h with
  | default =>
    refine ⟨fun id hid => ?_, hv.isError_iff, ?_⟩
    · rw [state_withDefault]
      split
      · next heq => rw [id_defaultState, heq]
      · rw [size_states_withDefault] at hid
        exact hNumbered.ids id (by omega)
    · rw [errorState, state_withDefault, if_neg (Nat.ne_of_lt hu.nonempty)]
      exact hNumbered.formulas
  | fired hFire =>
    exact ⟨hFire.ids hu hNumbered.ids, hv.isError_iff,
      (hFire.formulas_errorState hu).trans hNumbered.formulas⟩
  | _ => exact ⟨hNumbered.ids, hv.isError_iff, hNumbered.formulas⟩

/-! ## Links -/

/-- The transitions that end in a state, the oldest first. -/
def transitionsInto (u : Unrolling) (id : Nat) : List Nat :=
  (u.transitions.toList.filter (·.target = some id)).map (·.id)

/-- The transitions that start in a state, the oldest first. -/
def transitionsFrom (u : Unrolling) (id : Nat) : List Nat :=
  (u.transitions.toList.filter (·.start = id)).map (·.id)

/-- Transitions are numbered from 1 on and have their ends among the states; the links of a state
are the transitions that end and start there. -/
structure Linked (u : Unrolling) : Prop where
  numbered : u.transitions.toList.map (·.id) = List.range' 1 u.transitions.size
  ends : ∀ t ∈ u.transitions, t.start < u.states.size ∧ ∃ id < u.states.size, t.target = some id
  incoming : ∀ id < u.states.size, (u.state id).incoming = u.transitionsInto id
  outgoing : ∀ id < u.states.size, (u.state id).outgoing = u.transitionsFrom id

namespace Linked

/-- Only transitions and the links of states matter. -/
theorem congr (h : Linked u) (hTransitions : v.transitions = u.transitions)
    (hSize : v.states.size = u.states.size)
    (hIncoming : ∀ id, (v.state id).incoming = (u.state id).incoming)
    (hOutgoing : ∀ id, (v.state id).outgoing = (u.state id).outgoing) : Linked v where
  numbered := by
    rw [hTransitions]
    exact h.numbered
  ends := by
    rw [hTransitions, hSize]
    exact h.ends
  incoming id hid := by
    rw [transitionsInto, hIncoming, hTransitions]
    exact h.incoming id (hSize ▸ hid)
  outgoing id hid := by
    rw [transitionsFrom, hOutgoing, hTransitions]
    exact h.outgoing id (hSize ▸ hid)

theorem transitionsInto_eq_nil (h : Linked u) (hid : u.states.size ≤ id) :
    u.transitionsInto id = [] := by
  have hNone : u.transitions.toList.filter (·.target = some id) = [] := by
    rw [List.filter_eq_nil_iff]
    intro t ht
    obtain ⟨-, target, hTarget, heq⟩ := h.ends t (Array.mem_toList_iff.mp ht)
    rw [decide_eq_true_eq, heq, Option.some.injEq]
    omega
  rw [transitionsInto, hNone, List.map_nil]

theorem transitionsFrom_eq_nil (h : Linked u) (hid : u.states.size ≤ id) :
    u.transitionsFrom id = [] := by
  have hNone : u.transitions.toList.filter (·.start = id) = [] := by
    rw [List.filter_eq_nil_iff]
    intro t ht
    have hStart := (h.ends t (Array.mem_toList_iff.mp ht)).1
    rw [decide_eq_true_eq]
    omega
  rw [transitionsFrom, hNone, List.map_nil]

/-- A state without links may be entered. -/
theorem push (h : Linked u) (hIncoming : s.incoming = []) (hOutgoing : s.outgoing = []) :
    Linked { u with states := u.states.push s } where
  numbered := h.numbered
  ends t ht := by
    obtain ⟨hStart, id, hid, hTarget⟩ := h.ends t ht
    rw [Array.size_push]
    exact ⟨Nat.lt_succ_of_lt hStart, id, Nat.lt_succ_of_lt hid, hTarget⟩
  incoming id hid := by
    rw [Array.size_push] at hid
    rw [state_push]
    split
    · next heq => exact hIncoming.trans (h.transitionsInto_eq_nil (Nat.le_of_eq heq.symm)).symm
    · exact h.incoming id (by omega)
  outgoing id hid := by
    rw [Array.size_push] at hid
    rw [state_push]
    split
    · next heq => exact hOutgoing.trans (h.transitionsFrom_eq_nil (Nat.le_of_eq heq.symm)).symm
    · exact h.outgoing id (by omega)

end Linked

/-- One more transition adds its number to those of its kind. -/
theorem ids_filter_push (ts : Array Transition) (t : Transition) (kind : Transition → Bool) :
    ((ts.push t).toList.filter kind).map (·.id) =
      (ts.toList.filter kind).map (·.id) ++ if kind t = true then [t.id] else [] := by
  rw [Array.toList_push, List.filter_append, List.map_append]
  by_cases hKind : kind t = true
  · rw [List.filter_cons_of_pos hKind, if_pos hKind]
    rfl
  · rw [List.filter_cons_of_neg hKind, if_neg hKind]
    rfl

theorem transitionsInto_link :
    (u.link t target depth).transitionsInto id =
      if id = target then u.transitionsInto id ++ [t.id] else u.transitionsInto id := by
  rw [transitionsInto, transitions_link, ids_filter_push]
  by_cases heq : id = target
  · simp [transitionsInto, heq]
  · simp [transitionsInto, heq, Ne.symm heq]

theorem transitionsFrom_link :
    (u.link t target depth).transitionsFrom id =
      if id = t.start then u.transitionsFrom id ++ [t.id] else u.transitionsFrom id := by
  rw [transitionsFrom, transitions_link, ids_filter_push]
  by_cases heq : id = t.start
  · simp [transitionsFrom, heq]
  · simp [transitionsFrom, heq, Ne.symm heq]

/-- The next transition may be entered, between states that are there. -/
theorem Linked.link (h : Linked u) (hid : t.id = u.nextTransition)
    (hStart : t.start < u.states.size) (hTarget : target < u.states.size) :
    Linked (u.link t target depth) where
  numbered := by
    rw [transitions_link, Array.toList_push, List.map_append, h.numbered, Array.size_push,
      List.range'_1_concat, List.map_singleton, hid, nextTransition, Nat.add_comm 1]
  ends t' ht' := by
    rw [size_states_link]
    rw [transitions_link, Array.mem_push] at ht'
    rcases ht' with hOld | rfl
    · exact h.ends t' hOld
    · exact ⟨hStart, target, hTarget, rfl⟩
  incoming id hid := by
    rw [size_states_link] at hid
    rw [incoming_link hTarget, transitionsInto_link, h.incoming id hid]
  outgoing id hid := by
    rw [size_states_link] at hid
    rw [outgoing_link hStart, transitionsFrom_link, h.outgoing id hid]

/-- Listing the error state leaves all links as they are. -/
theorem Linked.listError (h : Linked u) : Linked (u.listError l source depth) := by
  have hLinks : ∀ id, ((u.listError l source depth).state id).incoming = (u.state id).incoming ∧
      ((u.listError l source depth).state id).outgoing = (u.state id).outgoing := by
    intro id
    unfold Unrolling.listError
    split
    · simp only [state_modifyLayer, state_modifyState]
      split <;> exact ⟨rfl, rfl⟩
    · exact ⟨rfl, rfl⟩
  refine h.congr ?_ size_states_listError (fun id => (hLinks id).1) fun id => (hLinks id).2
  unfold Unrolling.listError
  split <;> rfl

theorem nextTransition_listError :
    (u.listError l source depth).nextTransition = u.nextTransition := by
  unfold listError
  split <;> rfl

theorem Linked.enterError (h : Linked u) (hu : errorId < u.states.size)
    (hSource : source < u.states.size) : Linked (u.enterError l source depth) := by
  rw [enterError_eq]
  refine h.listError.link nextTransition_listError.symm ?_ ?_ <;> rw [size_states_listError]
  · exact hSource
  · exact hu

/-- Entering a successor links it with its source. -/
theorem Linked.enterSuccessor (h : Linked u) (hs : s.id = u.states.size)
    (hIncoming : s.incoming = []) (hOutgoing : s.outgoing = []) (hSource : source < u.states.size) :
    Linked (u.enterSuccessor l source depth s new) := by
  have hPush := h.push hIncoming hOutgoing
  have hSize : (u.states.push s).size = u.states.size + 1 := Array.size_push s
  unfold Unrolling.enterSuccessor
  refine Linked.link (hPush.congr rfl rfl (fun _ => rfl) fun _ => rfl) rfl ?_ ?_
  · show source < (u.states.push s).size
    omega
  · show s.id < (u.states.push s).size
    omega

/-- Every change keeps the links right. -/
theorem Change.linked (h : Change u v) (hu : u.WellFormed) (hLinked : Linked u) : Linked v := by
  cases h with
  | default => refine hLinked.push ?_ ?_ <;> rw [System.defaultState_eq]
  | fired hFire hSource =>
    cases hFire with
    | disabled => exact hLinked
    | failed => exact hLinked.enterError hu.nonempty hSource
    | succeeded => exact hLinked.enterSuccessor rfl rfl rfl hSource
  | _ => exact hLinked.congr rfl rfl (fun _ => rfl) fun _ => rfl

/-! ## Routes -/

/-- Of the transitions that reached the error state, in order, the first one alone found something
new, and its route is the history of the error state. -/
def Recorded (u : Unrolling) : List Transition → Prop
  | [] => u.errorState.history = []
  | first :: rest => first.reachedNewValue = true ∧ (∀ t ∈ rest, t.reachedNewValue = false) ∧
    u.errorState.history = (u.state first.start).history ++ first.labels

/-- Only the histories matter. -/
theorem Recorded.congr {errors : List Transition} (h : u.Recorded errors)
    (hError : v.errorState.history = u.errorState.history)
    (hStarts : ∀ t ∈ errors, (v.state t.start).history = (u.state t.start).history) :
    v.Recorded errors := by
  cases errors with
  | nil => exact hError.trans h
  | cons first rest =>
    obtain ⟨hFirst, hRest, hHistory⟩ := h
    refine ⟨hFirst, hRest, ?_⟩
    rw [hError, hStarts first List.mem_cons_self]
    exact hHistory

/-- Transitions fire one label, never on the error state, and know whether they end there. Any other
state has one transition at most that ends there, and its history goes along it. -/
structure Routed (u : Unrolling) : Prop where
  start_ne : ∀ t ∈ u.transitions, t.start ≠ errorId
  label : ∀ t ∈ u.transitions, ∃ l ∈ u.system.labels, t.labels = [l.name]
  reachedError : ∀ t ∈ u.transitions, (t.reachedError = true ↔ t.target = some errorId)
  history : ∀ t ∈ u.transitions, ∀ id ≠ errorId, t.target = some id →
    (u.state id).history = (u.state t.start).history ++ t.labels
  unique : ∀ id ≠ errorId, (u.transitionsInto id).length ≤ 1
  recorded : u.Recorded (u.transitions.toList.filter (·.reachedError))

/-- The transitions into the error state are those that reached it. -/
theorem Routed.filter_reachedError (h : Routed u) :
    u.transitions.toList.filter (·.reachedError) =
      u.transitions.toList.filter (·.target = some errorId) := by
  refine List.filter_congr fun t ht => ?_
  rw [Bool.eq_iff_iff, decide_eq_true_eq]
  exact h.reachedError t (Array.mem_toList_iff.mp ht)

/-- Changes that enter no transition keep the routes. -/
theorem Routed.congr (h : Routed u) (hLinked : Linked u)
    (hTransitions : v.transitions = u.transitions) (hSystem : v.system = u.system)
    (hu : errorId < u.states.size)
    (hHistory : ∀ id < u.states.size, (v.state id).history = (u.state id).history) : Routed v where
  start_ne := hTransitions ▸ h.start_ne
  label := hTransitions ▸ hSystem ▸ h.label
  reachedError := hTransitions ▸ h.reachedError
  history t ht id hne hTarget := by
    rw [hTransitions] at ht
    obtain ⟨hStart, target, hlt, heq⟩ := hLinked.ends t ht
    obtain rfl : target = id := Option.some.inj (heq.symm.trans hTarget)
    rw [hHistory target hlt, hHistory t.start hStart]
    exact h.history t ht target hne hTarget
  unique := by
    unfold transitionsInto
    rw [hTransitions]
    exact h.unique
  recorded := by
    rw [hTransitions]
    refine h.recorded.congr (hHistory errorId hu) fun t ht => hHistory t.start ?_
    exact (hLinked.ends t (Array.mem_toList_iff.mp (List.mem_filter.mp ht).1)).1

/-- Entering a transition keeps the routes, if it fires a label on a state other than the error
state and leads to the error state or to a state that was not there. -/
theorem Routed.push (h : Routed u) (hLinked : Linked u)
    (hTransitions : v.transitions = u.transitions.push t) (hSystem : v.system = u.system)
    (hLabel : ∃ l ∈ u.system.labels, t.labels = [l.name])
    (hStart : t.start < u.states.size) (hne : t.start ≠ errorId)
    (hHistory : ∀ id < u.states.size, id ≠ errorId → (v.state id).history = (u.state id).history)
    (hReached : t.reachedError = true ↔ t.target = some errorId)
    (hTarget : ∀ id ≠ errorId, t.target = some id →
      u.states.size ≤ id ∧ (v.state id).history = (u.state t.start).history ++ t.labels)
    (hRecorded : v.Recorded (v.transitions.toList.filter (·.reachedError))) : Routed v where
  start_ne t' ht' := by
    rw [hTransitions, Array.mem_push] at ht'
    rcases ht' with hOld | rfl
    · exact h.start_ne t' hOld
    · exact hne
  label t' ht' := by
    rw [hSystem]
    rw [hTransitions, Array.mem_push] at ht'
    rcases ht' with hOld | rfl
    · exact h.label t' hOld
    · exact hLabel
  reachedError t' ht' := by
    rw [hTransitions, Array.mem_push] at ht'
    rcases ht' with hOld | rfl
    · exact h.reachedError t' hOld
    · exact hReached
  history t' ht' id hid hTarget' := by
    rw [hTransitions, Array.mem_push] at ht'
    rcases ht' with hOld | rfl
    · -- an old transition joins old states, and those keep their histories
      obtain ⟨hStart', target, hlt, heq⟩ := hLinked.ends t' hOld
      obtain rfl : target = id := Option.some.inj (heq.symm.trans hTarget')
      rw [hHistory target hlt hid, hHistory t'.start hStart' (h.start_ne t' hOld)]
      exact h.history t' hOld target hid hTarget'
    · rw [hHistory t'.start hStart hne]
      exact (hTarget id hid hTarget').2
  unique id hid := by
    rw [transitionsInto, hTransitions, ids_filter_push]
    show (u.transitionsInto id ++ _).length ≤ 1
    split
    · -- the target is a new state, so nothing led to it
      next heq =>
      rw [hLinked.transitionsInto_eq_nil (hTarget id hid (of_decide_eq_true heq)).1]
      exact Nat.le_refl 1
    · rw [List.append_nil]
      exact h.unique id hid
  recorded := hRecorded

/-- The first error makes its route the history of the error state; later ones change nothing. -/
theorem Routed.recorded_enterError (h : Routed u) (hLinked : Linked u) (hu : u.WellFormed)
    (hne : source ≠ errorId) :
    (u.enterError l source depth).Recorded
      ((u.enterError l source depth).transitions.toList.filter (·.reachedError)) := by
  have hBare := errorState_enterError l source depth hu.nonempty
  have hSource : ((u.enterError l source depth).state source).history = (u.state source).history :=
    SymbolicState.history_of_bare (bare_enterError hne)
  have hIncoming :
      u.errorState.incoming = (u.transitions.toList.filter (·.reachedError)).map (·.id) := by
    rw [h.filter_reachedError]
    exact hLinked.incoming errorId hu.nonempty
  have hOld := h.recorded
  have hStarts : ∀ t ∈ u.transitions.toList.filter (·.reachedError),
      ((u.enterError l source depth).state t.start).history = (u.state t.start).history := by
    intro t ht
    have hMem := Array.mem_toList_iff.mp (List.mem_filter.mp ht).1
    exact SymbolicState.history_of_bare (bare_enterError (h.start_ne t hMem))
  rw [transitions_enterError, Array.toList_push, List.filter_append]
  generalize u.transitions.toList.filter (·.reachedError) = errors at hIncoming hOld hStarts
  cases errors with
  | nil =>
    have hFirst : u.errorState.incoming.isEmpty = true := by rw [hIncoming]; rfl
    rw [if_pos hFirst] at hBare
    refine ⟨hFirst, by simp, ?_⟩
    rw [hSource]
    exact SymbolicState.history_of_bare hBare
  | cons first rest =>
    obtain ⟨hNew, hRest, hHistory⟩ := hOld
    have hLater : u.errorState.incoming.isEmpty = false := by rw [hIncoming]; rfl
    rw [hLater] at hBare
    refine ⟨hNew, ?_, ?_⟩
    · intro t ht
      rcases List.mem_append.mp ht with hMem | hMem
      · exact hRest t hMem
      · obtain rfl := List.mem_singleton.mp hMem
        exact hLater
    · rw [hStarts first List.mem_cons_self, ← hHistory]
      exact SymbolicState.history_of_bare hBare

/-- A successor does not count as an error. -/
theorem Routed.recorded_enterSuccessor (h : Routed u) (hLinked : Linked u) (hu : u.WellFormed) :
    (u.enterSuccessor l source depth s new).Recorded
      ((u.enterSuccessor l source depth s new).transitions.toList.filter (·.reachedError)) := by
  have hHistory : ∀ id < u.states.size,
      ((u.enterSuccessor l source depth s new).state id).history = (u.state id).history := by
    intro id hid
    refine SymbolicState.history_of_bare ?_
    rw [bare_enterSuccessor, if_neg (Nat.ne_of_lt hid)]
  have hErrors :
      (u.enterSuccessor l source depth s new).transitions.toList.filter (·.reachedError) =
        u.transitions.toList.filter (·.reachedError) := by
    rw [transitions_enterSuccessor, Array.toList_push, List.filter_append]
    simp
  rw [hErrors]
  refine h.recorded.congr (hHistory errorId hu.nonempty) fun t ht => hHistory t.start ?_
  exact (hLinked.ends t (Array.mem_toList_iff.mp (List.mem_filter.mp ht).1)).1

/-- Every change keeps the histories along the transitions. -/
theorem Change.routed (h : Change u v) (hu : u.WellFormed) (hLinked : Linked u)
    (hRouted : Routed u) : Routed v := by
  cases h with
  | default =>
    refine hRouted.congr hLinked rfl rfl hu.nonempty fun id hid => ?_
    rw [state_withDefault, if_neg (Nat.ne_of_lt hid)]
  | fired hFire hSource hne hl =>
    cases hFire with
    | disabled => exact hRouted
    | failed =>
      refine hRouted.push hLinked transitions_enterError system_enterError ⟨_, hl, rfl⟩ hSource hne
        ?_ (iff_of_true rfl rfl) ?_ (hRouted.recorded_enterError hLinked hu hne)
      · intro id _ hid
        exact SymbolicState.history_of_bare (bare_enterError hid)
      · intro id hid hTarget
        exact absurd (Option.some.inj hTarget).symm hid
    | succeeded new =>
      have hNew : u.states.size ≠ errorId := Nat.ne_of_gt hu.nonempty
      refine hRouted.push hLinked transitions_enterSuccessor rfl ⟨_, hl, rfl⟩ hSource hne ?_ ?_ ?_
        (hRouted.recorded_enterSuccessor hLinked hu)
      · intro id hid _
        refine SymbolicState.history_of_bare ?_
        rw [bare_enterSuccessor, if_neg (Nat.ne_of_lt hid)]
      · refine iff_of_false (by simp) fun hTarget => hNew (Option.some.inj hTarget)
      · intro id _ hTarget
        obtain rfl : u.states.size = id := Option.some.inj hTarget
        exact ⟨Nat.le_refl _, SymbolicState.history_of_bare (bare_entered u _ _ _ new)⟩
  | _ => exact hRouted.congr hLinked rfl rfl hu.nonempty fun _ _ => rfl

/-! ## Lists -/

/-- What is listed as new is listed, and the error state is listed as new once, after it was
reached. -/
structure Listed (u : Unrolling) : Prop where
  fresh : ∀ k, (u.layer k).fresh ⊆ (u.layer k).all
  once : ∀ k, (u.layer k).fresh.count errorId ≤ 1
  alone : ∀ j k, errorId ∈ (u.layer j).fresh → errorId ∈ (u.layer k).fresh → j = k
  reached : ∀ k, errorId ∈ (u.layer k).fresh → u.errorState.incoming ≠ []

/-- Changes that list the error state no more often than before. -/
theorem Listed.congr (h : Listed u) (hv : v.WellFormed)
    (hCount : ∀ k, (v.layer k).fresh.count errorId ≤ (u.layer k).fresh.count errorId)
    (hIncoming : u.errorState.incoming ≠ [] → v.errorState.incoming ≠ []) : Listed v := by
  have hMem : ∀ k, errorId ∈ (v.layer k).fresh → errorId ∈ (u.layer k).fresh := by
    intro k hk
    have := List.count_pos_iff.mpr hk
    exact List.count_pos_iff.mp (Nat.lt_of_lt_of_le this (hCount k))
  exact ⟨hv.fresh, fun k => (hCount k).trans (h.once k),
    fun j k hj hk => h.alone j k (hMem j hj) (hMem k hk),
    fun k hk => hIncoming (h.reached k (hMem k hk))⟩

/-- Entering an error keeps the lists in order. -/
theorem Listed.enterError (h : Listed u) (hu : u.WellFormed) :
    Listed (u.enterError l source depth) := by
  have hIncoming : (u.enterError l source depth).errorState.incoming ≠ [] :=
    incoming_enterError hu.nonempty
  by_cases hFirst : u.errorState.incoming = []
  · -- the error state has not been listed anywhere, and is listed at this depth now
    have hNone : ∀ k, errorId ∉ (u.layer k).fresh := fun k hk => h.reached k hk hFirst
    have hLayer : ∀ k, ((u.enterError l source depth).layer k).fresh =
        if k = depth then (u.layer depth).fresh ++ [errorId] else (u.layer k).fresh := by
      intro k
      rw [layer_enterError, hFirst]
      split <;> rfl
    have hMem : ∀ k, errorId ∈ ((u.enterError l source depth).layer k).fresh → k = depth := by
      intro k hk
      by_contra hne
      rw [hLayer, if_neg hne] at hk
      exact hNone k hk
    refine ⟨hu.enterError.fresh, fun k => ?_, fun j k hj hk => ?_, fun _ _ => hIncoming⟩
    · rw [hLayer]
      split
      · simp [List.count_eq_zero_of_not_mem (hNone depth)]
      · simp [List.count_eq_zero_of_not_mem (hNone k)]
    · exact (hMem j hj).trans (hMem k hk).symm
  · refine h.congr hu.enterError (fun k => ?_) fun _ => hIncoming
    have hLater : u.errorState.incoming.isEmpty = false := by simpa using hFirst
    rw [layer_enterError, hLater]
    split
    · next heq => exact Nat.le_of_eq (by rw [heq]; rfl)
    · exact Nat.le_refl _

/-- Every change keeps the lists in order. -/
theorem Change.listed (h : Change u v) (hu : u.WellFormed) (hListed : Listed u) : Listed v := by
  have hv := h.wellFormed hu
  cases h with
  | default =>
    refine hListed.congr hv (fun _ => Nat.le_refl _) fun hIncoming => ?_
    rw [errorState, state_withDefault, if_neg (Nat.ne_of_lt hu.nonempty)]
    exact hIncoming
  | appended depth _ hne =>
    refine hListed.congr hv (fun k => ?_) fun hIncoming => hIncoming
    rw [layer_modifyLayer]
    split
    · next heq =>
      rw [heq, List.count_append, List.count_singleton, if_neg (by simpa using hne)]
      exact Nat.le_refl _
    · exact Nat.le_refl _
  | opened depth =>
    refine hListed.congr hv (fun k => ?_) fun hIncoming => hIncoming
    rw [layer_modifyLayer_id]
  | dropped depth =>
    refine hListed.congr hv (fun k => ?_) fun hIncoming => hIncoming
    rw [layer_modifyLayer]
    split
    · exact Nat.zero_le _
    · exact Nat.le_refl _
  | @fired _ _ source l _ hFire =>
    cases hFire with
    | disabled => exact hListed
    | failed => exact hListed.enterError hu
    | succeeded new =>
      refine hListed.congr hv (fun k => ?_) (grows_enterSuccessor hu rfl).failed
      have hNew : u.states.size ≠ errorId := Nat.ne_of_gt hu.nonempty
      have hid : (u.successor l source).id = u.states.size := rfl
      rw [layer_enterSuccessor]
      grind
  | settled => exact hListed.congr hv (fun _ => Nat.le_refl _) fun hIncoming => hIncoming

/-! ## Integrity -/

/-- States, links, routes and lists are as they should be. -/
structure Intact (u : Unrolling) : Prop where
  states : Numbered u
  links : Linked u
  routes : Routed u
  lists : Listed u

/-- Before the start, everything is intact. -/
theorem intact_unstarted (system : System) : Intact { system := system } where
  states := {
    ids := fun id hid => by obtain rfl := Nat.lt_one_iff.mp hid; rfl
    isError := (orderly_unstarted system).wellFormed.isError_iff
    formulas := rfl }
  links := {
    numbered := rfl
    ends := by simp
    incoming := fun id hid => by obtain rfl := Nat.lt_one_iff.mp hid; rfl
    outgoing := fun id hid => by obtain rfl := Nat.lt_one_iff.mp hid; rfl }
  routes := {
    start_ne := by simp
    label := by simp
    reachedError := by simp
    history := by simp
    unique := by simp [transitionsInto]
    recorded := rfl }
  lists := {
    fresh := fun k id hid => by cases hid
    once := fun k => Nat.zero_le 1
    alone := fun j k hj => by cases hj
    reached := fun k hk => by cases hk }

/-- Links in the order of their numbers. -/
theorem Linked.pairwise (h : Linked u) (hid : id < u.states.size) :
    (u.state id).incoming.Pairwise (· < ·) ∧ (u.state id).outgoing.Pairwise (· < ·) := by
  have hAll : (u.transitions.toList.map (·.id)).Pairwise (· < ·) := by
    rw [h.numbered]
    exact List.pairwise_lt_range'
  rw [h.incoming id hid, h.outgoing id hid]
  exact ⟨hAll.sublist (List.filter_sublist.map _), hAll.sublist (List.filter_sublist.map _)⟩

theorem Change.intact (h : Change u v) (hu : u.WellFormed) (hIntact : Intact u) : Intact v :=
  ⟨h.numbered hu hIntact.states, h.linked hu hIntact.links,
    h.routed hu hIntact.links hIntact.routes, h.listed hu hIntact.lists⟩

theorem Reached.intact (h : Reached system u) : Intact u :=
  h.keeps Intact (intact_unstarted system) fun _ _ hu _ hIntact hChange =>
    hChange.intact hu hIntact

/-- Every unrolling that calls lead to is intact, and the links of its states are in order. -/
theorem intact_of_reached (h : Reached system u) :
    Intact u ∧ ∀ id < u.states.size,
      (u.state id).incoming.Pairwise (· < ·) ∧ (u.state id).outgoing.Pairwise (· < ·) :=
  ⟨h.intact, fun _ hid => h.intact.links.pairwise hid⟩

/-- An error where the variable is set, which the constructor does. -/
def trippingSystem : System where
  stateVariables := [switch]
  labels := [makeLabel,
    { name := "trip", stateVariables := [switch], preconditions := [.var switch], isError := true }]

open scoped Reals

/-- A solver that leaves its second question open. -/
def hesitant : Surroundings (Nat × Unit) :=
  { solver := Solver.exhaustive.withGaps [2] }

/-- The first iteration, in which the second question stays open if nothing has been fired yet. -/
def iterateHesitantly (u : Unrolling) : Unrolling :=
  (outcome (iterate hesitant 1 { memory := (u.transitions.size * 2, ()), work := u })).2

theorem Reached.iterateHesitantly (h : Reached system u) : Reached system u.iterateHesitantly := by
  unfold Unrolling.iterateHesitantly
  cases hRun : iterate hesitant 1 { memory := (u.transitions.size * 2, ()), work := u } with
  | ok a t => exact .returned (.iterate 1) (s := { memory := _, work := u }) h (congrArg some hRun)
  | error e t => exact .failed (.iterate 1) (s := { memory := _, work := u }) h (congrArg some hRun)

/-- The first iteration three times over. The first time it fails before the error label is fired,
and each time after that the error state is entered. -/
theorem intact_tripping : ∃ u, Reached trippingSystem u ∧ Intact u ∧
    u.errorState.incoming = [2, 3] ∧ u.errorState.history = ["make", "trip"] ∧
    (u.layer 1).fresh = [] := by
  have hReached : Reached trippingSystem
      ({ system := trippingSystem } :
        Unrolling).iterateHesitantly.iterateHesitantly.iterateHesitantly :=
    Reached.fresh.iterateHesitantly.iterateHesitantly.iterateHesitantly
  exact ⟨_, hReached, (intact_of_reached hReached).1, by decide +kernel⟩

end StateSpace.Unrolling
