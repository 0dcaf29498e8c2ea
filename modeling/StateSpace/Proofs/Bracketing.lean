import Mathlib.Algebra.GroupWithZero.Nat
import StateSpace.Profile

/-!
# Well bracketed events

The events of an exploration are well bracketed if each phase that starts is closed by a finish of
the same phase and depth, the latest one first, and if guards, applications and tests of novelty lie
inside the iteration of their depth (`WellBracketed`). Whatever the times, a profile that follows
such events comes to rest with an entry for each iteration (`Profile.observeAll_of_wellBracketed`).

Explorations go depth by depth (`DepthByDepth`): an iteration with phases inside, the number of new
states, and maybe phases that close the depth. Such events are well bracketed.
-/

namespace StateSpace

/-! ## Nesting -/

/-- The phases that lie inside the iteration of their depth. -/
def Phase.isInner : Phase → Bool
  | guard _ | apply _ | novelty => true
  | iteration | rename | difference => false

namespace Event

variable {active active' : List (Phase × Nat)} {phase : Phase} {depth count : Nat} {event : Event}
  {events : List Event}

/-- The phases under way after an event, the latest first, or nothing if the event is out of place.
A phase that is under way does not start again, and an inner one starts inside the iteration of its
depth. Only the latest phase finishes. -/
def nest (active : List (Phase × Nat)) : Event → Option (List (Phase × Nat))
  | started phase depth =>
    if (phase, depth) ∉ active ∧ (phase.isInner = true → (.iteration, depth) ∈ active) then
      some ((phase, depth) :: active)
    else none
  | finished phase depth =>
    if active.head? = some (phase, depth) then some active.tail else none
  | newStates _ _ => some active

theorem nest_started_eq_some :
    nest active (started phase depth) = some active' ↔
      ((phase, depth) ∉ active ∧ (phase.isInner = true → (.iteration, depth) ∈ active)) ∧
        active' = (phase, depth) :: active := by
  rw [nest, Option.ite_none_right_eq_some, Option.some_inj, eq_comm (b := active')]

theorem nest_finished_eq_some :
    nest active (finished phase depth) = some active' ↔ active = (phase, depth) :: active' := by
  rw [nest, Option.ite_none_right_eq_some, Option.some_inj]
  cases active <;> simp

theorem nest_newStates_eq_some : nest active (newStates depth count) = some active' ↔
    active' = active := by
  rw [nest, Option.some_inj, eq_comm]

theorem foldlM_nest_cons :
    (event :: events).foldlM nest active = some active' ↔
      ∃ next, nest active event = some next ∧ events.foldlM nest next = some active' := by
  rw [List.foldlM_cons]
  exact Option.bind_eq_some_iff

theorem foldlM_nest_append {later : List Event} {next : List (Phase × Nat)}
    (h : events.foldlM nest active = some next) (hLater : later.foldlM nest next = some active') :
    (events ++ later).foldlM nest active = some active' := by
  rw [List.foldlM_append, h]
  exact hLater

/-- What is under way or starts is what stays under way or finishes. -/
theorem mem_or_started_iff (h : events.foldlM nest active = some active') (key : Phase × Nat) :
    key ∈ active ∨ started key.1 key.2 ∈ events ↔
      key ∈ active' ∨ finished key.1 key.2 ∈ events := by
  induction events generalizing active with
  | nil =>
    cases h
    simp
  | cons event events ih =>
    obtain ⟨next, hNest, hRest⟩ := foldlM_nest_cons.mp h
    have ih := ih hRest
    obtain ⟨phase, depth⟩ := key
    cases event with
    | started phase' depth' =>
      obtain ⟨-, rfl⟩ := nest_started_eq_some.mp hNest
      simp only [List.mem_cons, Prod.mk.injEq, started.injEq, reduceCtorEq, false_or] at ih ⊢
      rw [← ih, or_assoc, or_left_comm]
    | finished phase' depth' =>
      obtain rfl := nest_finished_eq_some.mp hNest
      simp only [List.mem_cons, Prod.mk.injEq, finished.injEq, reduceCtorEq, false_or] at ih ⊢
      rw [or_assoc, ih, or_left_comm]
    | newStates =>
      obtain rfl := nest_newStates_eq_some.mp hNest
      simpa only [List.mem_cons, reduceCtorEq, false_or] using ih

/-- The depth of an iteration that starts. -/
def iteration? : Event → Option Nat
  | started .iteration depth => some depth
  | _ => none

/-- The depth and the number of states that are reported as new. -/
def count? : Event → Option (Nat × Nat)
  | newStates depth count => some (depth, count)
  | _ => none

theorem iteration?_eq_some : event.iteration? = some depth ↔ event = started .iteration depth := by
  cases event with
  | started phase => cases phase <;> simp [iteration?]
  | finished => simp [iteration?]
  | newStates => simp [iteration?]

theorem mem_filterMap_iteration? :
    depth ∈ events.filterMap iteration? ↔ started .iteration depth ∈ events := by
  simp only [List.mem_filterMap, iteration?_eq_some, exists_eq_right]

end Event

/-- Every phase that starts is closed by a finish of the same phase and depth, in nested order, and
inner phases lie inside the iteration of their depth. -/
def WellBracketed (events : List Event) : Prop :=
  events.foldlM Event.nest [] = some []

instance : DecidablePred WellBracketed :=
  fun events => inferInstanceAs (Decidable (events.foldlM Event.nest [] = some []))

/-! ## Profiles -/

namespace Profile

variable {p : Profile} {event : Event} {active active' : List (Phase × Nat)} {depth : Nat}

/-- Follows events, each with the time at which it is noticed. -/
def observeAll (p : Profile) (noted : List (Nat × Event)) : Profile :=
  noted.foldl (fun p entry => p.observe entry.1 entry.2) p

theorem observeAll_append (p : Profile) (noted later : List (Nat × Event)) :
    p.observeAll (noted ++ later) = (p.observeAll noted).observeAll later :=
  List.foldl_append

theorem without_of_notMem {key : Phase × Nat} (h : key ∉ p.running.map Prod.fst) :
    p.without key = p.running := by
  refine List.filter_eq_self.mpr fun entry hEntry => ?_
  have hne : entry.1 ≠ key := fun heq => h (List.mem_map.mpr ⟨entry, hEntry, heq⟩)
  simpa using hne

theorem mem_addTo {entries : Std.TreeMap Nat Nat} {key amount : Nat} :
    depth ∈ addTo entries key amount ↔ depth = key ∨ depth ∈ entries := by
  rw [addTo, Std.TreeMap.mem_insert, Nat.compare_eq_eq, eq_comm]

/-- Of a phase that was the latest to start, its time is entered. -/
theorem finish_of_latest (time : Nat) {begun : Nat} {phase : Phase}
    {rest : List ((Phase × Nat) × Nat)} (hRunning : p.running = ((phase, depth), begun) :: rest)
    (hNodup : (p.running.map Prod.fst).Nodup) :
    (p.finish time phase depth).running = rest ∧
      (p.finish time phase depth).perDepth =
        if phase = .iteration then addTo p.perDepth depth (time - begun) else p.perDepth := by
  have hLookup : p.running.lookup (phase, depth) = some begun := by
    rw [hRunning, List.lookup_cons, beq_self_eq_true]
  have hWithout : p.without (phase, depth) = rest := by
    rw [hRunning, List.map_cons, List.nodup_cons] at hNodup
    rw [without, hRunning, List.filter_cons_of_neg (by simp)]
    exact without_of_notMem (p := { p with running := rest }) hNodup.1
  rw [finish, hLookup]
  exact ⟨hWithout, rfl⟩

/-- As long as no event is out of place, the profile knows the phases under way, and each iteration
that finishes gets an entry. -/
theorem observe_of_nest (hRunning : p.running.map Prod.fst = active) (hNodup : active.Nodup)
    (hNest : Event.nest active event = some active') (time : Nat) :
    (p.observe time event).running.map Prod.fst = active' ∧ active'.Nodup ∧
      ∀ depth, depth ∈ (p.observe time event).perDepth ↔
        depth ∈ p.perDepth ∨ event = .finished .iteration depth := by
  cases event with
  | started phase depth =>
    obtain ⟨⟨hNew, -⟩, rfl⟩ := Event.nest_started_eq_some.mp hNest
    have hWithout := without_of_notMem (hRunning ▸ hNew)
    refine ⟨?_, List.nodup_cons.mpr ⟨hNew, hNodup⟩, by simp [observe, start]⟩
    simp only [observe, start, hWithout, List.map_cons, hRunning]
  | finished phase depth =>
    obtain rfl := Event.nest_finished_eq_some.mp hNest
    obtain ⟨⟨_, begun⟩, rest, hCons, rfl, rfl⟩ := List.map_eq_cons_iff.mp hRunning
    obtain ⟨hRest, hPerDepth⟩ := finish_of_latest time hCons (hRunning ▸ hNodup)
    refine ⟨congrArg _ hRest, (List.nodup_cons.mp hNodup).2, fun depth' => ?_⟩
    rw [observe, hPerDepth]
    split
    · next hIteration =>
      rw [mem_addTo, Event.finished.injEq, or_comm, eq_comm (a := depth')]
      exact or_congr_right (and_iff_right hIteration).symm
    · next hIteration => simp [hIteration]
  | newStates depth count =>
    obtain rfl := Event.nest_newStates_eq_some.mp hNest
    exact ⟨hRunning, hNodup, by simp [observe]⟩

/-- Following nested events keeps the open phases of the profile in step with the nesting. -/
theorem observeAll_of_nest {noted : List (Nat × Event)} (hRunning : p.running.map Prod.fst = active)
    (hNodup : active.Nodup) (hNest : (noted.map Prod.snd).foldlM Event.nest active = some active') :
    (p.observeAll noted).running.map Prod.fst = active' ∧
      ∀ depth, depth ∈ (p.observeAll noted).perDepth ↔
        depth ∈ p.perDepth ∨ .finished .iteration depth ∈ noted.map Prod.snd := by
  induction noted generalizing p active with
  | nil =>
    cases hNest
    exact ⟨hRunning, by simp [observeAll]⟩
  | cons entry noted ih =>
    obtain ⟨next, hFirst, hRest⟩ := Event.foldlM_nest_cons.mp hNest
    obtain ⟨hRunning', hNodup', hPerDepth⟩ := observe_of_nest hRunning hNodup hFirst entry.1
    obtain ⟨hEnd, hEntries⟩ := ih hRunning' hNodup' hRest
    refine ⟨hEnd, fun depth => (hEntries depth).trans ?_⟩
    rw [hPerDepth, List.map_cons, List.mem_cons, or_assoc, eq_comm (a := entry.2)]

/-- A profile that is fed with well bracketed events comes to rest, with an entry for each
iteration. -/
theorem observeAll_of_wellBracketed {noted : List (Nat × Event)} (hRest : p.running = [])
    (h : WellBracketed (noted.map Prod.snd)) :
    (p.observeAll noted).running = [] ∧ ∀ depth, depth ∈ (p.observeAll noted).perDepth ↔
      depth ∈ p.perDepth ∨ .started .iteration depth ∈ noted.map Prod.snd := by
  obtain ⟨hRunning, hEntries⟩ := observeAll_of_nest (by rw [hRest]; rfl) List.nodup_nil h
  refine ⟨List.map_eq_nil_iff.mp hRunning, fun depth => (hEntries depth).trans ?_⟩
  have hClosed := Event.mem_or_started_iff h (.iteration, depth)
  simp only [List.not_mem_nil, false_or] at hClosed
  rw [hClosed]

/-- A profile adds up what is reported as new. -/
theorem newStatesAt_observeAll (p : Profile) (noted : List (Nat × Event)) (depth : Nat) :
    (p.observeAll noted).newStatesAt depth = p.newStatesAt depth +
      (((noted.map Prod.snd).filterMap Event.count?).map
        fun entry => if entry.1 = depth then entry.2 else 0).sum := by
  induction noted generalizing p with
  | nil => rfl
  | cons entry noted ih =>
    refine (ih (p.observe entry.1 entry.2)).trans ?_
    obtain ⟨time, event⟩ := entry
    cases event with
    | started phase depth' => rfl
    | finished phase depth' =>
      have hSame : (p.finish time phase depth').newStates = p.newStates := by
        unfold finish
        split <;> rfl
      simp only [observe, newStatesAt, hSame, List.map_cons, Event.count?, List.filterMap_cons]
    | newStates depth' count =>
      simp only [observe, newStatesAt, addTo, Std.TreeMap.getD_insert, Nat.compare_eq_eq,
        List.map_cons, Event.count?, List.filterMap_cons, List.sum_cons]
      split
      · next heq => rw [heq, Nat.add_assoc]
      · rw [Nat.zero_add]

/-- The report has a line for each depth with an entry. -/
theorem exists_line_of_mem (h : depth ∈ p.perDepth) : ∃ time,
    s!"  depth {depth}: {span time}, {p.newStatesAt depth} new states" ∈ p.reportLines := by
  rw [Std.TreeMap.mem_iff_isSome_getElem?, Option.isSome_iff_exists] at h
  obtain ⟨time, hTime⟩ := h
  refine ⟨time, List.mem_append_left _ (List.mem_append_left _ (List.mem_append_right _ ?_))⟩
  exact List.mem_map.mpr ⟨(depth, time), Std.TreeMap.mem_toList_iff_getElem?_eq_some.mpr hTime, rfl⟩

end Profile

/-! ## Depth by depth -/

/-- Phases of one depth, each finished before the next one starts. -/
inductive Turns (P : Phase → Prop) (depth : Nat) : List Event → Prop
  | nil : Turns P depth []
  | cons {phase : Phase} {events : List Event} (hPhase : P phase) (hRest : Turns P depth events) :
      Turns P depth (.started phase depth :: .finished phase depth :: events)

namespace Turns

variable {P : Phase → Prop} {depth : Nat} {events later : List Event}

theorem append (h : Turns P depth events) (hLater : Turns P depth later) :
    Turns P depth (events ++ later) := by
  induction h with
  | nil => exact hLater
  | cons hPhase _ ih => exact .cons hPhase ih

/-- Phases that take turns leave the nesting as they found it. -/
theorem foldlM_nest (h : Turns P depth events) {active : List (Phase × Nat)}
    (hActive : ∀ phase, P phase → (phase, depth) ∉ active ∧
      (phase.isInner = true → (.iteration, depth) ∈ active)) :
    events.foldlM Event.nest active = some active := by
  induction h with
  | nil => rfl
  | @cons phase events hPhase _ ih =>
    refine Event.foldlM_nest_cons.mpr
      ⟨_, Event.nest_started_eq_some.mpr ⟨hActive phase hPhase, rfl⟩, ?_⟩
    exact Event.foldlM_nest_cons.mpr ⟨_, Event.nest_finished_eq_some.mpr rfl, ih⟩

theorem filterMap_eq_nil {α : Type} (h : Turns P depth events) {f : Event → Option α}
    (hf : ∀ phase, P phase → f (.started phase depth) = none ∧ f (.finished phase depth) = none) :
    events.filterMap f = [] := by
  induction h with
  | nil => rfl
  | @cons phase events hPhase _ ih =>
    rw [List.filterMap_cons_none (hf phase hPhase).1, List.filterMap_cons_none (hf phase hPhase).2,
      ih]

end Turns

/-- The phases that close a depth. -/
def Phase.IsClosing (phase : Phase) : Prop :=
  phase = .rename ∨ phase = .difference

/-- The events of consecutive depths, given the depth before and the number of new states of
each. -/
inductive DepthByDepth : Nat → List Nat → List Event → Prop
  | nil (depth : Nat) : DepthByDepth depth [] []
  | cons {depth count : Nat} {counts : List Nat} {inner closing events : List Event}
      (hInner : Turns (·.isInner = true) (depth + 1) inner)
      (hClosing : Turns Phase.IsClosing (depth + 1) closing)
      (hRest : DepthByDepth (depth + 1) counts events) :
      DepthByDepth depth (count :: counts)
        ((.started .iteration (depth + 1) :: inner) ++
          .finished .iteration (depth + 1) :: .newStates (depth + 1) count :: closing ++ events)

namespace DepthByDepth

variable {depth : Nat} {counts later : List Nat} {events events' : List Event}

/-- Reports of later depths may follow. -/
theorem append (h : DepthByDepth depth counts events)
    (hLater : DepthByDepth (depth + counts.length) later events') :
    DepthByDepth depth (counts ++ later) (events ++ events') := by
  induction h with
  | nil depth => exact hLater
  | @cons depth count counts inner closing events hInner hClosing _ ih =>
    rw [List.append_assoc]
    refine .cons hInner hClosing (ih ?_)
    rwa [List.length_cons, ← Nat.add_assoc, Nat.add_right_comm] at hLater

/-- A report depth by depth is well bracketed. -/
theorem wellBracketed (h : DepthByDepth depth counts events) : WellBracketed events := by
  induction h with
  | nil => rfl
  | @cons depth count counts inner closing events hInner hClosing _ ih =>
    have hStart : Event.nest [] (.started .iteration (depth + 1)) =
      some [(.iteration, depth + 1)] :=
      Event.nest_started_eq_some.mpr ⟨⟨List.not_mem_nil, nofun⟩, rfl⟩
    have hInside : inner.foldlM Event.nest [(.iteration, depth + 1)] =
      some [(.iteration, depth + 1)] := by
      refine hInner.foldlM_nest fun phase hPhase =>
        ⟨fun hMem => ?_, fun _ => List.mem_singleton.mpr rfl⟩
      cases List.mem_singleton.mp hMem
      cases hPhase
    have hOutside : closing.foldlM Event.nest [] = some [] := by
      refine hClosing.foldlM_nest fun phase hPhase => ⟨List.not_mem_nil, fun hInner => ?_⟩
      rcases hPhase with rfl | rfl <;> cases hInner
    refine Event.foldlM_nest_append (Event.foldlM_nest_append
      (Event.foldlM_nest_cons.mpr ⟨_, hStart, hInside⟩) ?_) ih
    refine Event.foldlM_nest_cons.mpr ⟨[], Event.nest_finished_eq_some.mpr rfl, ?_⟩
    exact Event.foldlM_nest_cons.mpr ⟨[], Event.nest_newStates_eq_some.mpr rfl, hOutside⟩

/-- The iterations are reported once a depth and in order. -/
theorem filterMap_iteration? (h : DepthByDepth depth counts events) :
    events.filterMap Event.iteration? = List.range' (depth + 1) counts.length := by
  induction h with
  | nil => rfl
  | @cons depth count counts inner closing events hInner hClosing _ ih =>
    have hInside : inner.filterMap Event.iteration? = [] := by
      refine hInner.filterMap_eq_nil fun phase hPhase => ?_
      cases phase with
      | iteration => cases hPhase
      | _ => exact ⟨rfl, rfl⟩
    have hOutside : closing.filterMap Event.iteration? = [] := by
      refine hClosing.filterMap_eq_nil fun phase hPhase => ?_
      rcases hPhase with rfl | rfl <;> exact ⟨rfl, rfl⟩
    simp only [List.filterMap_append, List.filterMap_cons, Event.iteration?, hInside, hOutside, ih,
      List.length_cons, List.range'_succ, List.append_nil, List.nil_append, List.cons_append]

/-- Each depth reports its number of new states once. -/
theorem filterMap_count? (h : DepthByDepth depth counts events) :
    events.filterMap Event.count? = (List.range' (depth + 1) counts.length).zip counts := by
  induction h with
  | nil => rfl
  | @cons depth count counts inner closing events hInner hClosing _ ih =>
    have hInside : inner.filterMap Event.count? = [] :=
      hInner.filterMap_eq_nil fun _ _ => ⟨rfl, rfl⟩
    have hOutside : closing.filterMap Event.count? = [] :=
      hClosing.filterMap_eq_nil fun _ _ => ⟨rfl, rfl⟩
    simp only [List.filterMap_append, List.filterMap_cons, Event.count?, hInside, hOutside, ih,
      List.length_cons, List.range'_succ, List.zip_cons_cons, List.nil_append, List.cons_append]

end DepthByDepth

end StateSpace
