import StateSpace.Proofs.Bracketing
import StateSpace.Proofs.Exploration

/-!
# What explorations report

Whatever an exploration does, what it reports is added to the events so far, and the profile follows
it (`Explore.Reports`). So it is enough to know the events of a run: if they go depth by depth, then
the observer gets well bracketed events and its profile comes to rest (`Explore.Observed`), and the
numbers of new states are the ones that the profile shows (`Explore.Counts`).
-/

namespace StateSpace

variable {σ ω ω' ω'' α β : Type} {env : Surroundings σ}

/-- What the observer gets of some events. -/
def Surroundings.heard (env : Surroundings σ) (events : List Event) : List Event :=
  if env.watched then events else []

theorem Surroundings.heard_append (env : Surroundings σ) (events later : List Event) :
    env.heard (events ++ later) = env.heard events ++ env.heard later := by
  unfold heard
  split <;> rfl

namespace Explore

/-! ## Reports -/

/-- These events are reported from one point of a run to another, in this order. -/
structure Reports (env : Surroundings σ) (events : List Event) (s : Session σ ω)
    (t : Session σ ω') : Prop where
  trace : t.trace = (env.heard events).reverse ++ s.trace
  profile : ∃ noted : List (Nat × Event), noted.map Prod.snd = env.heard events ∧
    t.profile = s.profile.observeAll noted

namespace Reports

variable {events later : List Event} {s : Session σ ω} {r : Session σ ω'} {t : Session σ ω''}

theorem nothing (hTrace : r.trace = s.trace) (hProfile : r.profile = s.profile) :
    Reports env [] s r := by
  have hNone : env.heard [] = [] := ite_self []
  exact ⟨by rw [hNone, hTrace]; rfl, [], by rw [hNone]; rfl, hProfile⟩

theorem trans (h : Reports env events s r) (hLater : Reports env later r t) :
    Reports env (events ++ later) s t := by
  obtain ⟨noted, hNoted, hProfile⟩ := h.profile
  obtain ⟨noted', hNoted', hProfile'⟩ := hLater.profile
  refine ⟨?_, noted ++ noted', ?_, ?_⟩
  · rw [hLater.trace, h.trace, env.heard_append, List.reverse_append, List.append_assoc]
  · rw [List.map_append, hNoted, hNoted', env.heard_append]
  · rw [hProfile', hProfile, Profile.observeAll_append]

/-- What is done quietly goes unnoticed. -/
theorem of_quietly (h : Reports env.quietly events s r) : Reports env [] s r := by
  obtain ⟨noted, hNoted, hProfile⟩ := h.profile
  refine nothing h.trace ?_
  rw [hProfile, List.map_eq_nil_iff.mp hNoted]
  rfl

end Reports

section Steps

variable {s : Session σ ω} {Q : α → Session σ ω → Prop} {R : Session σ ω → Prop}

/-- A report adds its event and nothing else. -/
theorem ensures_reports (env : Surroundings σ) (event : Event) :
    Ensures s (report env event) (fun _ t => t.work = s.work ∧ Reports env [event] s t) R := by
  let Q (t : Session σ ω) : Prop := t.work = s.work ∧ Reports env [event] s t
  show Q (if env.watched then _ else s)
  split
  · next hWatched =>
    have hHeard : env.heard [event] = [event] := if_pos hWatched
    exact ⟨rfl, by rw [hHeard]; rfl, [(env.clock s.memory, event)], by rw [hHeard]; rfl, rfl⟩
  · next hWatched =>
    have hHeard : env.heard [event] = [] := if_neg hWatched
    exact ⟨rfl, by rw [hHeard]; rfl, [], by rw [hHeard]; rfl, rfl⟩

theorem Ensures.reports_bind {event : Event} {next : Unit → Explore σ ω α}
    (h : ∀ t, t.work = s.work → Reports env [event] s t → Ensures t (next ()) Q R) :
    Ensures s (report env event >>= next) Q R :=
  (ensures_reports env event).bind fun _ t ⟨hWork, ht⟩ => h t hWork ht

/-- A question within a phase is one turn of it, unless it stays open. -/
theorem ensures_holdsDuring_reports (phase : Phase) (depth : Nat) (question : Question) (e : Expr) :
    Ensures s (holdsDuring env phase depth question e)
      (fun _ t => t.work = s.work ∧
        Reports env [.started phase depth, .finished phase depth] s t) (fun _ => True) := by
  refine .reports_bind fun t ht hStart => ?_
  refine Ensures.bind (Q := fun _ r => r.work = t.work ∧ r.trace = t.trace ∧ r.profile = t.profile)
    ⟨rfl, rfl, rfl⟩ fun verdict r ⟨hr, hTrace, hProfile⟩ => ?_
  refine .reports_bind fun q hq hFinish => ?_
  have hTurn := (hStart.trans (.nothing hTrace hProfile)).trans hFinish
  have hWork : q.work = s.work := hq.trans (hr.trans ht)
  cases verdict with
  | sat => exact ⟨hWork, hTurn⟩
  | unsat => exact ⟨hWork, hTurn⟩
  | dontKnow => trivial

end Steps

/-! ## Inside an iteration -/

/-- What is reported from one point of a run to another are turns of inner phases of this depth. -/
def Inside (env : Surroundings σ) (depth : Nat) (s t : Session σ ω) : Prop :=
  ∃ events, Turns (·.isInner = true) depth events ∧ Reports env events s t

namespace Inside

variable {depth : Nat} {s r t : Session σ ω}

theorem nothing (hTrace : t.trace = s.trace) (hProfile : t.profile = s.profile) :
    Inside env depth s t :=
  ⟨[], .nil, .nothing hTrace hProfile⟩

theorem refl (env : Surroundings σ) (depth : Nat) (s : Session σ ω) : Inside env depth s s :=
  nothing rfl rfl

theorem trans (h : Inside env depth s r) (hLater : Inside env depth r t) :
    Inside env depth s t := by
  obtain ⟨events, hTurns, hReports⟩ := h
  obtain ⟨later, hTurns', hReports'⟩ := hLater
  exact ⟨events ++ later, hTurns.append hTurns', hReports.trans hReports'⟩

theorem turn {phase : Phase} (hPhase : phase.isInner = true)
    (h : Reports env [.started phase depth, .finished phase depth] s t) : Inside env depth s t :=
  ⟨_, .cons hPhase .nil, h⟩

end Inside

/-- What is asked within an inner phase stays inside the iteration. -/
theorem ensures_holdsDuring_inside {s : Session σ ω} {phase : Phase} (hPhase : phase.isInner = true)
    (depth : Nat) (question : Question) (e : Expr) :
    Ensures s (holdsDuring env phase depth question e)
      (fun _ t => t.work = s.work ∧ Inside env depth s t) (fun _ => True) :=
  (ensures_holdsDuring_reports phase depth question e).mono
    (fun _ _ ⟨hWork, hReports⟩ => ⟨hWork, .turn hPhase hReports⟩) fun _ h => h

/-! ## Observers -/

section Observers

variable {events : List Event} {depth : Nat} {counts : List Nat} {s : Session σ ω}
  {t : Session σ ω'}

/-- What the observer of a run gets: well bracketed events with iterations of these depths. If no
phase was under way, then its profile comes to rest, with entries for these depths and those it
had. -/
structure Observed (s : Session σ ω) (t : Session σ ω') (depths : List Nat) : Prop where
  bracketed : ∃ events : List Event, t.trace = events.reverse ++ s.trace ∧ WellBracketed events ∧
    events.filterMap Event.iteration? = depths
  rests : s.profile.running = [] → t.profile.running = []
  entries : s.profile.running = [] →
    ∀ depth, depth ∈ t.profile.perDepth ↔ depth ∈ s.profile.perDepth ∨ depth ∈ depths

/-- The numbers of new states that the observer of a run gets: one for each of these depths, in this
order. They are added up by its profile, and a new profile shows them. -/
structure Counts (s : Session σ ω) (t : Session σ ω') (depths : List Nat) (count : Nat → Nat) :
    Prop where
  reported : ∃ events : List Event, t.trace = events.reverse ++ s.trace ∧
    events.filterMap Event.count? = depths.map fun depth => (depth, count depth)
  added : ∀ depth, t.profile.newStatesAt depth =
    s.profile.newStatesAt depth + if depth ∈ depths then count depth else 0
  shown : s.profile = {} → ∀ depth ∈ depths, ∃ time,
    s!"  depth {depth}: {Profile.span time}, {count depth} new states" ∈ t.profile.reportLines

/-- Of one entry for each depth, at most one counts for a given depth. -/
theorem sum_entries {depths : List Nat} (hNodup : depths.Nodup) (count : Nat → Nat) (depth : Nat) :
    ((depths.map fun k => (k, count k)).map fun entry =>
      if entry.1 = depth then entry.2 else 0).sum = if depth ∈ depths then count depth else 0 := by
  induction depths with
  | nil => rfl
  | cons k rest ih =>
    obtain ⟨hk, hRest⟩ := List.nodup_cons.mp hNodup
    rw [List.map_cons, List.map_cons, List.sum_cons, ih hRest]
    by_cases heq : k = depth
    · subst heq
      simp [hk]
    · simp [heq, Ne.symm heq]

variable (hWatched : env.watched = true) (hReports : Reports env events s t)
  (hDepths : DepthByDepth depth counts events)

include hWatched hReports hDepths

/-- Depths reported one by one are observed one by one. -/
theorem observed_of_depths : Observed s t (List.range' (depth + 1) counts.length) := by
  have hHeard : env.heard events = events := if_pos hWatched
  obtain ⟨noted, hNoted, hProfile⟩ := hReports.profile
  rw [hHeard] at hNoted
  have hBracketed := hDepths.wellBracketed
  have hIterated := hDepths.filterMap_iteration?
  have hRest := fun hRunning : s.profile.running = [] =>
    Profile.observeAll_of_wellBracketed hRunning (hNoted ▸ hBracketed)
  refine ⟨⟨events, by rw [hReports.trace, hHeard], hBracketed, hIterated⟩, fun hRunning => ?_,
    fun hRunning depth' => ?_⟩
  · rw [hProfile]
    exact (hRest hRunning).1
  · rw [hProfile, (hRest hRunning).2, hNoted, ← hIterated, Event.mem_filterMap_iteration?]

/-- Depths reported one by one are counted as reported. -/
theorem counts_of_depths (count : Nat → Nat)
    (hCount : counts = (List.range' (depth + 1) counts.length).map count) :
    Counts s t (List.range' (depth + 1) counts.length) count := by
  have hHeard : env.heard events = events := if_pos hWatched
  obtain ⟨noted, hNoted, hProfile⟩ := hReports.profile
  rw [hHeard] at hNoted
  have hObserved := observed_of_depths hWatched hReports hDepths
  have hReported := hDepths.filterMap_count?
  have hNodup : (List.range' (depth + 1) counts.length).Nodup := List.nodup_range'
  generalize List.range' (depth + 1) counts.length = depths at hCount hObserved hReported hNodup ⊢
  have hEntries : events.filterMap Event.count? = depths.map fun k => (k, count k) := by
    rw [hReported, hCount, List.zip_eq_zipWith, List.zipWith_map_right, List.zipWith_self]
  have hAdded : ∀ depth, t.profile.newStatesAt depth =
      s.profile.newStatesAt depth + if depth ∈ depths then count depth else 0 := by
    intro depth
    rw [hProfile, Profile.newStatesAt_observeAll, hNoted, hEntries, sum_entries hNodup]
  refine ⟨⟨events, by rw [hReports.trace, hHeard], hEntries⟩, hAdded, fun hNew depth hDepth => ?_⟩
  have hEntry : depth ∈ t.profile.perDepth :=
    (hObserved.entries (by rw [hNew]) depth).mpr (.inr hDepth)
  obtain ⟨time, hLine⟩ := Profile.exists_line_of_mem hEntry
  have hZero : s.profile.newStatesAt depth = 0 := by
    rw [hNew]
    rfl
  rw [hAdded, hZero, if_pos hDepth, Nat.zero_add] at hLine
  exact ⟨time, hLine⟩

end Observers

end Explore

end StateSpace
