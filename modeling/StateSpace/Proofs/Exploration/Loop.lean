import StateSpace.Proofs.Exploration

/-!
# Turns of an exploration

Nothing bounds the number of turns that an exploration takes. `Exploration.after n` is its first
step and at most `n` turns, and tells whether the last of them goes on. An exploration has a result
if and only if some number of turns leads to it (`Exploration.run_eq_some_iff`). So a statement
about runs is proved for all first turns, by induction on their number, and a run that ends is
evaluated through as many turns as it takes (`Exploration.returns`).
-/

namespace StateSpace

/-- Rounds one after the other, each from where the one before led. -/
def Explore.rounds {σ ω β : Type} (round : β → Explore σ ω β) : Nat → β → Explore σ ω β
  | 0, b => return b
  | n + 1, b => do
    let b ← round b
    rounds round n b

/-- One round after the others. -/
theorem Explore.rounds_add_one {σ ω β : Type} {round : β → Explore σ ω β} {n : Nat} {b b' : β}
    {s t : Session σ ω} (h : rounds round n b s = .ok b' t) :
    rounds round (n + 1) b s = round b' t := by
  induction n generalizing b s with
  | zero =>
    cases h
    show (round b' >>= pure) t = round b' t
    cases hRound : round b' t with
    | ok c r => exact bind_run_of_ok hRound
    | error e r => exact bind_run_of_error hRound
  | succ n ih =>
    obtain ⟨c, r, hRound, hRest⟩ := bind_eq_ok.mp h
    exact (bind_run_of_ok hRound).trans (ih hRest)

/-- A result, whatever is returned. -/
def Explore.discard {σ ω α : Type} :
    EStateM.Result Failure (Session σ ω) α → EStateM.Result Failure (Session σ ω) Unit
  | .ok _ t => .ok () t
  | .error e t => .error e t

/-- One thing holds of a turn that goes on, another one of a turn that ends. -/
def Turn.Satisfies {β α : Type} (Again : β → Prop) (Done : α → Prop) : Turn β α → Prop
  | .again b => Again b
  | .done a => Done a

/-- How turns of two explorations end: both go on, both have a result, or only the second one has,
while the first one goes on. -/
def Turn.Meets {σ ω α β : Type} (Along : β → Session σ ω → β → Session σ ω → Prop)
    (Apart : β → Session σ ω → α → Prop) (Agree : α → α → Prop) :
    Turn β α → Session σ ω → Turn β α → Session σ ω → Prop
  | .again b, t, .again b', t' => Along b t b' t'
  | .again b, t, .done a', _ => Apart b t a'
  | .done a, _, .done a', _ => Agree a a'
  | .done _, _, .again _, _ => False

namespace Exploration

open Explore

variable {σ ω α β : Type} {x y : Exploration σ ω β α} {b b' : β} {s s' t : Session σ ω} {n : Nat}
  {r : EStateM.Result Failure (Session σ ω) α}

/-- At most `n` turns. -/
def turns (x : Exploration σ ω β α) : Nat → β → Explore σ ω (Turn β α)
  | 0, b => return .again b
  | n + 1, b => do
    match ← x.turn b with
    | .again b => x.turns n b
    | .done a => return .done a

/-- The first step and at most `n` turns. -/
def after (x : Exploration σ ω β α) (n : Nat) : Explore σ ω (Turn β α) := do
  let b ← x.first
  x.turns n b

/-- The first step and `n` rounds after it. -/
def through (x : Exploration σ ω β α) (round : β → Explore σ ω β) (n : Nat) : Explore σ ω β := do
  let b ← x.first
  rounds round n b

/-- Turns whose last one ends with the given result, or fails with it. -/
def ended : EStateM.Result Failure (Session σ ω) α → EStateM.Result Failure (Session σ ω) (Turn β α)
  | .ok a t => .ok (.done a) t
  | .error e t => .error e t

/-! ## Results and turns -/

theorem turns_succ_of_again (h : x.turn b s = .ok (.again b') t) :
    x.turns (n + 1) b s = x.turns n b' t :=
  bind_run_of_ok h

theorem turns_succ_of_done {a : α} (h : x.turn b s = .ok (.done a) t) :
    x.turns (n + 1) b s = .ok (.done a) t :=
  bind_run_of_ok h

theorem turns_succ_of_error {e : Failure} (h : x.turn b s = .error e t) :
    x.turns (n + 1) b s = .error e t :=
  bind_run_of_error h

/-- Turns of which all go on: so does the first one. -/
theorem turns_succ_eq_again (h : x.turns (n + 1) b s = .ok (.again b') t) :
    ∃ c r, x.turn b s = .ok (.again c) r ∧ x.turns n c r = .ok (.again b') t := by
  obtain ⟨next, r, hTurn, hRest⟩ := bind_eq_ok.mp h
  cases next with
  | again c => exact ⟨c, r, hTurn, hRest⟩
  | done a => cases hRest

/-- Turns of which all go on: before the last one, all do. -/
theorem turns_add_one_eq_again (h : x.turns (n + 1) b s = .ok (.again b') t) :
    ∃ c r, x.turns n b s = .ok (.again c) r ∧ x.turn c r = .ok (.again b') t := by
  induction n generalizing b s with
  | zero =>
    obtain ⟨c, r, hTurn, hRest⟩ := turns_succ_eq_again h
    cases hRest
    exact ⟨b, s, rfl, hTurn⟩
  | succ n ih =>
    obtain ⟨c, r, hTurn, hRest⟩ := turns_succ_eq_again h
    obtain ⟨d, q, hTurns, hLast⟩ := ih hRest
    exact ⟨d, q, (turns_succ_of_again hTurn).trans hTurns, hLast⟩

/-- Turns that end: their last one does, after some that go on. -/
theorem exists_last_turn {a : α} (h : x.turns n b s = .ok (.done a) t) :
    ∃ m c r, x.turns m b s = .ok (.again c) r ∧ x.turn c r = .ok (.done a) t := by
  induction n generalizing b s with
  | zero => cases h
  | succ n ih =>
    obtain ⟨next, r, hTurn, hRest⟩ := bind_eq_ok.mp h
    cases next with
    | again c =>
      obtain ⟨m, d, q, hTurns, hLast⟩ := ih hRest
      exact ⟨m + 1, d, q, (turns_succ_of_again hTurn).trans hTurns, hLast⟩
    | done a =>
      cases hRest
      exact ⟨0, b, s, rfl, hTurn⟩

/-- The first ones of turns that go on go on. -/
theorem exists_turns_of_le (h : x.turns n b s = .ok (.again b') t) {m : Nat} (hm : m ≤ n) :
    ∃ c r, x.turns m b s = .ok (.again c) r := by
  induction m generalizing n b s with
  | zero => exact ⟨b, s, rfl⟩
  | succ m ih =>
    obtain ⟨n, rfl⟩ : ∃ k, n = k + 1 := ⟨n - 1, by omega⟩
    obtain ⟨c, r, hTurn, hRest⟩ := turns_succ_eq_again h
    obtain ⟨d, q, hTurns⟩ := ih hRest (by omega)
    exact ⟨d, q, (turns_succ_of_again hTurn).trans hTurns⟩

theorem loop_of_again (h : x.turn b s = .ok (.again b') t) : x.loop b s = x.loop b' t := by
  rw [loop, h]

theorem loop_of_done {a : α} (h : x.turn b s = .ok (.done a) t) : x.loop b s = some (.ok a t) := by
  rw [loop, h]

theorem loop_of_error {e : Failure} (h : x.turn b s = .error e t) :
    x.loop b s = some (.error e t) := by
  rw [loop, h]

/-- Turns that go on lead from loop to loop. -/
theorem loop_eq_of_again (h : x.turns n b s = .ok (.again b') t) : x.loop b s = x.loop b' t := by
  induction n generalizing b s with
  | zero =>
    cases h
    rfl
  | succ n ih =>
    obtain ⟨c, r, hTurn, hRest⟩ := turns_succ_eq_again h
    exact (loop_of_again hTurn).trans (ih hRest)

/-- Finitely many turns to an end determine the result. -/
theorem loop_of_turns (h : x.turns n b s = ended r) : x.loop b s = some r := by
  induction n generalizing b s with
  | zero => cases r <;> cases h
  | succ n ih =>
    cases hTurn : x.turn b s with
    | ok next q =>
      cases next with
      | again b' =>
        rw [turns_succ_of_again hTurn] at h
        exact (loop_of_again hTurn).trans (ih h)
      | done a =>
        rw [turns_succ_of_done hTurn] at h
        rw [loop_of_done hTurn]
        cases r with
        | ok => cases h; rfl
        | error => cases h
    | error e q =>
      rw [turns_succ_of_error hTurn] at h
      rw [loop_of_error hTurn]
      cases r with
      | ok => cases h
      | error => cases h; rfl

/-- A loop has a result if and only if some number of turns leads to it. -/
theorem loop_eq_some_iff : x.loop b s = some r ↔ ∃ n, x.turns n b s = ended r := by
  refine ⟨fun h => ?_, fun ⟨n, h⟩ => loop_of_turns h⟩
  -- the loop is the least solution of its equation, so its results come from finitely many turns
  refine loop.partial_correctness x (fun b s r => ∃ n, x.turns n b s = ended r) ?_ b s r h
  intro loop ih b s r hLoop
  cases hTurn : x.turn b s with
  | ok next t =>
    rw [hTurn] at hLoop
    cases next with
    | again b' =>
      obtain ⟨n, hn⟩ := ih b' t r hLoop
      exact ⟨n + 1, (turns_succ_of_again hTurn).trans hn⟩
    | done a =>
      cases hLoop
      exact ⟨1, turns_succ_of_done hTurn⟩
  | error e t =>
    rw [hTurn] at hLoop
    cases hLoop
    exact ⟨1, turns_succ_of_error hTurn⟩

theorem run_of_first (h : x.first s = .ok b t) : x.run s = x.loop b t := by
  rw [run, h]

theorem run_of_first_error {e : Failure} (h : x.first s = .error e t) :
    x.run s = some (.error e t) := by
  rw [run, h]

/-- An exploration has a result if and only if some number of turns leads to it. -/
theorem run_eq_some_iff : x.run s = some r ↔ ∃ n, x.after n s = ended r := by
  cases hFirst : x.first s with
  | ok b t =>
    have hAfter : ∀ n, x.after n s = x.turns n b t := fun n => bind_run_of_ok hFirst
    simp only [run_of_first hFirst, hAfter, loop_eq_some_iff]
  | error e t =>
    have hAfter : ∀ n, x.after n s = .error e t := fun n => bind_run_of_error hFirst
    simp only [run_of_first_error hFirst, hAfter, exists_const, Option.some.injEq]
    cases r with
    | ok => exact iff_of_false (fun h => nomatch h) fun h => nomatch h
    | error =>
      refine ⟨fun h => ?_, fun h => ?_⟩ <;>
      · cases h
        rfl

theorem run_eq_ok_iff {a : α} : x.run s = some (.ok a t) ↔ ∃ n, x.after n s = .ok (.done a) t :=
  run_eq_some_iff

theorem run_eq_error_iff {e : Failure} :
    x.run s = some (.error e t) ↔ ∃ n, x.after n s = .error e t :=
  run_eq_some_iff

theorem after_of_first (h : x.first s = .ok b t) (n : Nat) : x.after n s = x.turns n b t :=
  bind_run_of_ok h

theorem after_succ_eq_again (h : x.after (n + 1) s = .ok (.again b) t) :
    ∃ c r, x.after n s = .ok (.again c) r ∧ x.turn c r = .ok (.again b) t := by
  obtain ⟨first, q, hFirst, hTurns⟩ := bind_eq_ok.mp h
  obtain ⟨c, r, hAgain, hLast⟩ := turns_add_one_eq_again hTurns
  exact ⟨c, r, (after_of_first hFirst n).trans hAgain, hLast⟩

/-- An exploration that returns does so in a last turn, after some that go on. -/
theorem exists_last_of_run {a : α} (h : x.run s = some (.ok a t)) :
    ∃ n b r, x.after n s = .ok (.again b) r ∧ x.turn b r = .ok (.done a) t := by
  obtain ⟨n, hAfter⟩ := run_eq_ok_iff.mp h
  obtain ⟨b, q, hFirst, hTurns⟩ := bind_eq_ok.mp hAfter
  obtain ⟨m, c, r, hAgain, hLast⟩ := exists_last_turn hTurns
  exact ⟨m, c, r, (after_of_first hFirst m).trans hAgain, hLast⟩

theorem exists_after_of_le (h : x.after n s = .ok (.again b) t) {m : Nat} (hm : m ≤ n) :
    ∃ c r, x.after m s = .ok (.again c) r := by
  obtain ⟨b, q, hFirst, hTurns⟩ := bind_eq_ok.mp h
  obtain ⟨c, r, hAgain⟩ := exists_turns_of_le hTurns hm
  exact ⟨c, r, (after_of_first hFirst m).trans hAgain⟩

/-- How the first turns of two explorations end: both go on, or both have ended, with results that
belong together. -/
inductive SamePace {σ' ω' α' β' : Type}
    (Rel : EStateM.Result Failure (Session σ ω) α → EStateM.Result Failure (Session σ' ω') α' →
      Prop) :
    EStateM.Result Failure (Session σ ω) (Turn β α) →
    EStateM.Result Failure (Session σ' ω') (Turn β' α') → Prop
  | again {b : β} {t : Session σ ω} {b' : β'} {t' : Session σ' ω'} :
      SamePace Rel (.ok (.again b) t) (.ok (.again b') t')
  | ended {r : EStateM.Result Failure (Session σ ω) α}
      {r' : EStateM.Result Failure (Session σ' ω') α'} (h : Rel r r') :
      SamePace Rel (Exploration.ended r) (Exploration.ended r')

theorem ended_ne_again :
    (ended r : EStateM.Result Failure (Session σ ω) (Turn β α)) ≠ .ok (.again b) t := by
  cases r <;> exact fun h => nomatch h

theorem ended_injective {r' : EStateM.Result Failure (Session σ ω) α}
    (h : (ended r : EStateM.Result Failure (Session σ ω) (Turn β α)) = ended r') : r = r' := by
  cases r <;> cases r' <;> cases h <;> rfl

/-- If the first turns always end abreast, then one exploration ends if the other one does, and the
results belong together. -/
theorem run_rel {σ' ω' α' β' : Type} {y : Exploration σ' ω' β' α'} {s' : Session σ' ω'}
    {Rel : EStateM.Result Failure (Session σ ω) α → EStateM.Result Failure (Session σ' ω') α' →
      Prop}
    (h : ∀ n, SamePace Rel (x.after n s) (y.after n s')) : Option.Rel Rel (x.run s) (y.run s') := by
  cases hx : x.run s with
  | some r =>
    obtain ⟨n, hn⟩ := run_eq_some_iff.mp hx
    have hn' := h n
    generalize hq' : y.after n s' = q' at hn'
    rw [hn] at hn'
    generalize hq : ended r = q at hn'
    cases hn' with
    | again => exact absurd hq ended_ne_again
    | ended hRel =>
      rw [run_eq_some_iff.mpr ⟨n, hq'⟩, ended_injective hq]
      exact .some hRel
  | none =>
    -- if `y` ended after `n` turns, so would `x`
    cases hy : y.run s' with
    | none => exact .none
    | some r' =>
      obtain ⟨n, hn⟩ := run_eq_some_iff.mp hy
      have hn' := h n
      generalize hq : x.after n s = q at hn'
      rw [hn] at hn'
      generalize hq' : ended r' = q' at hn'
      cases hn' with
      | again => exact absurd hq' ended_ne_again
      | ended hRel =>
        rw [run_eq_some_iff.mpr ⟨n, hq⟩] at hx
        cases hx

/-- Explorations whose first turns have the same outcomes have the same result, if any. -/
theorem run_congr (h : ∀ n, x.after n s = y.after n s') : x.run s = y.run s' := by
  refine Option.ext fun r => ?_
  rw [run_eq_some_iff, run_eq_some_iff]
  simp only [h]

/-! ## What turns ensure -/

section Invariant

variable {Inv : β → Session σ ω → Prop} {Q : α → Session σ ω → Prop} {R : Session σ ω → Prop}
  (hTurn : ∀ b s, Inv b s →
    Ensures s (x.turn b) (fun next t => next.Satisfies (Inv · t) (Q · t)) R)

include hTurn

/-- What each turn keeps while it goes on, all turns keep. -/
theorem ensures_turns (n : Nat) (hs : Inv b s) :
    Ensures s (x.turns n b) (fun next t => next.Satisfies (Inv · t) (Q · t)) R := by
  induction n generalizing b s with
  | zero => exact .pure hs
  | succ n ih =>
    refine (hTurn b s hs).bind fun next t ht => ?_
    cases next with
    | again b' => exact ih ht
    | done a => exact .pure ht

theorem ensures_after (hFirst : Ensures s x.first Inv R) (n : Nat) :
    Ensures s (x.after n) (fun next t => next.Satisfies (Inv · t) (Q · t)) R :=
  hFirst.bind fun _ _ ht => ensures_turns hTurn n ht

/-- What holds at the end of an exploration that returns. -/
theorem of_run_eq_ok (hFirst : Ensures s x.first Inv R) {a : α} (hRun : x.run s = some (.ok a t)) :
    Q a t := by
  obtain ⟨n, hn⟩ := run_eq_ok_iff.mp hRun
  exact (ensures_after hTurn hFirst n).of_eq_ok hn

end Invariant

/-! ## Evaluated runs -/

/-- Whether at most `n` turns end an exploration, with a check of what it returns. -/
def returns (n : Nat) (x : Exploration σ ω β α) (s : Session σ ω) (check : α → Session σ ω → Bool) :
    Bool :=
  match x.after n s with
  | .ok (.done a) t => check a t
  | _ => false

theorem exists_of_returns {check : α → Session σ ω → Bool} (h : x.returns n s check = true) :
    ∃ a t, x.run s = some (.ok a t) ∧ check a t = true := by
  unfold returns at h
  split at h
  · next a t hRun => exact ⟨a, t, run_eq_ok_iff.mpr ⟨n, hRun⟩, h⟩
  · cases h

end Exploration

end StateSpace
