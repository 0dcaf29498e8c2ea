import StateSpace.Proofs.Label.Independence
import StateSpace.Proofs.Search.Strategy
import StateSpace.Proofs.Solver.Reliable

/-!
# What simplification leaves out

With a reliable solver, a formula that simplification replaces is one that can be satisfied, and the
new formula pins its variable to the only value that the old one leaves (`Search.Pins`). So
simplification drops nothing but what a formula says about hidden variables. In a coherent state
that says nothing about other variables: the simplified state describes the same values and is
coherent again (`Search.Pinned.coherent`, `Search.Pinned.describes_iff`).

Hence two searches, one of which simplifies, keep states in pairs that describe the same values
(`Search.Paired`), as long as the labels of the system do not hinder their own effects
(`Search.Paired.fire`).
-/

namespace StateSpace.Search

open Explore Environment Renaming

variable {σ ω : Type} {env : Surroundings σ} {system : System} {xs : List Variable} {l : Label}
  {q q' p p' s s' : SymbolicState} {x : Variable} {e e' : Expr} {n : Nat} {ν : Environment}

/-! ## Pinned formulas -/

/-- A formula is kept, or it can be satisfied and is replaced by one that follows from it, is about
a single variable, and leaves that variable one value. -/
def Pins [Reals] (x : Variable) (e e' : Expr) : Prop :=
  e' = e ∨ e'.Within [x] ∧ (∀ ρ, e.holds ρ = true → e'.holds ρ = true) ∧ (∃ ρ, e.holds ρ = true) ∧
    ∀ ρ ρ', e'.holds ρ = true → e'.holds ρ' = true → ρ.get x = ρ'.get x

theorem Pins.relaxes [Reals] (h : Pins x e e') : Relaxes x e e' :=
  h.imp_right fun ⟨hWithin, hFollows, _⟩ => ⟨hWithin, hFollows⟩

theorem Pins.follows [Reals] (h : Pins x e e') {ρ : Environment} (hρ : e.holds ρ = true) :
    e'.holds ρ = true := by
  rcases h with rfl | ⟨-, hFollows, -⟩
  · exact hρ
  · exact hFollows ρ hρ

/-- The next value becomes the current one in both formulas. -/
theorem Pins.restore [Reals] (h : Pins x.primed e e') (he : e.QuantifierFree)
    (hFree : ∀ y, e.Free y → y = x.primed ∨ y.name ≠ x.primed.name ∧ y ≠ x) :
    Pins x (e.rename (ofList [(x.primed.name, x.name)]))
      (e'.rename (ofList [(x.primed.name, x.name)])) := by
  rcases h with rfl | ⟨hWithin, hFollows, ⟨ρ, hρ⟩, hOne⟩
  · exact .inl rfl
  have hqf := hWithin.quantifierFree
  refine .inr ⟨⟨hqf.rename, fun y hy => ?_⟩, fun ρ hρ => ?_, ?_, fun ρ ρ' hρ hρ' => ?_⟩
  · obtain ⟨z, hz, rfl⟩ := (Expr.free_rename hqf.renamable).mp hy
    rw [List.mem_singleton.mp (hWithin.inScope z hz), move_restore_primed]
    exact List.mem_singleton.mpr rfl
  · rw [Expr.holds_rename he.renamable] at hρ
    rw [Expr.holds_rename hqf.renamable]
    exact hFollows _ hρ
  · -- the next value takes the place of a current one that the formula does not mention
    refine ⟨fun y => if y = x then ρ x.primed else ρ y, ?_⟩
    rw [Expr.holds_rename he.renamable, ← hρ]
    refine Expr.holds_congr fun y hy => ?_
    rw [get_along]
    rcases hFree y hy with rfl | ⟨hName, hne⟩
    · rw [move_restore_primed]
      simp only [Environment.get, if_true]
      rfl
    · rw [move_restore_of_ne hName]
      simp only [Environment.get, if_neg hne]
  · rw [Expr.holds_rename hqf.renamable] at hρ hρ'
    have hSame := hOne _ _ hρ hρ'
    rwa [get_along, get_along, move_restore_primed] at hSame

/-- Formulas of the same variables, each kept or pinned to a value of the variable that the given
function makes of its own: the variable itself, or its next value. -/
def Pinned [Reals] (v : Variable → Variable) (fs fs' : Formulas) : Prop :=
  List.Forall₂ (fun entry entry' => entry'.1 = entry.1 ∧ Pins (v entry.1) entry.2 entry'.2) fs fs'

namespace Pinned

variable {v : Variable → Variable} {fs fs' : Formulas}

variable [Reals]

theorem keys (h : Pinned v fs fs') : fs'.map Prod.fst = fs.map Prod.fst := by
  induction h with
  | nil => rfl
  | cons hEntry _ ih => rw [List.map_cons, List.map_cons, hEntry.1, ih]

theorem exists_of_mem (h : Pinned v fs fs') (he : (x, e) ∈ fs) :
    ∃ e', (x, e') ∈ fs' ∧ Pins (v x) e e' := by
  induction h with
  | nil => cases he
  | @cons entry entry' _ _ hEntry _ ih =>
    rcases List.mem_cons.mp he with rfl | hMem
    · exact ⟨entry'.2, List.mem_cons.mpr (.inl (Prod.ext hEntry.1.symm rfl)), hEntry.2⟩
    · obtain ⟨e', he', hPins⟩ := ih hMem
      exact ⟨e', List.mem_cons_of_mem _ he', hPins⟩

/-- Every formula after simplification pins one before it. -/
theorem exists_of_mem_right (h : Pinned v fs fs') (he : (x, e') ∈ fs') :
    ∃ e, (x, e) ∈ fs ∧ Pins (v x) e e' := by
  induction h with
  | nil => cases he
  | @cons entry entry' _ _ hEntry _ ih =>
    rcases List.mem_cons.mp he with rfl | hMem
    · obtain ⟨rfl, hPins⟩ := hEntry
      exact ⟨entry.2, List.mem_cons_self, hPins⟩
    · obtain ⟨e, he, hPins⟩ := ih hMem
      exact ⟨e, List.mem_cons_of_mem _ he, hPins⟩

theorem simplified (h : Pinned Variable.primed fs fs') : Simplified fs fs' := by
  induction h with
  | nil => exact .nil
  | @cons entry entry' _ _ hEntry _ ih =>
    obtain ⟨x, e⟩ := entry
    obtain ⟨x', e'⟩ := entry'
    obtain ⟨rfl, hPins⟩ := hEntry
    exact .cons hPins.relaxes ih

/-- The successor about current values is pinned where the one about next values is. -/
theorem restore (h : Pinned Variable.primed (l.successorFormulas q n) p.formulas)
    (hl : l.Hygienic xs) (hq : q.Tidy xs n) (k : Nat) :
    Pinned id (l.applyTo q n k).formulas (current p).formulas := by
  have hEntries := (List.forall₂_and_left _ _).mpr
    ⟨fun entry hEntry => mem_successorFormulas hl hq hEntry, h⟩
  show List.Forall₂ _ (List.map _ _) (List.map _ _)
  rw [List.forall₂_map_left_iff, List.forall₂_map_right_iff]
  refine hEntries.imp fun entry entry' ⟨⟨hMem, hqf, hFree⟩, heq, hPins⟩ => ⟨heq, ?_⟩
  show Pins entry.1 _ (entry'.2.rename (ofList [(entry'.1.primed.name, entry'.1.name)]))
  rw [heq]
  refine hPins.restore hqf fun y hy => (hFree y hy).imp_right fun ⟨hName, hNot⟩ => ⟨hName, ?_⟩
  rintro rfl
  exact hNot hMem

end Pinned

/-- A formula that a reliable solver lets replace is pinned. -/
theorem ensures_simplifyFormula_pins [Reals] (hSolver : env.solver.Reliable) (x : Variable)
    (e : Expr) {s : Session σ ω} :
    Ensures s (simplifyFormula env x e)
      (fun e' t => (∃ memory, t = { s with memory := memory }) ∧ Pins x.primed e e')
      (fun _ => True) := by
  unfold simplifyFormula
  dsimp only
  split
  · exact .pure ⟨⟨s.memory, rfl⟩, .inl rfl⟩
  refine Ensures.bind (Q := fun answer t => (∃ memory, t = { s with memory := memory }) ∧
    (answer.verdict = .sat → answer.model.IsModel e)) ⟨⟨_, rfl⟩, hSolver.solved e s.memory⟩ ?_
  rintro answer t ⟨⟨memory, rfl⟩, hModel⟩
  split
  · exact .pure ⟨⟨memory, rfl⟩, .inl rfl⟩
  · exact .throw trivial
  · next hVerdict =>
    split
    · exact .pure ⟨⟨memory, rfl⟩, .inl rfl⟩
    · next value _ =>
      -- the second question is whether the formula leaves another value than the one found
      let pinned := Expr.equal (.var x.primed) (.const value)
      refine ((ensures_holds_memory _ (e.and (.not pinned))).mono (fun _ _ h => h)
        fun _ _ => trivial).bind ?_
      rintro other _ ⟨hAnswer, memory', rfl⟩
      cases other with
      | true => exact .pure ⟨⟨memory', rfl⟩, .inl rfl⟩
      | false =>
        obtain ⟨_, hUnsat⟩ := hAnswer
        have hWithin : pinned.Within [x.primed] :=
          (Expr.within_var List.mem_cons_self).equal (Expr.within_const value)
        refine .pure ⟨⟨memory', rfl⟩, .inr ⟨hWithin, fun ρ hρ => ?_, ?_, fun ρ ρ' hρ hρ' => ?_⟩⟩
        · simpa [hρ] using hSolver.unsat _ _ hUnsat ρ
        · exact ⟨_, (hModel hVerdict).holds⟩
        · exact Expr.get_eq_of_holds_equal_const hρ hρ'

/-- A reliable solver pins every formula or leaves it alone. -/
theorem ensures_simplifyFormulas_pinned [Reals] (hSolver : env.solver.Reliable) (fs : Formulas)
    {s : Session σ ω} :
    Ensures s (simplifyFormulas env fs)
      (fun fs' t => (∃ memory, t = { s with memory := memory }) ∧ Pinned Variable.primed fs fs')
      (fun _ => True) := by
  induction fs generalizing s with
  | nil => exact .pure ⟨⟨s.memory, rfl⟩, .nil⟩
  | cons entry rest ih =>
    refine (ensures_simplifyFormula_pins hSolver entry.1 entry.2).bind ?_
    rintro e' _ ⟨⟨memory, rfl⟩, hPins⟩
    refine ih.bind ?_
    rintro rest' _ ⟨⟨memory', rfl⟩, hRest⟩
    exact .pure ⟨⟨memory', rfl⟩, .cons ⟨rfl, hPins⟩ hRest⟩

/-! ## Pinned states -/

section State

variable [Reals]
variable (h : Pinned id s.formulas s'.formulas) (hNodup : (s.formulas.map Prod.fst).Nodup)
  (hKeys : s.formulas.map Prod.fst = xs) (hCoherent : s.Coherent xs)

include h in
theorem Pinned.holds_toExpr {ρ : Environment} (hρ : s.toExpr.holds ρ = true) :
    s'.toExpr.holds ρ = true := by
  rw [SymbolicState.holds_toExpr] at hρ ⊢
  rintro ⟨x, e'⟩ he'
  obtain ⟨e, he, hPins⟩ := h.exists_of_mem_right he'
  exact hPins.follows (hρ _ he)

include h hNodup hKeys hCoherent

/-- Whatever some pinned formulas allow their variables, the formulas that were there before allow
together. -/
theorem Pinned.exists_holds {R : Variable → Prop} {ρ : Environment}
    (hSatisfiable : ∀ entry ∈ s'.formulas, ∃ ρ, entry.2.holds ρ = true) (hρ : s'.HoldsOn R ρ) :
    ∃ ρ', (∀ x ∈ xs, R x → ρ'.get x = ρ.get x) ∧ s.toExpr.holds ρ' = true := by
  -- coherence asks for formulas that can be satisfied: those replaced could be, too
  have hBefore : ∀ entry ∈ s.formulas, ∃ ρ, entry.2.holds ρ = true := by
    rintro ⟨x, e⟩ he
    obtain ⟨e', he', hPins⟩ := h.exists_of_mem he
    rcases hPins with rfl | ⟨-, -, hSome, -⟩
    · exact hSatisfiable _ he'
    · exact hSome
  -- among the variables asked for, those whose formulas are kept
  let kept : Variable → Prop := fun x => R x ∧ ∃ e, (x, e) ∈ s.formulas ∧ (x, e) ∈ s'.formulas
  have hKept : s.HoldsOn kept ρ := by
    rintro entry hEntry ⟨hR, e, he, he'⟩
    have hSame : some e = some entry.2 :=
      (Formulas.lookup_of_mem hNodup he).symm.trans (Formulas.lookup_of_mem hNodup hEntry)
    rw [← Option.some.inj hSame]
    exact hρ _ he' hR
  obtain ⟨ρ', hρ', hHolds⟩ := hCoherent hBefore kept ρ hKept
  refine ⟨ρ', fun x hx hR => ?_, hHolds⟩
  -- a pinned variable has its one value anyway
  obtain ⟨⟨_, e⟩, he, rfl⟩ := List.mem_map.mp (hKeys ▸ hx)
  obtain ⟨e', he', hPins⟩ := h.exists_of_mem he
  rcases hPins with rfl | ⟨-, hFollows, -, hOne⟩
  · exact hρ' _ hx ⟨hR, _, he, he'⟩
  · exact hOne ρ' ρ (hFollows ρ' (SymbolicState.holds_toExpr.mp hHolds _ he)) (hρ _ he' hR)

theorem Pinned.coherent : s'.Coherent xs := by
  intro hSatisfiable R ρ hρ
  obtain ⟨ρ', hρ', hHolds⟩ := h.exists_holds hNodup hKeys hCoherent hSatisfiable hρ
  exact ⟨ρ', hρ', h.holds_toExpr hHolds⟩

/-- Pinned states describe the same values. -/
theorem Pinned.describes_iff : s'.Describes xs ν ↔ s.Describes xs ν := by
  constructor
  · rintro ⟨ρ, hρ, hHolds⟩
    have hAll := SymbolicState.holds_toExpr.mp hHolds
    obtain ⟨ρ', hρ', hBefore⟩ := h.exists_holds hNodup hKeys hCoherent
      (fun entry hEntry => ⟨ρ, hAll entry hEntry⟩) (SymbolicState.holdsOn_all.mpr hHolds)
    exact ⟨ρ', fun x hx => (hρ' x hx trivial).trans (hρ x hx), hBefore⟩
  · rintro ⟨ρ, hρ, hHolds⟩
    exact ⟨ρ, hρ, h.holds_toExpr hHolds⟩

end State

/-! ## Pairs of states -/

variable [Reals]

/-- A state in order: it has one formula for each state variable, mentions nothing to come, and no
formula restricts the variables of others. -/
structure Regular (xs : List Variable) (n : Nat) (q : SymbolicState) : Prop where
  keys : q.formulas.map Prod.fst = xs
  tidy : q.Tidy xs n
  coherent : q.Coherent xs

theorem Regular.of_formulas_eq (h : Regular xs n q) (heq : q'.formulas = q.formulas) :
    Regular xs n q' := by
  refine ⟨heq ▸ h.keys, SymbolicState.tidy_of_formulas_eq h.tidy heq, ?_⟩
  unfold SymbolicState.Coherent SymbolicState.HoldsOn SymbolicState.toExpr
  rw [heq]
  exact h.coherent

theorem Regular.mono {m : Nat} (h : Regular xs n q) (hm : n ≤ m) : Regular xs m q :=
  ⟨h.keys, h.tidy.mono hm, h.coherent⟩

theorem Regular.functional (h : Regular xs n q) (hNodup : xs.Nodup) : q.Functional :=
  fun _ hEntry => Formulas.lookup_of_mem (h.keys ▸ hNodup) hEntry

/-- The exact successor of a state in order. -/
theorem Regular.applyTo (h : Regular xs n q) (hl : l.Hygienic xs) (hNodup : xs.Nodup)
    (hν : q.Describes xs ν) (hFree : l.Unhindered (q.Describes xs)) (k : Nat) :
    Regular xs (n + 1) (l.applyTo q n k) ∧
      (l.applyTo q n k).Describes xs = l.Moves (q.Describes xs) fun _ => True := by
  have hFunctional := h.functional hNodup
  refine ⟨⟨?_, hl.tidy_applyTo h.tidy k, ?_⟩, ?_⟩
  · rw [Label.formulas_applyTo, List.map_map, hl.ranges]
    exact List.map_id xs
  · exact hl.coherent_applyTo h.tidy hFunctional h.coherent hν k hFree
  · funext after
    exact propext (hl.describes_applyTo_iff h.tidy hFunctional h.coherent hν k)

/-- Two states that describe the same values, from a family of sets of values, on the same way. -/
structure Paired (system : System) (P : (Environment → Prop) → Prop) (n : Nat)
    (q q' : SymbolicState) : Prop where
  left : Regular system.stateVariables n q
  right : Regular system.stateVariables n q'
  describes : q'.Describes system.stateVariables = q.Describes system.stateVariables
  stable : P (q.Describes system.stateVariables)
  noError : q.isError = false ∧ q'.isError = false
  history : q'.history = q.history

variable {P : (Environment → Prop) → Prop}

theorem Paired.mono {m : Nat} (h : Paired system P n q q') (hm : n ≤ m) : Paired system P m q q' :=
  { h with left := h.left.mono hm, right := h.right.mono hm }

/-- A label can be enabled on one of two paired states exactly if it can on the other. -/
theorem Paired.guardOn_iff (h : Paired system P n q q') (hl : l.Hygienic system.stateVariables) :
    (∃ ρ, (l.guardOn q.toExpr).holds ρ = true) ↔ ∃ ρ, (l.guardOn q'.toExpr).holds ρ = true := by
  have hGuard : ∀ {s : SymbolicState} {ρ : Environment}, (l.guardOn s.toExpr).holds ρ = true →
      s.Describes system.stateVariables ρ ∧ l.precondition.holds ρ = true := by
    intro s ρ hρ
    rw [Label.guardOn, Expr.holds_and, Bool.and_eq_true] at hρ
    exact ⟨⟨ρ, .refl _ _, hρ.1⟩, hρ.2⟩
  constructor
  · rintro ⟨ρ, hρ⟩
    obtain ⟨hDescribes, hPre⟩ := hGuard hρ
    rw [← h.describes] at hDescribes
    exact hl.exists_holds_guardOn h.right.tidy hDescribes (.refl _ _) hPre
  · rintro ⟨ρ, hρ⟩
    obtain ⟨hDescribes, hPre⟩ := hGuard hρ
    rw [h.describes] at hDescribes
    exact hl.exists_holds_guardOn h.left.tidy hDescribes (.refl _ _) hPre

/-- **One firing keeps states paired.** The successors of two paired states through an enabled label
are paired, also if one of them is simplified. -/
theorem Paired.fire (h : Paired system P n q q') (hSystem : system.Hygienic)
    (hStable : system.Stable P) (hl : l ∈ system.labels) (hnoConstructor : l.isConstructor = false)
    (hnoError : l.isError = false) (hGuard : ∃ ρ, (l.guardOn q.toExpr).holds ρ = true)
    (hp : Pinned Variable.primed (l.successorFormulas q n) p.formulas)
    (hp' : p'.formulas = l.successorFormulas q' n)
    (hnoErrors : p.isError = false ∧ p'.isError = false)
    (hHistory : p'.history = p.history) : Paired system P (n + 1) (current p) (current p') := by
  have hLabel := hSystem.label hl
  have hNodup := hSystem.nodup
  obtain ⟨ν, hν⟩ : ∃ ν, q.Describes system.stateVariables ν := by
    obtain ⟨ρ, hρ⟩ := hGuard
    rw [Label.guardOn, Expr.holds_and, Bool.and_eq_true] at hρ
    exact ⟨ρ, ρ, .refl _ _, hρ.1⟩
  -- both exact successors describe what the label makes of the values that the states share
  obtain ⟨hFree, hNext⟩ := hStable.step l hl hnoConstructor hnoError _ ν h.stable hν
  obtain ⟨hLeft, hDescribes⟩ := h.left.applyTo hLabel hNodup hν hFree 0
  obtain ⟨hRight, hDescribes'⟩ := h.right.applyTo hLabel hNodup (h.describes ▸ hν)
    (h.describes ▸ hFree) 0
  -- the left successor is pinned, the right one is exact
  have hPinned := hp.restore hLabel h.left.tidy 0
  have hKeys : ((l.applyTo q n 0).formulas.map Prod.fst).Nodup := hLeft.keys ▸ hNodup
  have hExact : (current p').formulas = (l.applyTo q' n 0).formulas :=
    congrArg Formulas.restoreCurrentNames hp'
  have hSame : (current p).Describes system.stateVariables =
      l.Moves (q.Describes system.stateVariables) fun _ => True := by
    rw [← hDescribes]
    funext ν
    exact propext (hPinned.describes_iff hKeys hLeft.keys hLeft.coherent)
  have hSame' : (current p').Describes system.stateVariables =
      l.Moves (q.Describes system.stateVariables) fun _ => True := by
    rw [← h.describes, ← hDescribes']
    funext ν
    exact propext (SymbolicState.describes_of_formulas_eq hExact)
  exact {
    left := ⟨hPinned.keys.trans hLeft.keys, tidy_current hLabel h.left.tidy hp.simplified,
      hPinned.coherent hKeys hLeft.keys hLeft.coherent⟩
    right := hRight.of_formulas_eq hExact
    describes := hSame'.trans hSame.symm
    stable := hSame ▸ hNext
    noError := hnoErrors
    history := hHistory }

end StateSpace.Search
