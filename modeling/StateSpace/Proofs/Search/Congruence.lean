import StateSpace.Proofs.Unrolling.Congruence
import StateSpace.Search.BreadthFirst

/-!
# Search step by step in two surroundings

A relation that the smallest steps keep, searches for values among them, holds of each step of a
search (`Search.related_searchSymbolic`, `Search.related_searchConcrete`). Strategies are related by
their parts (`Search.Strategy.Related`), and all strategies are related to themselves in other
surroundings.
-/

namespace StateSpace

open Explore

variable {σ σ' S : Type} {env : Surroundings σ} {env' : Surroundings σ'} (c : Congruence env env')

theorem Region.rel_uncovered {ω : Type} (covered : Expr) (entries : List (String × SymbolicState)) :
    c.Rel (uncovered env covered entries : Explore σ ω _) (uncovered env' covered entries) := by
  induction entries with
  | nil => exact c.rel_pure _
  | cons entry rest ih =>
    refine c.rel_bind (c.rel_holds _ _) fun new => ?_
    exact c.rel_ite (c.rel_bind ih fun r => c.rel_pure _) ih

namespace Search

theorem rel_image_bind {α : Type} {next : Image S → Step σ S α} {next' : Image S → Step σ' S α}
    (h : ∀ i, c.Rel (next i) (next' i)) : c.Rel (image >>= next) (image >>= next') := by
  show c.Rel (work >>= fun w => next w.image) (work >>= fun w => next' w.image)
  exact c.rel_work_bind fun w => h w.image

theorem rel_recordFrom [RegionState S] (l : Label) (q : S) :
    c.Rel (recordFrom l q : Step σ S Unit) (recordFrom l q) := by
  unfold recordFrom
  exact c.rel_modifyWork _

/-! ## Guards and errors -/

theorem rel_satisfiesGuard [RegionState S] (l : Label) (q : S) :
    c.Rel (satisfiesGuard env l q) (satisfiesGuard env' l q) :=
  rel_image_bind c fun _ => c.rel_holdsDuring _ _ _ _

theorem rel_firstEnabled [RegionState S] (l : Label) (states : List S) :
    c.Rel (firstEnabled env l states) (firstEnabled env' l states) := by
  induction states with
  | nil => exact c.rel_pure none
  | cons q rest ih =>
    refine c.rel_bind (rel_satisfiesGuard c l q) fun enabled => ?_
    exact c.rel_ite (c.rel_pure _) ih

theorem rel_testReachable [RegionState S] (l : Label) :
    c.Rel (testReachable (S := S) env l) (testReachable env' l) := by
  refine rel_image_bind c fun i => c.rel_ite (c.rel_pure ()) ?_
  refine c.rel_bind (rel_firstEnabled c l _) fun found => ?_
  cases found with
  | some q => exact rel_recordFrom c l q
  | none => exact c.rel_pure ()

theorem rel_testFrontier [RegionState S] {owner : FlagOwner}
    (hRaise : c.Rel (raiseFlag owner : Step σ S Unit) (raiseFlag owner)) (l : Label) :
    c.Rel (testFrontier (S := S) env owner l) (testFrontier env' owner l) := by
  refine rel_image_bind c fun i => c.rel_bind (rel_firstEnabled c l _) fun found => ?_
  cases found with
  | some q => exact c.rel_bind hRaise fun _ => rel_recordFrom c l q
  | none => exact c.rel_pure ()

/-! ## Successors -/

section Solve

variable (hSolve : c.KeepsSolve)

include hSolve

/-- Simplifying a formula. -/
theorem rel_simplifyFormula {ω : Type} (x : Variable) (e : Expr) :
    c.Rel (simplifyFormula env x e : Explore σ ω Expr) (simplifyFormula env' x e) := by
  refine c.rel_ite (c.rel_pure _) (hSolve e _ _ (fun answer hDecided => ?_) fun answer hOpen => ?_)
  · split
    · exact c.rel_pure _
    · next hOpen => exact absurd hOpen hDecided
    · split
      · exact c.rel_pure _
      · refine c.rel_bind (c.rel_holds _ _) fun other => ?_
        exact c.rel_ite (c.rel_pure _) (c.rel_pure _)
  · rw [hOpen]
    exact .throw _

theorem rel_simplifyFormulas {ω : Type} (fs : Formulas) :
    c.Rel (simplifyFormulas env fs : Explore σ ω Formulas) (simplifyFormulas env' fs) := by
  induction fs with
  | nil => exact c.rel_pure _
  | cons entry rest ih =>
    refine c.rel_bind (rel_simplifyFormula c hSolve entry.1 entry.2) fun _ => ?_
    exact c.rel_bind ih fun _ => c.rel_pure _

/-- Firing a label on a symbolic state. -/
theorem rel_expandSymbolic (simplify : Bool) (l : Label) (q : SymbolicState) :
    c.Rel (expandSymbolic env simplify l q) (expandSymbolic env' simplify l q) := by
  refine c.rel_bind (rel_satisfiesGuard c l q) fun enabled => c.rel_ite ?_ (c.rel_pure ())
  refine rel_image_bind c fun i => c.rel_bind (c.rel_report _) fun _ => ?_
  refine c.rel_bind (c.rel_modifyWork _) fun _ => c.rel_work_bind fun w => ?_
  have hRest : ∀ f : Image SymbolicState → Image SymbolicState,
      c.Rel (modifyImage f >>= fun _ => report env (.finished (.apply l.name) i.depth))
        (modifyImage f >>= fun _ => report env' (.finished (.apply l.name) i.depth)) := fun f =>
    c.rel_bind (c.rel_modifyWork _) fun _ => c.rel_report _
  refine c.rel_ite ?_ ?_
  · exact c.rel_bind (rel_simplifyFormulas c hSolve _) fun fs => hRest _
  · exact c.rel_bind (c.rel_pure _) fun fs => hRest _

/-- Firing a label on a concrete state. -/
theorem rel_expandConcrete (l : Label) (q : ConcreteState) :
    c.Rel (expandConcrete env l q) (expandConcrete env' l q) := by
  refine c.rel_bind (rel_satisfiesGuard c l q) fun enabled => c.rel_ite ?_ (c.rel_pure ())
  refine rel_image_bind c fun i => c.rel_bind (c.rel_report _) fun _ => ?_
  refine hSolve _ _ _ (fun answer hDecided => ?_) fun answer hOpen => .report _ ?_
  · refine c.rel_bind (c.rel_report _) fun _ => ?_
    split
    · exact c.rel_modifyWork _
    · exact c.rel_pure ()
    · next hOpen => exact absurd hOpen hDecided
  · rw [hOpen]
    exact .throw _

/-- Concrete initial states. -/
theorem rel_concretise {ω : Type} (xs : List Variable) (states : List SymbolicState) :
    c.Rel (concretise env xs states : Explore σ ω _) (concretise env' xs states) := by
  induction states with
  | nil => exact c.rel_pure _
  | cons q rest ih =>
    refine hSolve _ _ _ (fun answer hDecided => ?_) fun answer hOpen => ?_
    · split
      · exact c.rel_bind ih fun _ => c.rel_pure _
      · exact ih
      · next hOpen => exact absurd hOpen hDecided
    · rw [hOpen]
      exact .throw _

end Solve

/-! ## Depths and turns -/

/-- Strategies with related steps that take successors for the same states. -/
structure Strategy.Related (strategy : Strategy σ S) (strategy' : Strategy σ' S) : Prop where
  expand : ∀ l, c.Rel (strategy.expand l) (strategy'.expand l)
  testError : ∀ l, c.Rel (strategy.testError l) (strategy'.testError l)
  toCurrent : strategy'.toCurrent = strategy.toCurrent
  difference : ∀ r reached xs,
    c.Rel (strategy.difference r reached xs) (strategy'.difference r reached xs)
  goesOn : c.Rel strategy.goesOn strategy'.goesOn

variable {strategy : Strategy σ S} {strategy' : Strategy σ' S}

/-- The end of a depth. -/
theorem rel_closeDepth (hCurrent : strategy'.toCurrent = strategy.toCurrent)
    (hDifference : ∀ r reached xs,
      c.Rel (strategy.difference r reached xs) (strategy'.difference r reached xs))
    (xs : List Variable) (depth : Nat) :
    c.Rel (closeDepth env strategy xs depth) (closeDepth env' strategy' xs depth) := by
  refine c.rel_bind (c.rel_report _) fun _ => rel_image_bind c fun i => ?_
  refine c.rel_bind (c.rel_report _) fun _ => c.rel_bind (c.rel_report _) fun _ => ?_
  refine rel_image_bind c fun j => c.rel_bind (c.rel_modifyWork _) fun _ => ?_
  refine c.rel_bind (c.rel_report _) fun _ => c.rel_bind (c.rel_report _) fun _ => ?_
  have hFound : successors strategy' j = successors strategy j := by
    rw [successors, successors, hCurrent]
  rw [hFound]
  refine rel_image_bind c fun k => c.rel_bind (hDifference _ _ _) fun added => ?_
  exact c.rel_bind (c.rel_report _) fun _ => c.rel_modifyWork _

namespace Strategy.Related

variable {c} (h : Strategy.Related c strategy strategy')

include h

/-- Firing labels. -/
theorem rel_fireLabels (labels : List Label) :
    c.Rel (fireLabels strategy labels) (fireLabels strategy' labels) := by
  induction labels with
  | nil => exact c.rel_pure false
  | cons l ls ih =>
    refine c.rel_bind c.rel_stopped fun stop => c.rel_ite (c.rel_pure true) ?_
    refine c.rel_ite (c.rel_ite ?_ ?_) ih
    · exact c.rel_bind (h.testError l) fun _ => ih
    · exact c.rel_bind (h.expand l) fun _ => ih

theorem rel_deepen : c.Rel (deepen env strategy) (deepen env' strategy') := by
  have hFire : c.Rel (fireDepth env strategy) (fireDepth env' strategy') := by
    refine c.rel_work_bind fun w => c.rel_bind (c.rel_modifyWork _) fun _ => ?_
    refine rel_image_bind c fun i => c.rel_bind (c.rel_report _) fun _ => ?_
    exact h.rel_fireLabels _
  refine c.rel_work_bind fun w => c.rel_bind hFire fun interrupted => ?_
  exact c.rel_bind (rel_closeDepth c h.toCurrent h.difference _ _) fun _ => c.rel_pure _

/-- Whole turns. -/
theorem rel_turn (maxDepth : Option Nat) :
    c.Rel (turn env strategy maxDepth) (turn env' strategy' maxDepth) := by
  have hEnd : ∀ ending,
      c.Rel (do return Turn.done (← endAs ending) : Step σ S (Turn Unit (Image S)))
      (do return Turn.done (← endAs ending)) := fun ending =>
    c.rel_bind (c.rel_bind (c.rel_modifyWork _) fun _ => rel_image_bind c fun _ => c.rel_pure _)
      fun _ => c.rel_pure _
  refine rel_image_bind c fun i => c.rel_ite (hEnd _) (c.rel_ite (hEnd _) ?_)
  refine c.rel_bind h.rel_deepen fun interrupted => c.rel_ite (hEnd _) ?_
  refine c.rel_bind c.rel_stopped fun stop => c.rel_bind h.goesOn fun on => ?_
  exact c.rel_ite (hEnd _) (c.rel_pure _)

end Strategy.Related

/-! ## The strategies -/

theorem related_symbolic (hSolve : c.KeepsSolve) (simplify : Bool) :
    Strategy.Related c (symbolic env simplify) (symbolic env' simplify) where
  expand l := rel_image_bind c fun _ => c.rel_forM (rel_expandSymbolic c hSolve simplify l) _
  testError := rel_testReachable c
  toCurrent := rfl
  difference _ _ _ := Region.rel_uncovered c _ _
  goesOn := c.rel_pure true

theorem related_synchronised (hSolve : c.KeepsSolve) {owner : FlagOwner}
    (hRaise : c.Rel (raiseFlag owner : Step σ SymbolicState Unit) (raiseFlag owner)) :
    Strategy.Related c (synchronised env owner) (synchronised env' owner) :=
  { related_symbolic c hSolve true with
    testError := rel_testFrontier c hRaise
    goesOn := by
      cases owner with
      | shared => exact c.rel_bind c.rel_stopped fun _ => c.rel_pure _
      | own => exact c.rel_work_bind fun _ => c.rel_pure _ }

theorem related_enumerative (hSolve : c.KeepsSolve) :
    Strategy.Related c (enumerative env) (enumerative env') where
  expand l := rel_image_bind c fun _ => c.rel_forM (rel_expandConcrete c hSolve l) _
  testError := rel_testReachable c
  toCurrent := rfl
  difference _ _ _ := c.rel_pure _
  goesOn := c.rel_pure true

/-! ## Searches -/

variable (hInit : c.Throws .constructorsWithInit)

include hInit

theorem rel_searchStart : c.Rel (start env : Step σ S Unit) (start env') :=
  c.rel_onPart _ _ (Unrolling.rel_start c hInit)

/-- Symbolic searches with related strategies. -/
theorem related_searchSymbolic {strategy : Strategy σ SymbolicState}
    {strategy' : Strategy σ' SymbolicState} (h : Strategy.Related c strategy strategy')
    (maxDepth : Option Nat) :
    Exploration.Related c (searchSymbolic env strategy maxDepth)
      (searchSymbolic env' strategy' maxDepth) where
  first := by
    refine c.rel_bind (rel_searchStart c hInit) fun _ => c.rel_work_bind fun w => ?_
    exact c.rel_bind (c.rel_modifyWork _) fun _ => c.rel_modifyWork _
  turn _ := h.rel_turn maxDepth

theorem related_searchConcrete (hSolve : c.KeepsSolve) (maxDepth : Option Nat) :
    Exploration.Related c (searchConcrete env (enumerative env) maxDepth)
      (searchConcrete env' (enumerative env') maxDepth) where
  first := by
    refine c.rel_bind (rel_searchStart c hInit) fun _ => c.rel_work_bind fun w => ?_
    exact c.rel_bind (rel_concretise c hSolve _ _) fun _ => c.rel_modifyWork _
  turn _ := (related_enumerative c hSolve).rel_turn maxDepth

end Search

end StateSpace
