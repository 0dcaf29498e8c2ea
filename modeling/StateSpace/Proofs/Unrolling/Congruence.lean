import StateSpace.Proofs.Exploration.Congruence
import StateSpace.Unrolling.Unroll

/-!
# Unrolling step by step in two surroundings

A relation that the smallest steps keep holds of each step of unrolling
(`Unrolling.related_unroll`).
-/

namespace StateSpace.Unrolling

open Explore

variable {σ σ' : Type} {env : Surroundings σ} {env' : Surroundings σ'} (c : Congruence env env')

/-- Firing a label. -/
theorem rel_fire (depth source : Nat) (l : Label) :
    c.Rel (fire env depth source l) (fire env' depth source l) := by
  refine c.rel_work_bind fun u => c.rel_bind (c.rel_holdsDuring _ _ _ _) fun enabled => ?_
  refine c.rel_ite (c.rel_ite (c.rel_modifyWork _) ?_) (c.rel_pure ())
  refine c.rel_bind (c.rel_report _) fun _ => c.rel_work_bind fun v => ?_
  refine c.rel_bind (c.rel_report _) fun _ => ?_
  -- the question whether the successor is new is asked only if the label is no constructor
  by_cases hConstructor : l.isConstructor = true
  · rw [if_pos hConstructor, if_pos hConstructor]
    exact c.rel_bind (c.rel_pure true) fun new => c.rel_modifyWork _
  · rw [if_neg hConstructor, if_neg hConstructor]
    exact c.rel_bind (c.rel_holdsDuring _ _ _ _) fun new => c.rel_modifyWork _

/-- A start fails by itself only if a system has both constructors and initial values. -/
theorem rel_start (hInit : c.Throws .constructorsWithInit) : c.Rel (start env) (start env') := by
  refine c.rel_work_bind fun u => c.rel_ite (c.rel_pure ()) ?_
  refine c.rel_ite (c.rel_throw hInit) (c.rel_bind (c.rel_modifyWork _) fun _ => ?_)
  refine c.rel_ite ?_ ?_
  · exact c.rel_bind (c.rel_modifyWork _) fun _ => c.rel_modifyWork _
  · refine c.rel_bind (c.rel_modifyWork _) fun _ => ?_
    refine c.rel_bind (c.rel_forM (rel_fire c.quietly _ _) _) fun _ => ?_
    exact c.rel_bind (c.rel_modifyWork _) fun _ => c.rel_modifyWork _

theorem rel_fireLabels (depth source : Nat) (labels : List Label) :
    c.Rel (fireLabels env depth source labels) (fireLabels env' depth source labels) := by
  induction labels with
  | nil => exact c.rel_pure true
  | cons l ls ih =>
    refine c.rel_bind c.rel_stopped fun stop => c.rel_ite (c.rel_pure false) ?_
    exact c.rel_ite (c.rel_bind (rel_fire c depth source l) fun _ => ih) ih

theorem rel_fireFrontier (depth : Nat) (labels : List Label) (sources : List Nat) :
    c.Rel (fireFrontier env depth labels sources) (fireFrontier env' depth labels sources) := by
  induction sources with
  | nil => exact c.rel_pure ()
  | cons source rest ih =>
    refine c.rel_ite ih ?_
    refine c.rel_bind (rel_fireLabels c depth source labels) fun through => ?_
    exact c.rel_ite ih (c.rel_pure ())

variable (hInit : c.Throws .constructorsWithInit)

include hInit

theorem rel_iterate (depth : Nat) : c.Rel (iterate env (depth + 1)) (iterate env' (depth + 1)) := by
  unfold iterate
  rw [if_neg (Nat.succ_ne_zero depth), if_neg (Nat.succ_ne_zero depth)]
  refine c.rel_bind (rel_start c hInit) fun _ => ?_
  refine c.rel_bind (c.rel_report _) fun _ => c.rel_bind (c.rel_modifyWork _) fun _ => ?_
  refine c.rel_work_bind fun u => c.rel_bind (rel_fireFrontier c _ _ _) fun _ => ?_
  exact c.rel_bind (c.rel_report _) fun _ => c.rel_work_bind fun v => c.rel_report _

theorem rel_turn (maxDepth : Option Nat) (depth : Nat) :
    c.Rel (turn env maxDepth depth) (turn env' maxDepth depth) := by
  refine c.rel_work_bind fun u => c.rel_ite (c.rel_pure _) ?_
  refine c.rel_bind c.rel_stopped fun stop => c.rel_ite (c.rel_pure _) ?_
  refine c.rel_ite (c.rel_pure _) (c.rel_bind (rel_iterate c hInit depth) fun _ => ?_)
  exact c.rel_bind c.rel_stopped fun stop => c.rel_ite (c.rel_pure _) (c.rel_pure _)

theorem related_unroll (maxDepth : Option Nat) :
    Exploration.Related c (unroll env maxDepth) (unroll env' maxDepth) where
  first := c.rel_bind (rel_start c hInit) fun _ => c.rel_work_bind fun _ => c.rel_pure _
  turn := rel_turn c hInit maxDepth

end StateSpace.Unrolling
