import StateSpace.Proofs.Exploration.Transcript
import StateSpace.Proofs.Search.Congruence

/-!
# Open questions end an exploration

The explorations ask in many places: whether labels are enabled, whether states are new, which
values a formula leaves, and for the initial states. None of these passes over an open question.
Unrolling and the searches, whatever their strategy, are candid (`Search.explorations_candid`).
-/

namespace StateSpace

open Explore

namespace Search

variable {σ : Type}

section Candid

variable (env : Surroundings σ) (maxDepth : Option Nat)

theorem throws_constructorsWithInit : (Candid.congruence env).Throws .constructorsWithInit :=
  fun _ => nofun

theorem candid_unroll :
    (Unrolling.unroll env maxDepth).Candid (Unrolling.unroll env.transcribed maxDepth) :=
  Exploration.candid_of_related
    (Unrolling.related_unroll _ (throws_constructorsWithInit env) maxDepth)

theorem candid_searchSymbolic (simplify : Bool) :
    (searchSymbolic env (symbolic env simplify) maxDepth).Candid
      (searchSymbolic env.transcribed (symbolic env.transcribed simplify) maxDepth) :=
  Exploration.candid_of_related (related_searchSymbolic _ (throws_constructorsWithInit env)
    (related_symbolic _ (Candid.keepsSolve env) simplify) maxDepth)

theorem candid_searchSynchronised (owner : FlagOwner) :
    (searchSymbolic env (synchronised env owner) maxDepth).Candid
      (searchSymbolic env.transcribed (synchronised env.transcribed owner) maxDepth) := by
  have hRaise : (Candid.congruence env).Rel (raiseFlag owner : Step σ SymbolicState Unit)
      (raiseFlag owner) := by
    intro s asked
    cases owner <;> exact .returned Transcript.decided_nil
  exact Exploration.candid_of_related (related_searchSymbolic _ (throws_constructorsWithInit env)
    (related_synchronised _ (Candid.keepsSolve env) hRaise) maxDepth)

theorem candid_searchConcrete :
    (searchConcrete env (enumerative env) maxDepth).Candid
      (searchConcrete env.transcribed (enumerative env.transcribed) maxDepth) :=
  Exploration.candid_of_related (related_searchConcrete _ (throws_constructorsWithInit env)
    (Candid.keepsSolve env) maxDepth)

end Candid

/-- **No open question is passed over.** Whatever the solver answers, an exploration returns only if
all questions that it asked were decided; the first open question makes it fail, and no other one is
asked. So are any number of its turns, from wherever they start. -/
theorem explorations_candid (env : Surroundings σ) (maxDepth : Option Nat) :
    (Unrolling.unroll env maxDepth).Candid (Unrolling.unroll env.transcribed maxDepth) ∧
    (∀ simplify, (searchSymbolic env (symbolic env simplify) maxDepth).Candid
      (searchSymbolic env.transcribed (symbolic env.transcribed simplify) maxDepth)) ∧
    (∀ owner, (searchSymbolic env (synchronised env owner) maxDepth).Candid
      (searchSymbolic env.transcribed (synchronised env.transcribed owner) maxDepth)) ∧
    (searchConcrete env (enumerative env) maxDepth).Candid
      (searchConcrete env.transcribed (enumerative env.transcribed) maxDepth) :=
  ⟨candid_unroll env maxDepth, candid_searchSymbolic env maxDepth,
    candid_searchSynchronised env maxDepth, candid_searchConcrete env maxDepth⟩

end Search

end StateSpace
