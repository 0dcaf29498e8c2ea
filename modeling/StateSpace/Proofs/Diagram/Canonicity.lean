import StateSpace.Proofs.Diagram.WellFormed

/-!
# Canonicity

In a well-formed manager equal functions are equal edges (`Manager.eq_of_eval_eq`). The proof takes
two edges of one function and follows the smaller of their first variables. If only one of them asks
it, its two children are the same function, which a reduced table rules out; if both ask it, their
children agree by induction, and so do their marks, because stored high edges are never complements.

A consequence that the operations rest on: how deep an edge may stand is decided by its function
alone (`Manager.above_of_independent`).
-/

namespace StateSpace.Diagram

attribute [ext] Node

namespace Manager

variable {m : Manager} {e e' : Edge} {v : Nat}

/-! ## Cofactors -/

/-- Setting the first variable of a decision to false leaves the function of its low child. -/
theorem eval_low (hw : m.WellFormed) (hd : m.IsDecision e.index) (a : Assignment) :
    m.eval (Function.update a (m.topVar e) false) e = m.eval a (m.low e) := by
  obtain ⟨hl, -, hAbove⟩ := hw.low_spec hd
  rw [eval_node hw hd, Function.update_self, if_neg Bool.false_ne_true, eval_update hw hl hAbove]

/-- Setting the first variable of a decision to true leaves the function of its high child. -/
theorem eval_high (hw : m.WellFormed) (hd : m.IsDecision e.index) (a : Assignment) :
    m.eval (Function.update a (m.topVar e) true) e = m.eval a (m.high e) := by
  obtain ⟨hh, -, hAbove⟩ := hw.high_spec hd
  rw [eval_node hw hd, Function.update_self, if_pos rfl, eval_update hw hh hAbove]

/-- The mark of a decision shows on its high child. -/
theorem isNegated_high (hw : m.WellFormed) (hd : m.IsDecision e.index) :
    (m.high e).isNegated = e.isNegated := by
  have hReg := hw.high_regular _ hd
  have hOne : 1 ≤ (m.node e.index).high.index := by
    rcases hw.high_child _ hd with h1 | ⟨hd', -, -⟩
    · omega
    · have := hd'.1
      omega
  rw [high]
  cases e.isNegated with
  | false => exact hReg
  | true => rw [Edge.complementIf_true, Edge.isNegated_neg hOne, hReg]; rfl

/-- Decisions with the same first variable and the same children are the same edge. -/
theorem eq_of_children_eq (hw : m.WellFormed) (hd : m.IsDecision e.index)
    (hd' : m.IsDecision e'.index) (hv : m.topVar e = m.topVar e') (hl : m.low e = m.low e')
    (hh : m.high e = m.high e') : e = e' := by
  have hn : e.isNegated = e'.isNegated := by
    rw [← isNegated_high hw hd, ← isNegated_high hw hd', hh]
  have hNode : m.node e.index = m.node e'.index := by
    have hl' : (m.node e.index).low = (m.node e'.index).low := by
      unfold low at hl
      rw [← hn] at hl
      cases hNeg : e.isNegated with
      | false => simpa [hNeg] using hl
      | true => exact neg_injective (by simpa [hNeg] using hl)
    have hh' : (m.node e.index).high = (m.node e'.index).high := by
      unfold high at hh
      rw [← hn] at hh
      cases hNeg : e.isNegated with
      | false => simpa [hNeg] using hh
      | true => exact neg_injective (by simpa [hNeg] using hh)
    exact Node.ext hv hl' hh'
  -- the unique table names one index for this node
  have hi := (hw.unique_iff (m.node e.index) e.index).mpr ⟨hd, rfl⟩
  have hi' := (hw.unique_iff (m.node e.index) e'.index).mpr ⟨hd', hNode.symm⟩
  exact Edge.eq_of_index_eq (Option.some.inj (hi.symm.trans hi')) hn

/-! ## Equal functions are equal edges -/

/-- **Canonicity.** Held edges of the same function are equal. -/
theorem eq_of_eval_eq (hw : m.WellFormed) (he : m.Holds e) (he' : m.Holds e')
    (h : ∀ a, m.eval a e = m.eval a e') : e = e' := by
  induction hk : e.index + e'.index using Nat.strongRecOn generalizing e e' with
  | ind k ih =>
    -- a decision cannot have the function of an edge that does not ask its variable
    have hSkip : ∀ {d f : Edge}, d.index + f.index = k → m.IsDecision d.index → m.Holds f →
        m.Above (m.topVar d) f → (∀ a, m.eval a d = m.eval a f) → False := by
      intro d f hSum hd hf hAbove hdf
      obtain ⟨hl, hlt, -⟩ := hw.low_spec hd
      obtain ⟨hh, hht, -⟩ := hw.high_spec hd
      have hLow : m.low d = f := by
        refine ih _ (by omega) hl hf (fun a => ?_) rfl
        rw [← eval_low hw hd, hdf, eval_update hw hf hAbove]
      have hHigh : m.high d = f := by
        refine ih _ (by omega) hh hf (fun a => ?_) rfl
        rw [← eval_high hw hd, hdf, eval_update hw hf hAbove]
      exact hw.low_ne_high_edge hd (hLow.trans hHigh.symm)
    have hSym : ∀ a, m.eval a e' = m.eval a e := fun a => (h a).symm
    have hk' : e'.index + e.index = k := by omega
    rcases he.cases with h1 | hd
    · rcases he'.cases with h1' | hd'
      · have hDiff := h fun _ => false
        rcases Edge.eq_zero_or_one h1 with rfl | rfl <;>
          rcases Edge.eq_zero_or_one h1' with rfl | rfl <;> simp_all
      · exact (hSkip hk' hd' he (.inl h1) hSym).elim
    · rcases he'.cases with h1' | hd'
      · exact (hSkip hk hd he' (.inl h1') h).elim
      · rcases Nat.lt_trichotomy (m.topVar e) (m.topVar e') with hlt | heq | hgt
        · exact (hSkip hk hd he' (.inr hlt) h).elim
        · obtain ⟨hl, hlt, -⟩ := hw.low_spec hd
          obtain ⟨hl', hlt', -⟩ := hw.low_spec hd'
          obtain ⟨hh, hht, -⟩ := hw.high_spec hd
          obtain ⟨hh', hht', -⟩ := hw.high_spec hd'
          have hLow : m.low e = m.low e' := by
            refine ih _ (by omega) hl hl' (fun a => ?_) rfl
            rw [← eval_low hw hd, ← eval_low hw hd', ← heq, h]
          have hHigh : m.high e = m.high e' := by
            refine ih _ (by omega) hh hh' (fun a => ?_) rfl
            rw [← eval_high hw hd, ← eval_high hw hd', ← heq, h]
          exact eq_of_children_eq hw hd hd' heq hLow hHigh
        · exact (hSkip hk' hd' he (.inr hgt) hSym).elim

/-- A function that does not look at the variables up to `v` is stored beyond them. -/
theorem above_of_independent (hw : m.WellFormed) (he : m.Holds e)
    (h : ∀ a b : Assignment, (∀ u, v < u → a u = b u) → m.eval a e = m.eval b e) :
    m.Above v e := by
  rcases he.cases with h1 | hd
  · exact .inl h1
  · refine .inr (Nat.lt_of_not_le fun hle => ?_)
    refine hw.low_ne_high_edge hd (eq_of_eval_eq hw (hw.low_spec hd).1 (hw.high_spec hd).1 ?_)
    intro a
    rw [← eval_low hw hd, ← eval_high hw hd]
    refine h _ _ fun u hu => ?_
    rw [Function.update_of_ne (by omega), Function.update_of_ne (by omega)]

end Manager

end StateSpace.Diagram
