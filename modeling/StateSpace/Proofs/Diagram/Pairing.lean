import Mathlib.Data.Nat.Pairing
import Mathlib.Data.Set.Function
import Mathlib.Data.UInt
import StateSpace.Proofs.Diagram.WellFormed

/-!
# Pairing on machine words

The walk on words is the walk on numbers modulo `2 ^ 64` (`toNat_pair`), and the first `n` shells of
the walk on numbers are exactly the first `n * n` numbers (`natPair_lt_mul_self_iff`). So `2 ^ 32`
shells fill the words: the walk wraps exactly if an argument is `2 ^ 32` or more, and below that it
numbers the pairs without a gap. And `2 ^ 16` shells fill half of a word, so their pairs can be
paired once more: triples get different numbers, and so do the keys of the computed table while
their edges lead to early nodes (`pairing_perfect`).
-/

namespace StateSpace.Diagram

variable {a b c a' b' c' : UInt64} {e e' : Edge}

/-! ## Pairs -/

/-- On words the shells are walked modulo the size of a word. -/
theorem toNat_pair (a b : UInt64) :
    (pair a b).toNat = Nat.pair a.toNat b.toNat % 2 ^ 64 := by
  unfold pair Nat.pair
  simp only [UInt64.lt_iff_toNat_lt]
  split <;> simp only [UInt64.toNat_add, UInt64.toNat_mul, Nat.mod_add_mod]

/-- The first `n` shells are the numbers below the square of `n`. -/
theorem natPair_lt_mul_self_iff {k l n : Nat} : Nat.pair k l < n * n ↔ k < n ∧ l < n := by
  rw [← Nat.max_lt, ← Nat.pow_two]
  constructor
  · intro h
    have hShell := Nat.max_sq_add_min_le_pair k l
    exact (Nat.pow_lt_pow_iff_left (by decide : 2 ≠ 0)).mp (by omega)
  · intro h
    calc Nat.pair k l < (max k l + 1) ^ 2 := Nat.pair_lt_max_add_one_sq k l
      _ ≤ n ^ 2 := Nat.pow_le_pow_left h 2

/-- The walk on words is the exact one if and only if both arguments are below `2 ^ 32`. -/
theorem toNat_pair_eq_iff :
    (pair a b).toNat = Nat.pair a.toNat b.toNat ↔ a < 2 ^ 32 ∧ b < 2 ^ 32 := by
  rw [toNat_pair, Nat.mod_eq_iff_lt (by decide)]
  exact natPair_lt_mul_self_iff (n := 2 ^ 32)

theorem pair_inj (ha : a < 2 ^ 32) (hb : b < 2 ^ 32) (ha' : a' < 2 ^ 32) (hb' : b' < 2 ^ 32)
    (h : pair a b = pair a' b') : a = a' ∧ b = b' := by
  have hNat := congrArg UInt64.toNat h
  rw [toNat_pair_eq_iff.mpr ⟨ha, hb⟩, toNat_pair_eq_iff.mpr ⟨ha', hb'⟩, Nat.pair_eq_pair] at hNat
  exact ⟨UInt64.toNat_inj.mp hNat.1, UInt64.toNat_inj.mp hNat.2⟩

/-- Every word is the number of a pair: the one at its place in the walk on numbers. -/
theorem exists_pair_eq (n : UInt64) : ∃ a b : UInt64, a < 2 ^ 32 ∧ b < 2 ^ 32 ∧ pair a b = n := by
  obtain ⟨hk, hl⟩ : n.toNat.unpair.1 < 2 ^ 32 ∧ n.toNat.unpair.2 < 2 ^ 32 := by
    rw [← natPair_lt_mul_self_iff, Nat.pair_unpair]
    exact n.toNat_lt
  have hk' := UInt64.toNat_ofNat_of_lt' (hk.trans (by decide))
  have hl' := UInt64.toNat_ofNat_of_lt' (hl.trans (by decide))
  refine ⟨.ofNat n.toNat.unpair.1, .ofNat n.toNat.unpair.2, ?_, ?_, ?_⟩
  · exact UInt64.lt_iff_toNat_lt.mpr (hk'.trans_lt hk)
  · exact UInt64.lt_iff_toNat_lt.mpr (hl'.trans_lt hl)
  · rw [← UInt64.toNat_inj, toNat_pair, hk', hl', Nat.pair_unpair]
    exact Nat.mod_eq_of_lt n.toNat_lt

/-! ## Triples -/

/-- Two numbers below `2 ^ 16` have a number below `2 ^ 32`, which can be paired again. -/
theorem pair_lt (ha : a < 2 ^ 16) (hb : b < 2 ^ 16) : pair a b < 2 ^ 32 := by
  rw [UInt64.lt_iff_toNat_lt, toNat_pair]
  refine (Nat.mod_le _ _).trans_lt ?_
  exact natPair_lt_mul_self_iff (n := 2 ^ 16) |>.mpr ⟨ha, hb⟩

theorem triple_inj (ha : a < 2 ^ 16) (hb : b < 2 ^ 16) (hc : c < 2 ^ 32) (ha' : a' < 2 ^ 16)
    (hb' : b' < 2 ^ 16) (hc' : c' < 2 ^ 32) (h : triple a b c = triple a' b' c') :
    a = a' ∧ b = b' ∧ c = c' := by
  have hlt : ∀ {d : UInt64}, d < 2 ^ 16 → d < 2 ^ 32 := fun h => UInt64.lt_trans h (by decide)
  obtain ⟨hPair, rfl⟩ := pair_inj (pair_lt ha hb) hc (pair_lt ha' hb') hc' h
  obtain ⟨rfl, rfl⟩ := pair_inj (hlt ha) (hlt hb) (hlt ha') (hlt hb') hPair
  exact ⟨rfl, rfl, rfl⟩

/-! ## Keys of the computed table -/

theorem Edge.toNat_literal (he : e.index < 2 ^ 31) :
    e.literal.toNat = 2 * e.index + if e.isNegated then 1 else 0 := by
  refine UInt64.toNat_ofNat_of_lt' ?_
  rw [UInt64.size]
  split <;> omega

/-- Edges to early nodes are told apart by their literals. -/
theorem Edge.literal_inj (he : e.index < 2 ^ 31) (he' : e'.index < 2 ^ 31)
    (h : e.literal = e'.literal) : e = e' := by
  have hNat := congrArg UInt64.toNat h
  rw [toNat_literal he, toNat_literal he'] at hNat
  -- the mark is the parity
  have hBoth : e.index = e'.index ∧ e.isNegated = e'.isNegated := by grind
  exact eq_of_index_eq hBoth.1 hBoth.2

/-- An edge to a node before `2 ^ k` has a literal below `2 ^ (k + 1)`. -/
theorem Edge.toNat_literal_lt {k : Nat} (hk : k ≤ 31) (he : e.index < 2 ^ k) :
    e.literal.toNat < 2 ^ (k + 1) := by
  have hPow : 2 ^ k ≤ 2 ^ 31 := Nat.pow_le_pow_right (by decide) hk
  rw [toNat_literal (he.trans_le hPow), Nat.pow_succ]
  split <;> omega

/-- The hash tells keys apart whose edges lead to early nodes. -/
theorem slotHash_inj {t t' : Triple} (hf : t.condition.index < 2 ^ 15)
    (hg : t.consequent.index < 2 ^ 15) (hh : t.alternative.index < 2 ^ 31)
    (hf' : t'.condition.index < 2 ^ 15) (hg' : t'.consequent.index < 2 ^ 15)
    (hh' : t'.alternative.index < 2 ^ 31) (h : SlotHash.slotHash t = SlotHash.slotHash t') :
    t = t' := by
  have hlt : ∀ {i : Nat}, i < 2 ^ 15 → i < 2 ^ 31 := fun h => h.trans (by decide)
  obtain ⟨hCondition, hConsequent, hAlternative⟩ := triple_inj
    (Edge.toNat_literal_lt (by decide) hf) (Edge.toNat_literal_lt (by decide) hg)
    (Edge.toNat_literal_lt (by decide) hh) (Edge.toNat_literal_lt (by decide) hf')
    (Edge.toNat_literal_lt (by decide) hg') (Edge.toNat_literal_lt (by decide) hh') h
  cases t
  cases t'
  congr 1
  · exact Edge.literal_inj (hlt hf) (hlt hf') hCondition
  · exact Edge.literal_inj (hlt hg) (hlt hg') hConsequent
  · exact Edge.literal_inj hh hh' hAlternative

/-! ## A perfect hash -/

/-- **Pairing is a perfect hash.** The number of a pair is the exact one, so none of its sums and
products wraps, if and only if both numbers are below `2 ^ 32`. The pairs of such numbers are in
bijection with all words. Triples of two numbers below `2 ^ 16` and one below `2 ^ 32` have
different numbers. So the keys of the computed table have different hashes as long as their first
two edges lead to nodes before `2 ^ 15` and their last one to a node before `2 ^ 31`. -/
theorem pairing_perfect :
    (∀ a b, (pair a b).toNat = Nat.pair a.toNat b.toNat ↔ a < 2 ^ 32 ∧ b < 2 ^ 32) ∧
    Set.BijOn (fun p : UInt64 × UInt64 => pair p.1 p.2)
      {p | p.1 < 2 ^ 32 ∧ p.2 < 2 ^ 32} Set.univ ∧
    Set.InjOn (fun p : UInt64 × UInt64 × UInt64 => triple p.1 p.2.1 p.2.2)
      {p | p.1 < 2 ^ 16 ∧ p.2.1 < 2 ^ 16 ∧ p.2.2 < 2 ^ 32} ∧
    Set.InjOn (fun t : Triple => SlotHash.slotHash t)
      {t | t.condition.index < 2 ^ 15 ∧ t.consequent.index < 2 ^ 15 ∧
        t.alternative.index < 2 ^ 31} := by
  refine ⟨fun a b => toNat_pair_eq_iff, ⟨fun p _ => trivial, ?_, ?_⟩, ?_, ?_⟩
  · rintro ⟨a, b⟩ ⟨ha, hb⟩ ⟨a', b'⟩ ⟨ha', hb'⟩ h
    exact Prod.ext_iff.mpr (pair_inj ha hb ha' hb' h)
  · intro n _
    obtain ⟨a, b, ha, hb, h⟩ := exists_pair_eq n
    exact ⟨(a, b), ⟨ha, hb⟩, h⟩
  · rintro ⟨a, b, c⟩ ⟨ha, hb, hc⟩ ⟨a', b', c'⟩ ⟨ha', hb', hc'⟩ h
    obtain ⟨rfl, rfl, rfl⟩ := triple_inj ha hb hc ha' hb' hc' h
    rfl
  · rintro t ⟨hf, hg, hh⟩ t' ⟨hf', hg', hh'⟩ h
    exact slotHash_inj hf hg hh hf' hg' hh' h

/-- Past the limit the walk wraps around to numbers that are taken. -/
example : pair (2 ^ 32) 0 = pair 0 (2 ^ 16) := by decide

end StateSpace.Diagram
