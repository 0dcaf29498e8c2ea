import StateSpace.Circuit.Encoder
import StateSpace.Proofs.Diagram.Lockstep

/-!
# Circuits do not depend on the computed table

Every circuit is put together from the operations of the diagram on edges that the manager holds. So
on two managers that differ at most in what they remember, each circuit has the same edges and takes
the same nodes, and the encoding of an expression (`wordOf_abreast`) ends in the same word or fails
for the same reason.
-/

namespace StateSpace.Circuit

open StateSpace.Diagram Manager

/-- The manager holds every bit of the word. -/
def HoldsAll (m : Manager) (a : Word) : Prop :=
  ∀ e ∈ a, m.Holds e

section Words

variable {m m' : Manager} {a b : Word} {e : Edge}

theorem HoldsAll.extends (h : HoldsAll m a) (hx : m.Extends m') : HoldsAll m' a :=
  fun e he => (h e he).extends hx

theorem HoldsAll.of_subset (h : HoldsAll m a) (hSub : b ⊆ a) : HoldsAll m b :=
  fun e he => h e (hSub he)

theorem holdsAll_nil : HoldsAll m [] := by
  intro e he
  cases he

theorem holdsAll_cons : HoldsAll m (e :: a) ↔ m.Holds e ∧ HoldsAll m a :=
  List.forall_mem_cons

theorem holdsAll_singleton (he : m.Holds e) : HoldsAll m [e] :=
  holdsAll_cons.mpr ⟨he, holdsAll_nil⟩

theorem HoldsAll.append (ha : HoldsAll m a) (hb : HoldsAll m b) : HoldsAll m (a ++ b) :=
  List.forall_mem_append.mpr ⟨ha, hb⟩

theorem HoldsAll.complement (h : HoldsAll m a) : HoldsAll m (complement a) := by
  intro e he
  obtain ⟨x, hx, rfl⟩ := List.mem_map.mp he
  exact (h x hx).neg

theorem holdsAll_constant (hs : m.Sound) (n width : Nat) : HoldsAll m (constant n width) := by
  intro e he
  obtain ⟨i, -, rfl⟩ := List.mem_map.mp he
  exact hs.holds_constant _

theorem holdsAll_replicate (n : Nat) (he : m.Holds e) : HoldsAll m (List.replicate n e) := by
  intro x hx
  rw [List.eq_of_mem_replicate hx]
  exact he

theorem HoldsAll.flipSign (h : HoldsAll m a) : HoldsAll m (flipSign a) := by
  induction a with
  | nil => exact holdsAll_nil
  | cons x a ih =>
    obtain ⟨hx, ha⟩ := holdsAll_cons.mp h
    cases a with
    | nil => exact holdsAll_singleton hx.neg
    | cons y a => exact holdsAll_cons.mpr ⟨hx, ih ha⟩

theorem HoldsAll.sign (h : HoldsAll m a) (hs : m.Sound) : m.Holds (sign a) := by
  unfold Circuit.sign
  rcases a.eq_nil_or_concat with rfl | ⟨front, last, rfl⟩
  · exact hs.holds_zero
  · simpa using h last (by simp)

theorem HoldsAll.moveBy (h : HoldsAll m a) (kind : Shift) (he : m.Holds e) (steps : Nat) :
    HoldsAll m (moveBy kind e steps a) := by
  have hFill := holdsAll_replicate steps he
  cases kind with
  | left => exact (hFill.append h).of_subset (List.take_subset _ _)
  | logical =>
    exact ((h.of_subset (List.drop_subset _ _)).append hFill).of_subset (List.take_subset _ _)
  | arithmetic =>
    exact ((h.of_subset (List.drop_subset _ _)).append hFill).of_subset (List.take_subset _ _)

theorem HoldsAll.resize (h : HoldsAll m a) (width : Nat) (he : m.Holds e) :
    HoldsAll m (resize e width a) :=
  (h.append (holdsAll_replicate _ he)).of_subset (List.take_subset _ _)

end Words

/-! ## Circuits -/

section Circuits

variable {m m' : Manager} {a b : Word} {c d e : Edge}

/-- Steps of a list in lockstep, one after the other. -/
theorem mapM_lockstep {ι : Type} {step : ι → Build Edge} (is : List ι) (ht : m.Twins m')
    (hStep : ∀ n n' i, n.Twins n' → m.Grows n → i ∈ is → Lockstep n n' (step i) Manager.Holds) :
    Lockstep m m' (is.mapM step) HoldsAll := by
  induction is generalizing m m' with
  | nil => exact .pure ht holdsAll_nil
  | cons i is ih =>
    rw [List.mapM_cons]
    refine (hStep m m' i ht (.refl ht.left) List.mem_cons_self).bind fun n n' x htn hg hx => ?_
    have hRest := ih htn fun k k' j htk hgk hj =>
      hStep k k' j htk (hg.trans hgk) (List.mem_cons_of_mem i hj)
    exact hRest.bind_pure fun k w hgk hw => holdsAll_cons.mpr ⟨hx.extends hgk.toExtends, hw⟩

/-- A connective on the bits of two words. -/
theorem zipBits_lockstep {op : Edge → Edge → Build Edge} (ht : m.Twins m')
    (hop : ∀ n n' x y, n.Twins n' → m.Grows n → n.Holds x → n.Holds y →
      Lockstep n n' (op x y) Manager.Holds)
    (ha : HoldsAll m a) (hb : HoldsAll m b) : Lockstep m m' (zipBits op a b) HoldsAll := by
  induction a generalizing b m m' with
  | nil => exact .pure ht holdsAll_nil
  | cons x a ih =>
    cases b with
    | nil => exact .pure ht holdsAll_nil
    | cons y b =>
      obtain ⟨hx, ha⟩ := holdsAll_cons.mp ha
      obtain ⟨hy, hb⟩ := holdsAll_cons.mp hb
      refine (hop m m' x y ht (.refl ht.left) hx hy).bind fun n n' z htn hg hz => ?_
      have hRest := ih htn (fun k k' x y htk hgk => hop k k' x y htk (hg.trans hgk))
        (ha.extends hg.toExtends) (hb.extends hg.toExtends)
      exact hRest.bind_pure fun k w hgk hw => holdsAll_cons.mpr ⟨hz.extends hgk.toExtends, hw⟩

theorem select_lockstep (ht : m.Twins m') (hc : m.Holds c) (ha : HoldsAll m a)
    (hb : HoldsAll m b) : Lockstep m m' (select c a b) HoldsAll :=
  zipBits_lockstep ht (fun _ _ _ _ htn hg hx hy => ite_lockstep htn (hc.extends hg.toExtends) hx hy)
    ha hb

/-- Equality in lockstep. -/
theorem equalFrom_lockstep (ht : m.Twins m') (hc : m.Holds c) (ha : HoldsAll m a)
    (hb : HoldsAll m b) : Lockstep m m' (equalFrom c a b) Manager.Holds := by
  induction a generalizing b c m m' with
  | nil => exact .pure ht hc
  | cons x a ih =>
    cases b with
    | nil => exact .pure ht hc
    | cons y b =>
      obtain ⟨hx, ha⟩ := holdsAll_cons.mp ha
      obtain ⟨hy, hb⟩ := holdsAll_cons.mp hb
      refine (iff_lockstep ht hx hy).bind fun n n' same htn hg hSame => ?_
      refine (and_lockstep htn (hc.extends hg.toExtends) hSame).bind fun k k' acc htk hgk hAcc => ?_
      have hx := (hg.trans hgk).toExtends
      exact ih htk hAcc (ha.extends hx) (hb.extends hx)

theorem equal_lockstep (ht : m.Twins m') (ha : HoldsAll m a) (hb : HoldsAll m b) :
    Lockstep m m' (equal a b) Manager.Holds :=
  equalFrom_lockstep ht ht.left.holds_one ha hb

/-- The order of words in lockstep. -/
theorem lessFrom_lockstep (ht : m.Twins m') (hc : m.Holds c) (ha : HoldsAll m a)
    (hb : HoldsAll m b) : Lockstep m m' (lessFrom c a b) Manager.Holds := by
  induction a generalizing b c m m' with
  | nil => exact .pure ht hc
  | cons x a ih =>
    cases b with
    | nil => exact .pure ht hc
    | cons y b =>
      obtain ⟨hx, ha⟩ := holdsAll_cons.mp ha
      obtain ⟨hy, hb⟩ := holdsAll_cons.mp hb
      refine (and_lockstep ht hx.neg hy).bind fun m₁ m₁' strictly ht₁ hg₁ hStrictly => ?_
      have hx₁ := hg₁.toExtends
      refine (iff_lockstep ht₁ (hx.extends hx₁) (hy.extends hx₁)).bind
        fun m₂ m₂' same ht₂ hg₂ hSame => ?_
      have hx₂ := (hg₁.trans hg₂).toExtends
      refine (and_lockstep ht₂ hSame (hc.extends hx₂)).bind fun m₃ m₃' kept ht₃ hg₃ hKept => ?_
      refine (or_lockstep ht₃ (hStrictly.extends (hg₂.trans hg₃).toExtends) hKept).bind
        fun m₄ m₄' less ht₄ hg₄ hLess => ?_
      have hx₄ := (((hg₁.trans hg₂).trans hg₃).trans hg₄).toExtends
      exact ih ht₄ hLess (ha.extends hx₄) (hb.extends hx₄)

theorem lessThan_lockstep (ht : m.Twins m') (signed : Bool) (ha : HoldsAll m a)
    (hb : HoldsAll m b) : Lockstep m m' (lessThan signed a b) Manager.Holds := by
  unfold lessThan
  split
  · exact lessFrom_lockstep ht ht.left.holds_zero ha.flipSign hb.flipSign
  · exact lessFrom_lockstep ht ht.left.holds_zero ha hb

/-- Full adders in lockstep. -/
theorem fullAdder_lockstep (ht : m.Twins m') (hc : m.Holds c) (hd : m.Holds d) (he : m.Holds e) :
    Lockstep m m' (fullAdder c d e) fun n r => n.Holds r.1 ∧ n.Holds r.2 := by
  refine (xor_lockstep ht hc hd).bind fun m₁ m₁' half ht₁ hg₁ hHalf => ?_
  have hx₁ := hg₁.toExtends
  refine (xor_lockstep ht₁ hHalf (he.extends hx₁)).bind fun m₂ m₂' sum ht₂ hg₂ hSum => ?_
  have hx₂ := (hg₁.trans hg₂).toExtends
  refine (and_lockstep ht₂ (hc.extends hx₂) (hd.extends hx₂)).bind
    fun m₃ m₃' both ht₃ hg₃ hBoth => ?_
  have hx₃ := ((hg₁.trans hg₂).trans hg₃).toExtends
  refine (xor_lockstep ht₃ (hc.extends hx₃) (hd.extends hx₃)).bind
    fun m₄ m₄' half ht₄ hg₄ hHalf => ?_
  have hx₄ := (((hg₁.trans hg₂).trans hg₃).trans hg₄).toExtends
  refine (and_lockstep ht₄ (he.extends hx₄) hHalf).bind fun m₅ m₅' passed ht₅ hg₅ hPassed => ?_
  have hg₃₅ := hg₄.trans hg₅
  refine (or_lockstep ht₅ (hBoth.extends hg₃₅.toExtends) hPassed).bind_pure
    fun m₆ carry hg₆ hCarry => ?_
  exact ⟨hSum.extends ((hg₃.trans hg₃₅).trans hg₆).toExtends, hCarry⟩

/-- Addition in lockstep. -/
theorem add_lockstep (ht : m.Twins m') (ha : HoldsAll m a) (hb : HoldsAll m b) (hc : m.Holds c) :
    Lockstep m m' (add a b c) HoldsAll := by
  induction a generalizing b c m m' with
  | nil => exact .pure ht holdsAll_nil
  | cons x a ih =>
    cases b with
    | nil => exact .pure ht holdsAll_nil
    | cons y b =>
      obtain ⟨hx, ha⟩ := holdsAll_cons.mp ha
      obtain ⟨hy, hb⟩ := holdsAll_cons.mp hb
      refine (fullAdder_lockstep ht hx hy hc).bind fun n n' r htn hg hr => ?_
      refine (ih htn (ha.extends hg.toExtends) (hb.extends hg.toExtends) hr.2).bind_pure
        fun k w hgk hw => ?_
      exact holdsAll_cons.mpr ⟨hr.1.extends hgk.toExtends, hw⟩

theorem sub_lockstep (ht : m.Twins m') (ha : HoldsAll m a) (hb : HoldsAll m b) :
    Lockstep m m' (sub a b) HoldsAll :=
  add_lockstep ht ha hb.complement ht.left.holds_one

theorem negate_lockstep (ht : m.Twins m') (ha : HoldsAll m a) :
    Lockstep m m' (negate a) HoldsAll :=
  sub_lockstep ht (holdsAll_constant ht.left _ _) ha

/-- Multiplication in lockstep. -/
theorem mulFrom_lockstep (ht : m.Twins m') {acc : Word} (hAcc : HoldsAll m acc)
    (ha : HoldsAll m a) (hb : HoldsAll m b) : Lockstep m m' (mulFrom acc a b) HoldsAll := by
  induction b generalizing acc a m m' with
  | nil => exact .pure ht hAcc
  | cons bit b ih =>
    obtain ⟨hBit, hb⟩ := holdsAll_cons.mp hb
    have hDouble : HoldsAll m (.zero :: a.dropLast) :=
      holdsAll_cons.mpr ⟨ht.left.holds_zero, ha.of_subset (List.dropLast_subset a)⟩
    rw [mulFrom]
    split
    · exact ih ht hAcc hDouble hb
    · refine (mapM_lockstep a ht fun n n' x htn hg hx =>
        and_lockstep htn ((ha x hx).extends hg.toExtends) (hBit.extends hg.toExtends)).bind
        fun n n' row htn hg hRow => ?_
      refine (add_lockstep htn (hAcc.extends hg.toExtends) hRow htn.left.holds_zero).bind
        fun k k' acc htk hgk hAcc => ?_
      have hx := (hg.trans hgk).toExtends
      exact ih htk hAcc (hDouble.extends hx) (hb.extends hx)

theorem mul_lockstep (ht : m.Twins m') (ha : HoldsAll m a) (hb : HoldsAll m b) :
    Lockstep m m' (mul a b) HoldsAll :=
  mulFrom_lockstep ht (holdsAll_constant ht.left _ _) ha hb

/-- The manager holds the bits of a quotient and of a remainder. -/
def HoldsBoth (m : Manager) (r : Word × Word) : Prop :=
  HoldsAll m r.1 ∧ HoldsAll m r.2

/-- Restoring division in lockstep. -/
theorem divideFrom_lockstep (ht : m.Twins m') {quotient remainder : Word} (hb : HoldsAll m b)
    (ha : HoldsAll m a) (hq : HoldsAll m quotient) (hr : HoldsAll m remainder) :
    Lockstep m m' (divideFrom b a quotient remainder) HoldsBoth := by
  induction a generalizing quotient remainder m m' with
  | nil => exact .pure ht ⟨hq, hr⟩
  | cons bit a ih =>
    obtain ⟨hBit, ha⟩ := holdsAll_cons.mp ha
    have hShifted : HoldsAll m (bit :: remainder.dropLast) :=
      holdsAll_cons.mpr ⟨hBit, hr.of_subset (List.dropLast_subset remainder)⟩
    refine (lessThan_lockstep ht false hShifted hb).bind fun m₁ m₁' less ht₁ hg₁ hLess => ?_
    have hx₁ := hg₁.toExtends
    refine (sub_lockstep ht₁ (hShifted.extends hx₁) (hb.extends hx₁)).bind
      fun m₂ m₂' difference ht₂ hg₂ hDifference => ?_
    have hx₂ := (hg₁.trans hg₂).toExtends
    have hFits := (hLess.extends hg₂.toExtends).neg
    refine (select_lockstep ht₂ hFits hDifference (hShifted.extends hx₂)).bind
      fun m₃ m₃' remainder ht₃ hg₃ hRemainder => ?_
    have hx₃ := ((hg₁.trans hg₂).trans hg₃).toExtends
    exact ih ht₃ (hb.extends hx₃) (ha.extends hx₃)
      (holdsAll_cons.mpr ⟨hFits.extends hg₃.toExtends, hq.extends hx₃⟩) hRemainder

theorem divideUnsigned_lockstep (ht : m.Twins m') (ha : HoldsAll m a) (hb : HoldsAll m b) :
    Lockstep m m' (divideUnsigned a b) HoldsBoth := by
  have hDivisor : HoldsAll m (b ++ [.zero]) :=
    hb.append (holdsAll_singleton ht.left.holds_zero)
  have hDividend : HoldsAll m a.reverse := ha.of_subset (List.reverse_subset.mpr fun _ he => he)
  refine (divideFrom_lockstep ht hDivisor hDividend holdsAll_nil
    (holdsAll_constant ht.left _ _)).bind_pure fun n r _ hr => ?_
  exact ⟨hr.1, hr.2.of_subset (List.take_subset _ _)⟩

/-- Signed division in lockstep. -/
theorem divideSigned_lockstep (ht : m.Twins m') (ha : HoldsAll m a) (hb : HoldsAll m b) :
    Lockstep m m' (divideSigned a b) HoldsBoth := by
  have hsa := ha.sign ht.left
  have hsb := hb.sign ht.left
  -- the magnitudes of both words
  refine (negate_lockstep ht ha).bind fun m₁ m₁' negA ht₁ hg₁ hNegA => ?_
  refine (select_lockstep ht₁ (hsa.extends hg₁.toExtends) hNegA (ha.extends hg₁.toExtends)).bind
    fun m₂ m₂' magA ht₂ hg₂ hMagA => ?_
  have hg₂ := hg₁.trans hg₂
  refine (negate_lockstep ht₂ (hb.extends hg₂.toExtends)).bind fun m₃ m₃' negB ht₃ hg₃ hNegB => ?_
  have hMagA := hMagA.extends hg₃.toExtends
  have hg₃ := hg₂.trans hg₃
  refine (select_lockstep ht₃ (hsb.extends hg₃.toExtends) hNegB (hb.extends hg₃.toExtends)).bind
    fun m₄ m₄' magB ht₄ hg₄ hMagB => ?_
  -- the quotient and the remainder of the magnitudes, and then their signs
  refine (divideUnsigned_lockstep ht₄ (hMagA.extends hg₄.toExtends) hMagB).bind
    fun m₅ m₅' r ht₅ hg₅ hr => ?_
  have hg₅ := (hg₃.trans hg₄).trans hg₅
  refine (xor_lockstep ht₅ (hsa.extends hg₅.toExtends) (hsb.extends hg₅.toExtends)).bind
    fun m₆ m₆' differ ht₆ hg₆ hDiffer => ?_
  have hq₆ := hr.1.extends hg₆.toExtends
  refine (negate_lockstep ht₆ hq₆).bind fun m₇ m₇' negQ ht₇ hg₇ hNegQ => ?_
  have hDiffer₇ := hDiffer.extends hg₇.toExtends
  refine (select_lockstep ht₇ hDiffer₇ hNegQ (hq₆.extends hg₇.toExtends)).bind
    fun m₈ m₈' quotient ht₈ hg₈ hQuotient => ?_
  have hg₈ := (hg₆.trans hg₇).trans hg₈
  have hr₈ := hr.2.extends hg₈.toExtends
  refine (negate_lockstep ht₈ hr₈).bind fun m₉ m₉' negR ht₉ hg₉ hNegR => ?_
  have hsa₉ := hsa.extends ((hg₅.trans hg₈).trans hg₉).toExtends
  refine (select_lockstep ht₉ hsa₉ hNegR (hr₈.extends hg₉.toExtends)).bind_pure
    fun n remainder hgn hRemainder => ?_
  exact ⟨hQuotient.extends (hg₉.trans hgn).toExtends, hRemainder⟩

theorem divide_lockstep (ht : m.Twins m') (signed : Bool) (ha : HoldsAll m a) (hb : HoldsAll m b) :
    Lockstep m m' (divide signed a b) HoldsBoth := by
  unfold divide
  split
  · exact divideSigned_lockstep ht ha hb
  · exact divideUnsigned_lockstep ht ha hb

theorem shiftFrom_lockstep (ht : m.Twins m') (kind : Shift) (k : Nat) (he : m.Holds e)
    (ha : HoldsAll m a) (hb : HoldsAll m b) :
    Lockstep m m' (shiftFrom kind e k a b) HoldsAll := by
  induction b generalizing a k m m' with
  | nil => exact .pure ht ha
  | cons bit b ih =>
    obtain ⟨hBit, hb⟩ := holdsAll_cons.mp hb
    refine (select_lockstep ht hBit (ha.moveBy kind he _) ha).bind fun n n' a htn hg ha => ?_
    exact ih htn (k + 1) (he.extends hg.toExtends) ha (hb.extends hg.toExtends)

theorem shift_lockstep (ht : m.Twins m') (kind : Shift) (ha : HoldsAll m a) (hb : HoldsAll m b) :
    Lockstep m m' (shift kind a b) HoldsAll := by
  have hFill : m.Holds (if kind = .arithmetic then sign a else .zero) := by
    split
    · exact ha.sign ht.left
    · exact ht.left.holds_zero
  exact shiftFrom_lockstep ht kind 0 hFill ha (hb.of_subset (List.take_subset _ _))

theorem connect_lockstep (ht : m.Twins m') (op : Connective) (hc : m.Holds c) (hd : m.Holds d) :
    Lockstep m m' (connect op c d) Manager.Holds := by
  cases op with
  | and => exact and_lockstep ht hc hd
  | or => exact or_lockstep ht hc hd
  | equiv => exact iff_lockstep ht hc hd
  | implies => exact imply_lockstep ht hc hd
  | xor => exact xor_lockstep ht hc hd

/-- Comparisons in lockstep. -/
theorem compareWords_lockstep (ht : m.Twins m') (op : Comparison) (signed : Bool)
    (ha : HoldsAll m a) (hb : HoldsAll m b) :
    Lockstep m m' (compareWords op signed a b) Manager.Holds := by
  cases op with
  | eq => exact equal_lockstep ht ha hb
  | ne => exact (equal_lockstep ht ha hb).bind_pure fun _ _ _ h => h.neg
  | lt => exact lessThan_lockstep ht signed ha hb
  | gt => exact lessThan_lockstep ht signed hb ha
  | le => exact (lessThan_lockstep ht signed hb ha).bind_pure fun _ _ _ h => h.neg
  | ge => exact (lessThan_lockstep ht signed ha hb).bind_pure fun _ _ _ h => h.neg

theorem calculate_lockstep (ht : m.Twins m') (op : Arithmetic) (signed : Bool)
    (ha : HoldsAll m a) (hb : HoldsAll m b) :
    Lockstep m m' (calculate op signed a b) HoldsAll := by
  cases op with
  | add => exact add_lockstep ht ha hb ht.left.holds_zero
  | sub => exact sub_lockstep ht ha hb
  | mul => exact mul_lockstep ht ha hb
  | div => exact (divide_lockstep ht signed ha hb).bind_pure fun _ _ _ h => h.1
  | rem => exact (divide_lockstep ht signed ha hb).bind_pure fun _ _ _ h => h.2

/-- Connectives of bits in lockstep. -/
theorem bitConnective_lockstep {op : Bitwise} {connective : Edge → Edge → Build Edge}
    (h : bitConnective? op = some connective) (ht : m.Twins m') (hc : m.Holds c) (hd : m.Holds d) :
    Lockstep m m' (connective c d) Manager.Holds := by
  cases op with
  | and =>
    cases h
    exact and_lockstep ht hc hd
  | or =>
    cases h
    exact or_lockstep ht hc hd
  | xor =>
    cases h
    exact xor_lockstep ht hc hd
  | shiftLeft | shiftRight | shiftRightZero => cases h

end Circuits

/-! ## Encoding steps -/

/-- Two encoders that differ at most in their computed tables. -/
structure Encoder.Twins (s s' : Encoder) : Prop where
  diagram : s.diagram.Twins s'.diagram
  slots : s'.slots = s.slots

/-- Two results are alike: the same value or the same cause of failure, with encoders that differ at
most in their computed tables. A value has `Q`, on an encoder that has kept the functions of `m`. -/
inductive Alike {α : Type} (m : Manager) (Q : Encoder → α → Prop) :
    EStateM.Result Unsupported Encoder α → EStateM.Result Unsupported Encoder α → Prop
  | ok {a n n'} (ht : n.Twins n') (hx : m.Extends n.diagram) (ha : Q n a) :
    Alike m Q (.ok a n) (.ok a n')
  | error {cause n n'} (ht : n.Twins n') : Alike m Q (.error cause n) (.error cause n')

/-- The step ends alike on both encoders. -/
def Encode.Abreast {α : Type} (s s' : Encoder) (step : Encode α) (Q : Encoder → α → Prop) : Prop :=
  Alike s.diagram Q (step s) (step s')

section Steps

variable {α β : Type} {s s' : Encoder} {Q : Encoder → α → Prop} {R : Encoder → β → Prop}

open Encode

theorem Encode.Abreast.pure {a : α} (ht : s.Twins s') (ha : Q s a) :
    Abreast s s' (pure a) Q :=
  .ok ht (.refl _) ha

theorem Encode.Abreast.throw {cause : Unsupported} (ht : s.Twins s') :
    Abreast s s' (throw cause : Encode α) Q :=
  .error ht

/-- The sequence rule of encoders abreast. -/
theorem Encode.Abreast.bind {step : Encode α} {k : α → Encode β} (h : Abreast s s' step Q)
    (hk : ∀ n n' a, n.Twins n' → s.diagram.Extends n.diagram → Q n a → Abreast n n' (k a) R) :
    Abreast s s' (step >>= k) R := by
  have hRun : ∀ n, (step >>= k) n = match step n with
      | .ok a n => k a n
      | .error cause n => .error cause n := by
    intro n
    show EStateM.bind step k n = _
    unfold EStateM.bind
    cases step n <;> rfl
  rw [Abreast, hRun, hRun]
  rw [Abreast] at h
  generalize step s = r at h ⊢
  generalize step s' = r' at h ⊢
  cases h with
  | error ht => exact .error ht
  | ok ht hx ha =>
    rename_i a n n'
    have hNext := hk n n' a ht hx ha
    rw [Abreast] at hNext
    show Alike s.diagram R (k a n) (k a n')
    generalize k a n = r at hNext ⊢
    generalize k a n' = r' at hNext ⊢
    cases hNext with
    | ok ht' hx' hb => exact .ok ht' (hx.trans hx') hb
    | error ht' => exact .error ht'

/-- A building step as an encoding step. -/
theorem abreast_ofBuild {step : Build α} {P : Manager → α → Prop} (ht : s.Twins s')
    (h : Lockstep s.diagram s'.diagram step P) :
    Abreast s s' (ofBuild step) fun n a => P n.diagram a := by
  obtain ⟨m, slots⟩ := s
  obtain ⟨m', slots'⟩ := s'
  obtain rfl : slots' = slots := ht.slots
  show Alike m _ (.ok (step m).1 ⟨(step m).2, slots'⟩) (.ok (step m').1 ⟨(step m').2, slots'⟩)
  rw [h.agree.1]
  exact .ok ⟨h.twins, rfl⟩ h.grows.toExtends h.result

/-- A building step whose result is changed by a function. -/
theorem abreast_ofBuild_pure {step : Build α} {P : Manager → α → Prop} {f : α → β}
    (ht : s.Twins s') (h : Lockstep s.diagram s'.diagram step P)
    (hR : ∀ n a, P n.diagram a → R n (f a)) :
    Abreast s s' (ofBuild step >>= fun a => pure (f a)) R :=
  (abreast_ofBuild ht h).bind fun n _ a htn _ ha => .pure htn (hR n a ha)

/-- A step that is refused under a condition. -/
theorem abreast_guard {c : Prop} [Decidable c] {cause : Unsupported} {next : Unit → Encode β}
    (ht : s.Twins s') (hNext : Abreast s s' (next ()) R) :
    Abreast s s' (if c then throw cause >>= next else next ()) R := by
  split
  · exact (Abreast.throw ht : Abreast s s' (throw cause : Encode Unit) fun _ _ => False).bind
      fun _ _ _ _ _ h => h.elim
  · exact hNext

theorem widthOf_abreast (ht : s.Twins s') (t : ValueType) :
    Abreast s s' (widthOf t) fun _ _ => True := by
  unfold widthOf
  split
  · exact .pure ht trivial
  · exact .throw ht

/-- Slots are given out in the same way. -/
theorem slotOf_abreast (ht : s.Twins s') (x : Variable) :
    Abreast s s' (slotOf x) fun _ _ => True := by
  obtain ⟨m, slots⟩ := s
  obtain ⟨m', slots'⟩ := s'
  obtain rfl : slots' = slots := ht.slots
  unfold Abreast slotOf
  dsimp only
  cases slots'[x]? with
  | some slot => exact .ok ht (.refl _) trivial
  | none => exact .ok ⟨ht.diagram, rfl⟩ (.refl _) trivial

theorem indicesOf_abreast (ht : s.Twins s') (x : Variable) :
    Abreast s s' (indicesOf x) fun _ vs => ∀ v ∈ vs, v ≠ 0 := by
  refine (widthOf_abreast ht x.type).bind fun n n' width htn _ _ => ?_
  refine (slotOf_abreast htn x).bind fun k k' slot htk _ _ => .pure htk ?_
  intro v hv
  obtain ⟨bit, -, rfl⟩ := List.mem_map.mp hv
  exact Nat.succ_ne_zero _

/-- Indices are given out in the same way. -/
theorem flatMapM_indicesOf_abreast (ht : s.Twins s') (xs : List Variable) :
    Abreast s s' (xs.flatMapM indicesOf) fun _ _ => True := by
  induction xs generalizing s s' with
  | nil =>
    rw [List.flatMapM_nil]
    exact .pure ht trivial
  | cons x xs ih =>
    rw [List.flatMapM_cons]
    refine (indicesOf_abreast ht x).bind fun n n' vs htn _ _ => ?_
    exact (ih htn).bind fun k k' rest htk _ _ => .pure htk trivial

theorem variableWord_abreast (ht : s.Twins s') (x : Variable) :
    Abreast s s' (variableWord x) fun n w => HoldsAll n.diagram w := by
  refine (indicesOf_abreast ht x).bind fun n n' vs htn _ hvs => ?_
  exact abreast_ofBuild htn (mapM_lockstep vs htn.diagram fun _ _ v htk _ hv =>
    mkVariable_lockstep htk (hvs v hv))

/-- The step gives the same word on any two encoders that differ at most in their computed
tables. -/
def EncodesAlike (word : Encode Word) : Prop :=
  ∀ ⦃s s' : Encoder⦄, s.Twins s' → Abreast s s' word fun n w => HoldsAll n.diagram w

theorem formulaOf_abreast {e : Expr} {word : Encode Word} (ht : s.Twins s')
    (h : EncodesAlike word) : Abreast s s' (formulaOf e word) fun n f => n.diagram.Holds f := by
  unfold formulaOf
  split
  · refine (h ht).bind fun n n' w htn _ hw => .pure htn ?_
    cases w with
    | nil => exact htn.diagram.left.holds_zero
    | cons f w => exact (holdsAll_cons.mp hw).1
  · exact .throw ht

/-- **Lockstep of encoding.** -/
theorem wordOf_abreast (e : Expr) : EncodesAlike (wordOf e) := by
  -- each case chains the operands and the circuit of the operator, in the order of the encoder
  induction e with
  | const c =>
    intro s s' ht
    cases c with
    | bool b => exact .pure ht (holdsAll_singleton (ht.diagram.left.holds_constant b))
    | int n t =>
      exact (widthOf_abreast ht t).bind fun n n' width htn _ _ =>
        .pure htn (holdsAll_constant htn.diagram.left _ _)
    | real text t => exact .throw ht
  | var x => exact fun s s' ht => variableWord_abreast ht x
  | not e ih =>
    intro s s' ht
    refine (formulaOf_abreast ht ih).bind fun n n' f htn _ hf => ?_
    exact .pure htn (holdsAll_singleton hf.neg)
  | logical op l r ihl ihr =>
    intro s s' ht
    refine (formulaOf_abreast ht ihl).bind fun n n' f htn _ hf => ?_
    refine (formulaOf_abreast htn ihr).bind fun k k' g htk hxk hg => ?_
    exact abreast_ofBuild_pure htk (connect_lockstep htk.diagram op (hf.extends hxk) hg)
      fun _ _ he => holdsAll_singleton he
  | compare op l r ihl ihr =>
    intro s s' ht
    refine (ihl ht).bind fun n n' a htn _ ha => ?_
    refine (ihr htn).bind fun k k' b htk hxk hb => ?_
    refine abreast_guard htk (abreast_guard htk ?_)
    exact abreast_ofBuild_pure htk (compareWords_lockstep htk.diagram op _ (ha.extends hxk) hb)
      fun _ _ he => holdsAll_singleton he
  | arith op l r ihl ihr =>
    intro s s' ht
    refine (ihl ht).bind fun n n' a htn _ ha => ?_
    refine (ihr htn).bind fun k k' b htk hxk hb => ?_
    refine abreast_guard htk ?_
    exact abreast_ofBuild htk (calculate_lockstep htk.diagram op _ (ha.extends hxk) hb)
  | bitwise op l r ihl ihr =>
    intro s s' ht
    refine (ihl ht).bind fun n n' a htn _ ha => ?_
    refine (ihr htn).bind fun k k' b htk hxk hb => ?_
    have ha := ha.extends hxk
    cases hop : bitConnective? op with
    | some connective =>
      refine abreast_guard htk (abreast_ofBuild htk (zipBits_lockstep htk.diagram ?_ ha hb))
      exact fun _ _ _ _ ht _ hx hy => bitConnective_lockstep hop ht hx hy
    | none => exact abreast_ofBuild htk (shift_lockstep htk.diagram _ ha hb)
  | negate e ih =>
    intro s s' ht
    refine (ih ht).bind fun n n' a htn _ ha => ?_
    exact abreast_ofBuild htn (negate_lockstep htn.diagram ha)
  | complement e ih =>
    intro s s' ht
    exact (ih ht).bind fun n n' a htn _ ha => .pure htn ha.complement
  | cast t e ih =>
    intro s s' ht
    -- a cast to a truth value is a comparison with zero, any other one keeps or adds bits
    by_cases hBool : t = .bool
    · subst hBool
      rw [wordOf]
      refine (ih ht).bind fun n n' a htn _ ha => ?_
      exact abreast_ofBuild_pure htn
        (equal_lockstep htn.diagram ha (holdsAll_constant htn.diagram.left _ _))
        fun _ _ he => holdsAll_singleton he.neg
    · rw [wordOf]
      · refine (widthOf_abreast ht t).bind fun n n' width htn _ _ => ?_
        refine (ih htn).bind fun k k' a htk _ ha => .pure htk (ha.resize _ ?_)
        split
        · exact ha.sign htk.diagram.left
        · exact htk.diagram.left.holds_zero
      · exact hBool
  | quantified q xs body ih =>
    intro s s' ht
    refine (flatMapM_indicesOf_abreast ht xs).bind fun n n' vs htn _ _ => ?_
    refine (formulaOf_abreast htn ih).bind fun k k' f htk _ hf => ?_
    cases q with
    | existential =>
      exact abreast_ofBuild_pure htk (existsOver_lockstep vs htk.diagram hf)
        fun _ _ he => holdsAll_singleton he
    | universal =>
      exact abreast_ofBuild_pure htk (forallOver_lockstep vs htk.diagram hf)
        fun _ _ he => holdsAll_singleton he

end Steps

end StateSpace.Circuit
