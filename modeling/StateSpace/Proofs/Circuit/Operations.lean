import StateSpace.Circuit.Encoder
import StateSpace.Proofs.Circuit.TwosComplement

/-!
# Words of values

A word renders a family of numbers at a type if it has the width of the type and spells the bits of
the numbers, which are in the range of the type (`Renders`). Each operation on words renders the
operation of expressions on the rendered numbers.
-/

namespace StateSpace.Circuit

open StateSpace.Diagram Manager ValueType

/-- A word of the width of a type that spells, on every assignment, the bits of a number in the
range of the type. -/
structure Renders (m : Manager) (w : Word) (t : ValueType) (V : Assignment → Int) : Prop where
  width : t.width? = some w.length
  fits : ∀ a, t.Fits (V a)
  spells : Spells m w w.length fun a => t.bits (V a)

variable {m m' : Manager} {w v : Word} {t t' : ValueType} {n : Nat} {A B : Assignment → Int}
  {X Y : Assignment → Nat} {e : Edge} {F : Assignment → Bool}

theorem Renders.congr (h : Renders m w t A) (hAB : ∀ a, A a = B a) : Renders m w t B :=
  ⟨h.width, fun a => hAB a ▸ h.fits a, h.spells.congr fun a => by rw [hAB]⟩

theorem Renders.grows (h : Renders m w t A) (hg : m.Grows m') : Renders m' w t A :=
  ⟨h.width, h.fits, h.spells.grows hg⟩

theorem renders_of_spells (ht : t.width? = some n) (hA : ∀ a, t.Fits (A a)) (h : Spells m w n X)
    (hX : ∀ a, X a = t.bits (A a)) : Renders m w t A := by
  obtain rfl := h.length_eq
  exact ⟨ht, hA, h.congr hX⟩

/-- A word renders any numbers with its bits, once they are wrapped. -/
theorem renders_wrap (ht : t.width? = some n) (h : Spells m w n X)
    (hX : ∀ a, X a = t.bits (A a)) : Renders m w t fun a => t.wrap (A a) :=
  renders_of_spells ht (fun a => t.fits_wrap (A a)) h fun a => by rw [bits_wrap, hX]

/-- A word read at another type of its width. -/
theorem Renders.retype (h : Renders m w t A) (ht' : t'.width? = some w.length) :
    Renders m w t' fun a => t'.wrap (A a) :=
  renders_wrap ht' h.spells fun a => by
    rw [bits, bits, modulus_eq h.width, modulus_eq ht']

theorem Renders.spells_of_width (h : Renders m w t A) (ht : t.width? = some n) :
    Spells m w n fun a => t.bits (A a) := by
  obtain rfl := Option.some.inj (h.width.symm.trans ht)
  exact h.spells

/-- A word of a type has a highest bit. -/
theorem Renders.exists_succ (h : Renders m w t A) :
    ∃ k, t.width? = some (k + 1) ∧ Spells m w (k + 1) fun a => t.bits (A a) := by
  obtain ⟨k, hk⟩ := exists_width_eq_succ h.width
  have ht : t.width? = some (k + 1) := hk ▸ h.width
  exact ⟨k, ht, h.spells_of_width ht⟩

/-! ## Truth values -/

theorem renders_truth (h : m.Means e F) : Renders m [e] .bool fun a => truthValue (F a) := by
  refine renders_of_spells rfl (fun a => ?_) (spells_single h) fun a => ?_
  · cases F a <;> decide
  · cases F a <;> decide

/-- The only bit of a boolean word is true where the number is not zero. -/
theorem Renders.truth (h : Renders m w .bool A) :
    m.Means (w.headD .zero) fun a => decide (A a ≠ 0) := by
  have hLen : w.length = 1 := (Option.some.inj h.width).symm
  have hw := h.spells
  rw [hLen] at hw
  obtain ⟨e, v, F, Y, rfl, he, hv, hX⟩ := hw.succ_inv
  obtain ⟨-, hY⟩ := hv.zero_inv
  refine he.congr fun a => ?_
  have hBits := hX a
  rw [hY, Nat.mul_zero, Nat.add_zero] at hBits
  have hZero := (h.fits a).bits_eq_zero_iff
  rw [hBits] at hZero
  cases hF : F a <;> simp [hF] at hZero <;> simp [hZero]

theorem renders_constant (hs : m.Sound) (ht : t.width? = some n) (c : Int) :
    Renders m (constant (t.bits c) n) t fun _ => t.wrap c :=
  renders_wrap ht (spells_constant hs _ n) fun _ => Nat.mod_eq_of_lt (bits_lt ht c)

/-! ## Comparison -/

section Pairs

variable (hs : m.Sound) (hw : Renders m w t A) (hv : Renders m v t B)

include hs hw hv

theorem equal_renders :
    Builds m (equal w v) fun m' f => m'.Means f fun a => decide (A a = B a) := by
  refine (equal_builds hs hw.spells (hv.spells_of_width hw.width)).mono fun m' f _ hf =>
    hf.congr fun a => ?_
  rw [decide_eq_decide]
  exact ⟨(hw.fits a).ext (hv.fits a), fun h => by rw [h]⟩

/-- The order of words is the order of their values, signed or not. -/
theorem lessThan_renders :
    Builds m (lessThan t.isSigned w v) fun m' f => m'.Means f fun a => decide (A a < B a) := by
  obtain ⟨k, ht, hw'⟩ := hw.exists_succ
  have hv' := hv.spells_of_width ht
  cases hSigned : t.isSigned with
  | true =>
    refine (lessThan_builds_signed hs hw' hv').mono fun m' f _ hf => hf.congr fun a => ?_
    have hA := (hw.fits a).cast_swapHalves ht hSigned
    have hB := (hv.fits a).cast_swapHalves ht hSigned
    rw [decide_eq_decide]
    omega
  | false =>
    refine (lessThan_builds_unsigned hs hw' hv').mono fun m' f _ hf => hf.congr fun a => ?_
    have hA := (hw.fits a).cast_bits_of_nonneg ht ((fits_unsigned_iff ht hSigned).mp (hw.fits a)).1
    have hB := (hv.fits a).cast_bits_of_nonneg ht ((fits_unsigned_iff ht hSigned).mp (hv.fits a)).1
    rw [decide_eq_decide]
    omega

end Pairs

/-- The circuit of a comparison decides it. -/
theorem compareWords_renders (op : Comparison) (hs : m.Sound) (hw : Renders m w t A)
    (hv : Renders m v t B) :
    Builds m (compareWords op t.isSigned w v) fun m' f =>
      m'.Means f fun a => op.eval (A a) (B a) := by
  cases op with
  | eq => exact equal_renders hs hw hv
  | ne =>
    refine (equal_renders hs hw hv).bind_pure fun m' f hg hf => ?_
    exact (hf.neg hg.new).congr fun a => by simp only [Comparison.eval, ne_eq, decide_not]
  | lt => exact lessThan_renders hs hw hv
  | gt => exact lessThan_renders hs hv hw
  | le =>
    refine (lessThan_renders hs hv hw).bind_pure fun m' f hg hf => ?_
    exact (hf.neg hg.new).congr fun a => by simp only [Comparison.eval, ← Int.not_lt, decide_not]
  | ge =>
    refine (lessThan_renders hs hw hv).bind_pure fun m' f hg hf => ?_
    exact (hf.neg hg.new).congr fun a => by simp only [Comparison.eval, ← Int.not_lt, decide_not]

/-! ## Arithmetic -/

/-- The circuit of an arithmetic operator computes its value. -/
theorem calculate_renders (op : Arithmetic) (hs : m.Sound) (hw : Renders m w t A)
    (hv : Renders m v t B) :
    Builds m (calculate op t.isSigned w v) fun m' u =>
      Renders m' u t fun a => op.eval t (A a) (B a) := by
  obtain ⟨k, ht, hw'⟩ := hw.exists_succ
  have hv' := hv.spells_of_width ht
  have hFits : ∀ op : Arithmetic, ∀ a, t.Fits (op.eval t (A a) (B a)) :=
    fun op a => Arithmetic.fits_eval op ht (hw.fits a)
  have hDivide : Builds m (divide t.isSigned w v) fun m' p =>
      Renders m' p.1 t (fun a => Arithmetic.div.eval t (A a) (B a)) ∧
      Renders m' p.2 t (fun a => Arithmetic.rem.eval t (A a) (B a)) := by
    cases hSigned : t.isSigned with
    | true =>
      refine (divideSigned_builds hs hw' hv').mono fun m' p _ hp => ⟨?_, ?_⟩
      · exact renders_of_spells ht (hFits .div) hp.1 fun a =>
          (hw.fits a).signedQuotient_bits (hv.fits a) ht hSigned
      · exact renders_of_spells ht (hFits .rem) hp.2 fun a =>
          (hw.fits a).signedRemainder_bits (hv.fits a) ht hSigned
    | false =>
      refine (divideUnsigned_builds hs hw' hv').mono fun m' p _ hp => ⟨?_, ?_⟩
      · exact renders_of_spells ht (hFits .div) hp.1 fun a =>
          (hw.fits a).quotient_bits (hv.fits a) ht hSigned
      · exact renders_of_spells ht (hFits .rem) hp.2 fun a =>
          (hw.fits a).remainder_bits (hv.fits a) ht hSigned
  cases op with
  | add =>
    refine (add_builds hs hw' hv' hs.means_zero).mono fun m' u _ hu => ?_
    exact renders_wrap ht hu fun a => by rw [bits_add ht, Bool.toNat_false, Nat.add_zero]
  | sub =>
    refine (sub_builds hs hw' hv').mono fun m' u _ hu => ?_
    exact renders_wrap ht hu fun a => by rw [bits_sub ht]
  | mul =>
    refine (mul_builds hs (Nat.succ_pos k) hw' hv').mono fun m' u _ hu => ?_
    exact renders_wrap ht hu fun a => by rw [bits_mul ht]
  | div => exact hDivide.bind_pure fun _ p _ hp => hp.1
  | rem => exact hDivide.bind_pure fun _ p _ hp => hp.2

theorem negate_renders (hs : m.Sound) (hw : Renders m w t A) :
    Builds m (negate w) fun m' u => Renders m' u t fun a => t.wrap (-A a) :=
  (negate_builds hs hw.spells).mono fun _ _ _ hu =>
    renders_wrap hw.width hu fun a => by rw [bits_neg hw.width, negated]

theorem Renders.complement (hw : Renders m w t A) (hs : m.Sound) :
    Renders m (complement w) t fun a => t.wrap (-A a - 1) :=
  renders_wrap hw.width (hw.spells.complement hs) fun a => by rw [bits_neg_sub_one hw.width]

/-! ## Bits and shifts -/

/-- The circuit of a bitwise operator computes its value. -/
theorem zipBits_renders {op : Bitwise} {connective : Edge → Edge → Build Edge}
    (hop : bitConnective? op = some connective) (hs : m.Sound) (hw : Renders m w t A)
    (hv : Spells m v w.length Y) :
    Builds m (zipBits connective w v) fun m' u =>
      Renders m' u t fun a => op.eval t (A a) (Y a) := by
  have ht := hw.width
  -- the number is in range as it is spelled by a word of that length
  have hZip : ∀ {c : Edge → Edge → Build Edge} {p : Bool → Bool → Bool} {N : Nat → Nat → Nat},
      Connects m c (fun _ => p) → Digitwise p N →
      Builds m (zipBits c w v) fun m' u =>
        Renders m' u t fun a => t.wrap (N (t.bits (A a)) (Y a) : Nat) := by
    intro c p N hc hN
    refine (zipBits_builds hs hc (fun _ => hN) hw.spells hv).mono fun m' u _ hu => ?_
    refine renders_wrap ht hu fun a => ?_
    rw [bits_natCast ht, Nat.mod_eq_of_lt (hu.lt a)]
  cases op with
  | and =>
    cases hop
    exact hZip (fun hg hx hy => and_builds hg.new hx hy) digitwise_land
  | or =>
    cases hop
    exact hZip (fun hg hx hy => or_builds hg.new hx hy) digitwise_lor
  | xor =>
    cases hop
    exact hZip (fun hg hx hy => xor_builds hg.new hx hy) digitwise_xor
  | shiftLeft | shiftRight | shiftRightZero => cases hop

/-- The sign of a number at its type: unsigned types have none. -/
theorem Renders.negative (hw : Renders m w t A) (hs : m.Sound) :
    m.Means (if t.isSigned then sign w else .zero) fun a => decide (A a < 0) := by
  obtain ⟨k, ht, hw'⟩ := hw.exists_succ
  cases hSigned : t.isSigned with
  | true =>
    refine hw'.sign.congr fun a => ?_
    rw [decide_eq_decide]
    exact (hw.fits a).half_le_bits_iff ht hSigned
  | false =>
    refine hs.means_zero.congr fun a => ?_
    have := ((fits_unsigned_iff ht hSigned).mp (hw.fits a)).1
    exact (decide_eq_false (Int.not_lt.mpr this)).symm

theorem fillBit_iff {a : Int} (ha : t.Fits a) (ht : t.width? = some (n + 1)) :
    fillBit (shiftKind .shiftRight t.isSigned) n (t.bits a) = true ↔ a < 0 := by
  cases hSigned : t.isSigned with
  | true => simp [fillBit, shiftKind, ha.half_le_bits_iff ht hSigned]
  | false => simpa [fillBit, shiftKind] using ((fits_unsigned_iff ht hSigned).mp ha).1

/-- The circuit of a shift computes its value. -/
theorem shift_renders {op : Bitwise} (hop : bitConnective? op = none) (hs : m.Sound)
    (hw : Renders m w t A) (hv : Spells m v n Y) :
    Builds m (shift (shiftKind op t.isSigned) w v) fun m' u =>
      Renders m' u t fun a => op.eval t (A a) (Y a) := by
  obtain ⟨k, ht, hw'⟩ := hw.exists_succ
  have hRange : shiftRange t = 2 ^ stages (k + 1) := by
    rw [shiftRange, ht]
    rfl
  refine (shift_builds (shiftKind op t.isSigned) hs hw' hv).mono fun m' u _ hu => ?_
  simp only [← hRange] at hu
  cases op with
  | and | or | xor => cases hop
  | shiftLeft =>
    refine renders_wrap ht hu fun a => ?_
    rw [bits_mul ht, Nat.pow_eq]
    push_cast
    have := bits_natCast ht (2 ^ (Y a % shiftRange t))
    push_cast at this
    rw [this, Nat.mul_mod_mod]
    rfl
  | shiftRight =>
    refine renders_wrap ht hu fun a => ?_
    have hKind : shiftKind .shiftRight t.isSigned ≠ .left := by
      cases t.isSigned <;> decide
    rw [moved_of_ne_left hKind, (hw.fits a).extended_div ht (fillBit_iff (hw.fits a) ht),
      Nat.pow_eq]
    push_cast
    rfl
  | shiftRightZero =>
    refine renders_wrap ht hu fun a => ?_
    rw [bits_natCast ht]
    have hlt : t.bits (A a) / 2 ^ (Y a % shiftRange t) < 2 ^ (k + 1) :=
      Nat.lt_of_le_of_lt (Nat.div_le_self _ _) (bits_lt ht _)
    rw [Nat.pow_eq, Nat.mod_eq_of_lt hlt]
    simp [shiftKind, fillBit, moved, extended]

theorem Renders.resize (hw : Renders m w t A) (hs : m.Sound) (ht' : t'.width? = some n) :
    Renders m (resize (if t.isSigned then sign w else .zero) n w) t' fun a => t'.wrap (A a) :=
  renders_wrap ht' (hw.spells.resize (hw.negative hs) n) fun a =>
    (hw.fits a).extended_mod hw.width ht' (by simp)

end StateSpace.Circuit
