import StateSpace.Proofs.Circuit.Arithmetic

/-!
# The division circuit

Restoring division reads the dividend from its highest bit down. While `j` bits spelling `v` are
left, the remainder `r` of the bits read so far stands for the number `r * 2 ^ j + v` that is still
to be divided. Reading a bit turns `r` into `b + 2 * r` and takes the divisor off if it fits, which
is the remainder of `b + 2 * r` by the divisor; the bit of the quotient says whether it fitted.

By zero everything fits and nothing is taken off, so the quotient has all bits set and the remainder
is the dividend: the remainder needs no case of its own, as `x % 0 = x`, and the quotient has one.
Signed division goes by way of the magnitudes.
-/

namespace StateSpace.Circuit

open StateSpace.Diagram Manager

/-! ## Division of numbers, bit by bit -/

/-- The quotient of numbers of `n` bits. -/
def quotient (n x d : Nat) : Nat :=
  if d = 0 then 2 ^ n - 1 else x / d

/-- The remainder is small enough for its double to have a bit to spare: it is below the divisor, or
the divisor is zero and the dividend is still in range. -/
def Bounded (n d r j v : Nat) : Prop :=
  if d = 0 then r * 2 ^ j + v < 2 ^ n else r < d

section Step

variable {n d r j v : Nat}

theorem Bounded.lt (h : Bounded n d r j v) (hd : d < 2 ^ n) : r < 2 ^ n := by
  unfold Bounded at h
  split at h
  · have : r * 1 ≤ r * 2 ^ j := Nat.mul_le_mul_left r (Nat.one_le_two_pow)
    omega
  · omega

/-- With no bits left the remainder is final. -/
theorem Bounded.done (h : Bounded n d r 0 v) : quotient 0 r d = 0 ∧ r % d = r := by
  unfold Bounded at h
  unfold quotient
  split at h
  · next hd => simp [hd]
  · next hd => simp [hd, Nat.div_eq_of_lt h, Nat.mod_eq_of_lt h]

/-- What is left to divide after reading a bit. -/
theorem read_bit (b : Bool) :
    r * 2 ^ (j + 1) + (v + 2 ^ j * b.toNat) = (b.toNat + 2 * r) * 2 ^ j + v := by
  ring

theorem Bounded.lt_double {b : Bool} (h : Bounded n d r (j + 1) v) (hd : d ≠ 0) :
    b.toNat + 2 * r < 2 * d := by
  rw [Bounded, if_neg hd] at h
  have := b.toNat_lt
  omega

/-- Taking the divisor off where it fits leaves the remainder. -/
theorem restore_eq_mod {s : Nat} (hs : s < 2 ^ (n + 1)) (hlt : d ≠ 0 → s < 2 * d) :
    (if !decide (s < d) then (s + (2 ^ (n + 1) - d)) % 2 ^ (n + 1) else s) = s % d := by
  by_cases hFit : s < d
  · simp [hFit, Nat.mod_eq_of_lt]
  · have hSub : s + (2 ^ (n + 1) - d) = s - d + 2 ^ (n + 1) := by omega
    rw [if_pos (by simpa using hFit), hSub, Nat.add_mod_right,
      Nat.mod_eq_of_lt (by omega : s - d < 2 ^ (n + 1))]
    rcases Nat.eq_zero_or_pos d with rfl | hPos
    · simp
    · rw [Nat.mod_eq_sub_mod (Nat.not_lt.mp hFit), Nat.mod_eq_of_lt]
      have := hlt (by omega)
      omega

/-- A division step keeps the remainder below the divisor. -/
theorem Bounded.next {b : Bool} (h : Bounded n d r (j + 1) (v + 2 ^ j * b.toNat)) :
    Bounded n d ((b.toNat + 2 * r) % d) j v := by
  unfold Bounded at h ⊢
  split
  · next hd =>
    rw [if_pos hd, read_bit] at h
    rwa [hd, Nat.mod_zero]
  · next hd => exact Nat.mod_lt _ (Nat.pos_of_ne_zero hd)

/-- The highest bit of the quotient says whether the divisor fits. -/
theorem quotient_succ {s : Nat} (hlt : d ≠ 0 → s < 2 * d) :
    quotient (j + 1) (s * 2 ^ j + v) d =
      2 ^ j * (!decide (s < d)).toNat + quotient j (s % d * 2 ^ j + v) d := by
  unfold quotient
  split
  · next hd =>
    have := Nat.one_le_two_pow (n := j)
    simp [hd, Nat.pow_succ]
    omega
  · next hd =>
    have hPos := Nat.pos_of_ne_zero hd
    have hs : s / d = (!decide (s < d)).toNat := by
      by_cases hFit : s < d
      · simp [hFit, Nat.div_eq_of_lt]
      · have hOne : s / d = 1 := Nat.div_eq_of_lt_le (by omega) (by have := hlt hd; omega)
        simp [hFit, hOne]
    have hSplit : s * 2 ^ j + v = s % d * 2 ^ j + v + d * (2 ^ j * (s / d)) := by
      conv_lhs => rw [← Nat.mod_add_div s d]
      ring
    rw [hSplit, Nat.add_mul_div_left _ _ hPos, ← hs, Nat.add_comm]

theorem mod_mul_add_mod (s d p v : Nat) : (s % d * p + v) % d = (s * p + v) % d :=
  ((Nat.mod_modEq s d).mul_right p).add_right v

end Step

/-! ## The unsigned circuit -/

variable {m : Manager} {w v : Word} {n j k : Nat} {X Y : Assignment → Nat}

/-- Restoring division: each step takes one more bit of the dividend into the remainder. -/
theorem divideFrom_builds {divisor bits q r : Word} {D V Q R : Assignment → Nat} (hs : m.Sound)
    (hd : Spells m divisor (n + 1) D) (hD : ∀ a, D a < 2 ^ n) (hb : Spells m bits.reverse j V)
    (hq : Spells m q k Q) (hr : Spells m r (n + 1) R)
    (hR : ∀ a, Bounded n (D a) (R a) j (V a)) :
    Builds m (divideFrom divisor bits q r) fun m' p =>
      Spells m' p.1 (k + j) (fun a => 2 ^ j * Q a + quotient j (R a * 2 ^ j + V a) (D a)) ∧
      Spells m' p.2 (n + 1) (fun a => (R a * 2 ^ j + V a) % D a) := by
  induction bits generalizing m q r j k V Q R with
  | nil =>
    obtain rfl : 0 = j := hb.length_eq
    obtain ⟨-, hV⟩ := hb.zero_inv
    refine .pure hs ⟨hq.congr fun a => ?_, hr.congr fun a => ?_⟩
    · simp [hV, (hR a).done]
    · simp [hV, (hR a).done]
  | cons bit bits ih =>
    obtain ⟨j, rfl⟩ : ∃ i, j = i + 1 := ⟨bits.length, by simpa using hb.length_eq.symm⟩
    rw [List.reverse_cons] at hb
    obtain ⟨B, V', hb', hBit, hV⟩ := hb.concat_inv
    -- the shifted remainder fits, so the bit that falls off is zero
    have hlt : ∀ a, (B a).toNat + 2 * R a < 2 ^ (n + 1) := fun a => by
      have := (hR a).lt (hD a)
      have := (B a).toNat_lt
      rw [Nat.pow_succ]
      omega
    have hShift : Spells m (bit :: r.dropLast) (n + 1) fun a => (B a).toNat + 2 * R a :=
      (hr.double hBit (Nat.succ_pos n)).congr fun a => Nat.mod_eq_of_lt (hlt a)
    rw [divideFrom]
    refine (lessThan_builds_unsigned hs hShift hd).bind fun m₁ less hg₁ hLess => ?_
    refine (sub_builds hg₁.new (hShift.grows hg₁) (hd.grows hg₁)).bind
      fun m₂ difference hg₂ hDiff => ?_
    have hg := hg₁.trans hg₂
    have hFits := (hLess.neg hg₁.new).grows hg₂
    refine (select_builds hg.new hFits hDiff (hShift.grows hg)).bind fun m₃ rest hg₃ hRest => ?_
    have hg := hg.trans hg₃
    -- subtracting the divisor once is enough
    have hDouble : ∀ a, D a ≠ 0 → (B a).toNat + 2 * R a < 2 * D a := fun a => (hR a).lt_double
    have hRest : Spells m₃ rest (n + 1) fun a => ((B a).toNat + 2 * R a) % D a :=
      hRest.congr fun a => restore_eq_mod (hlt a) (hDouble a)
    have hNext : ∀ a, Bounded n (D a) (((B a).toNat + 2 * R a) % D a) j (V' a) :=
      fun a => (hV a ▸ hR a).next
    refine (ih hg.new (hd.grows hg) (hb'.grows hg) ((hq.grows hg).cons (hFits.grows hg₃)) hRest
      hNext).mono fun m' p _ hp => ?_
    refine ⟨?_, ?_⟩
    · rw [show k + (j + 1) = k + 1 + j by omega]
      refine hp.1.congr fun a => ?_
      rw [hV, read_bit, quotient_succ (hDouble a)]
      ring
    · refine hp.2.congr fun a => ?_
      rw [hV, read_bit, mod_mul_add_mod]

/-- Unsigned division gives quotient and remainder. -/
theorem divideUnsigned_builds (hs : m.Sound) (hw : Spells m w n X) (hv : Spells m v n Y) :
    Builds m (divideUnsigned w v) fun m' p =>
      Spells m' p.1 n (fun a => quotient n (X a) (Y a)) ∧
      Spells m' p.2 n (fun a => X a % Y a) := by
  rw [divideUnsigned, hw.length_eq]
  have hd : Spells m (v ++ [.zero]) (n + 1) Y :=
    (hv.append (spells_single hs.means_zero)).congr fun a => by simp
  have hb : Spells m w.reverse.reverse n X := by rwa [List.reverse_reverse]
  have hR : ∀ a, Bounded n (Y a) 0 n (X a) := fun a => by
    unfold Bounded
    split
    · simpa using hw.lt a
    · omega
  refine (divideFrom_builds hs hd hv.lt hb (Spells.nil m) (spells_zero hs (n + 1)) hR).bind_pure
    fun m' p _ hp => ⟨?_, ?_⟩
  · rw [← Nat.zero_add n]
    exact hp.1.congr fun a => by simp
  · refine (hp.2.take (Nat.le_succ n)).congr fun a => ?_
    have hlt : X a % Y a < 2 ^ n := Nat.lt_of_le_of_lt (Nat.mod_le _ _) (hw.lt a)
    rw [Nat.zero_mul, Nat.zero_add, Nat.mod_eq_of_lt hlt]

/-! ## The signed circuit -/

/-- The number of `n` bits with its sign changed. -/
def negated (n x : Nat) : Nat :=
  (2 ^ n - x) % 2 ^ n

/-- The magnitude of a signed number of `n + 1` bits. -/
def magnitude (n x : Nat) : Nat :=
  if decide (2 ^ n ≤ x) then negated (n + 1) x else x

/-- The quotient of signed numbers of `n + 1` bits. -/
def signedQuotient (n x y : Nat) : Nat :=
  let q := quotient (n + 1) (magnitude n x) (magnitude n y)
  if decide (2 ^ n ≤ x) ^^ decide (2 ^ n ≤ y) then negated (n + 1) q else q

/-- The remainder of signed numbers of `n + 1` bits. -/
def signedRemainder (n x y : Nat) : Nat :=
  let r := magnitude n x % magnitude n y
  if decide (2 ^ n ≤ x) then negated (n + 1) r else r

/-- A word negated where a function is true. -/
theorem selectNegated_builds {β : Type} {e : Edge} {F : Assignment → Bool} {next : Word → Build β}
    {Q : Manager → β → Prop} (hs : m.Sound) (he : m.Means e F) (hw : Spells m w n X)
    (hNext : ∀ m' u, m.Grows m' →
      Spells m' u n (fun a => if F a then negated n (X a) else X a) → Builds m' (next u) Q) :
    Builds m (negate w >>= fun u => select e u w >>= next) Q := by
  refine (negate_builds hs hw).bind fun m₁ u hg hu => ?_
  refine (select_builds hg.new (he.grows hg) hu (hw.grows hg)).bind fun m₂ u' hg' hu' => ?_
  exact hNext m₂ u' (hg.trans hg') hu'

/-- Signed division divides the magnitudes and restores the signs. -/
theorem divideSigned_builds (hs : m.Sound) (hw : Spells m w (n + 1) X)
    (hv : Spells m v (n + 1) Y) :
    Builds m (divideSigned w v) fun m' p =>
      Spells m' p.1 (n + 1) (fun a => signedQuotient n (X a) (Y a)) ∧
      Spells m' p.2 (n + 1) (fun a => signedRemainder n (X a) (Y a)) := by
  rw [divideSigned]
  refine selectNegated_builds hs hw.sign hw fun m₁ magW hg₁ hMagW => ?_
  refine selectNegated_builds hg₁.new (hv.sign.grows hg₁) (hv.grows hg₁) fun m₂ magV hg₂ hMagV => ?_
  refine (divideUnsigned_builds hg₂.new (hMagW.grows hg₂) hMagV).bind fun m₃ (q, r) hg₃ hp => ?_
  obtain ⟨hq, hr⟩ := hp
  have hg := (hg₁.trans hg₂).trans hg₃
  refine (xor_builds hg.new (hw.sign.grows hg) (hv.sign.grows hg)).bind
    fun m₄ differ hg₄ hDiffer => ?_
  refine selectNegated_builds hg₄.new hDiffer (hq.grows hg₄) fun m₅ q' hg₅ hq' => ?_
  have hg := (hg.trans hg₄).trans hg₅
  refine selectNegated_builds hg.new (hw.sign.grows hg) (hr.grows (hg₄.trans hg₅))
    fun m₆ r' hg₆ hr' => ?_
  exact .pure hg₆.new ⟨hq'.grows hg₆, hr'⟩

end StateSpace.Circuit
