import StateSpace.Proofs.Circuit.Arithmetic

/-!
# The shift circuit and changes of width

A barrel shifter moves a word by `2 ^ k` positions where the `k`-th bit of the amount is set. Moves
add up (`moved_add`), so the stages together move by the number that the bits of the amount spell.
A move to the right of a word whose sign bit fills up the places that become free is a division of
the word with that many more copies of the sign bit on top.
-/

namespace StateSpace.Circuit

open StateSpace.Diagram Manager

/-! ## Moves of numbers -/

/-- The number with `k` copies of a bit on top of its `n` bits. -/
def extended (n : Nat) (b : Bool) (k x : Nat) : Nat :=
  x + 2 ^ n * if b then 2 ^ k - 1 else 0

/-- A number of `n` bits moved by some positions. A move to the right fills up with `b`. -/
def moved (kind : Shift) (n : Nat) (b : Bool) (steps x : Nat) : Nat :=
  match kind with
  | .left => x * 2 ^ steps % 2 ^ n
  | _ => extended n b steps x / 2 ^ steps

theorem moved_of_ne_left {kind : Shift} (h : kind ≠ .left) (n : Nat) (b : Bool) (steps x : Nat) :
    moved kind n b steps x = extended n b steps x / 2 ^ steps := by
  cases kind with
  | left => exact absurd rfl h
  | logical | arithmetic => rfl

theorem moved_zero (kind : Shift) {n x : Nat} (b : Bool) (hx : x < 2 ^ n) :
    moved kind n b 0 x = x := by
  cases kind <;> simp [moved, extended, Nat.mod_eq_of_lt hx]

/-- The bits that come in while a number is moved come in in pieces. -/
theorem extended_add (n : Nat) (b : Bool) (s t x : Nat) :
    extended n b (s + t) x = extended n b s x + 2 ^ s * (2 ^ n * if b then 2 ^ t - 1 else 0) := by
  cases b
  · simp [extended]
  · have hs := Nat.one_le_two_pow (n := s)
    have ht := Nat.one_le_two_pow (n := t)
    have hSum : 2 ^ (s + t) - 1 = 2 ^ s - 1 + 2 ^ s * (2 ^ t - 1) := by
      rw [Nat.mul_sub, ← Nat.pow_add, Nat.mul_one]
      have : 2 ^ s ≤ 2 ^ (s + t) := Nat.pow_le_pow_right (by decide) (Nat.le_add_right s t)
      omega
    simp only [extended, if_true, hSum]
    ring

/-- Moving in two goes is moving by the sum. -/
theorem moved_add (kind : Shift) (n : Nat) (b : Bool) (s t x : Nat) :
    moved kind n b (s + t) x = moved kind n b t (moved kind n b s x) := by
  have hRight : extended n b (s + t) x / 2 ^ (s + t) =
      extended n b t (extended n b s x / 2 ^ s) / 2 ^ t := by
    rw [extended_add, Nat.pow_add, ← Nat.div_div_eq_div_mul,
      Nat.add_mul_div_left _ _ (Nat.two_pow_pos s)]
    rfl
  cases kind with
  | left =>
    have := (Nat.mod_modEq (x * 2 ^ s) (2 ^ n)).mul_right (2 ^ t)
    simp only [moved]
    rw [this, Nat.pow_add, Nat.mul_assoc]
  | logical => exact hRight
  | arithmetic => exact hRight

/-! ## Moves of words -/

variable {m : Manager} {w v : Word} {n j : Nat} {X Y : Assignment → Nat} {fill : Edge}
  {F : Assignment → Bool}

theorem Spells.extend (h : Spells m w n X) (hf : m.Means fill F) (k : Nat) :
    Spells m (w ++ List.replicate k fill) (n + k) fun a => extended n (F a) k (X a) :=
  h.append (spells_replicate hf k)

/-- Cutting off the moved word is dropping from the extended one. -/
theorem take_drop_append_replicate {α : Type} (xs : List α) (k : Nat) (x : α) :
    (xs.drop k ++ List.replicate k x).take xs.length = (xs ++ List.replicate k x).drop k := by
  rcases Nat.le_total k xs.length with hk | hk
  · rw [List.drop_append_of_le_length hk, List.take_of_length_le]
    simp only [List.length_append, List.length_drop, List.length_replicate]
    omega
  · -- everything has been moved out
    rw [List.drop_append, List.drop_eq_nil_of_le hk, List.nil_append, List.nil_append,
      List.take_replicate, List.drop_replicate]
    congr 1
    omega

/-- Moving the bits of a word moves its number. -/
theorem Spells.moveBy (kind : Shift) (h : Spells m w n X) (hf : m.Means fill F)
    (hLeft : kind = .left → ∀ a, F a = false) (steps : Nat) :
    Spells m (moveBy kind fill steps w) n fun a => moved kind n (F a) steps (X a) := by
  have hRight : Spells m ((w.drop steps ++ List.replicate steps fill).take w.length) n fun a =>
      extended n (F a) steps (X a) / 2 ^ steps := by
    have := (h.extend hf steps).drop steps
    rwa [← take_drop_append_replicate, Nat.add_sub_cancel] at this
  cases kind with
  | left =>
    have := ((spells_replicate hf steps).append h).take (Nat.le_add_left n steps)
    rw [Circuit.moveBy, h.length_eq]
    refine this.congr fun a => ?_
    simp [moved, hLeft rfl a, Nat.mul_comm]
  | logical => exact hRight
  | arithmetic => exact hRight

/-- The barrel shifter: stage `k` moves by `2 ^ k` if bit `k` of the distance is set. -/
theorem shiftFrom_builds (kind : Shift) (k : Nat) (hs : m.Sound) (hw : Spells m w n X)
    (hf : m.Means fill F) (hLeft : kind = .left → ∀ a, F a = false) (hv : Spells m v j Y) :
    Builds m (shiftFrom kind fill k w v) fun m' u =>
      Spells m' u n fun a => moved kind n (F a) (2 ^ k * Y a) (X a) := by
  induction j generalizing m w v k X Y with
  | zero =>
    obtain ⟨rfl, hY⟩ := hv.zero_inv
    refine .pure hs (hw.congr fun a => ?_)
    rw [hY, Nat.mul_zero, moved_zero kind _ (hw.lt a)]
  | succ j ih =>
    obtain ⟨bit, v, B, Y', rfl, hBit, hv, hY⟩ := hv.succ_inv
    rw [shiftFrom]
    refine (select_builds hs hBit (hw.moveBy kind hf hLeft _) hw).bind fun m₁ u hg hu => ?_
    refine (ih (k + 1) hg.new hu (hf.grows hg) (hv.grows hg)).mono fun m' u' _ hu' => ?_
    refine hu'.congr fun a => ?_
    have hSteps : 2 ^ k * Y a = 2 ^ k * (B a).toNat + 2 ^ (k + 1) * Y' a := by
      rw [hY]
      ring
    rw [hSteps, moved_add]
    cases B a
    · simp [moved_zero kind _ (hw.lt a)]
    · simp

/-- Whether a shift fills up with ones: only an arithmetic shift of a negative number does. -/
def fillBit (kind : Shift) (n x : Nat) : Bool :=
  decide (kind = .arithmetic) && decide (2 ^ n ≤ x)

/-- A shift moves by the low bits of the distance, one for each stage. -/
theorem shift_builds (kind : Shift) (hs : m.Sound) (hw : Spells m w (n + 1) X)
    (hv : Spells m v j Y) :
    Builds m (shift kind w v) fun m' u => Spells m' u (n + 1) fun a =>
      moved kind (n + 1) (fillBit kind n (X a)) (Y a % 2 ^ stages (n + 1)) (X a) := by
  have hf : m.Means (if kind = .arithmetic then sign w else .zero) fun a =>
      fillBit kind n (X a) := by
    split
    · next hk => exact hw.sign.congr fun a => by simp [fillBit, hk]
    · next hk => exact hs.means_zero.congr fun a => by simp [fillBit, hk]
  have hLeft : kind = .left → ∀ a, fillBit kind n (X a) = false := by
    rintro rfl a
    rfl
  rw [shift, hw.length_eq]
  refine (shiftFrom_builds kind 0 hs hw hf hLeft (hv.take_min _)).mono fun m' u _ hu => ?_
  exact hu.congr fun a => by rw [Nat.pow_zero, Nat.one_mul]

theorem Spells.resize (h : Spells m w n X) (hf : m.Means fill F) (k : Nat) :
    Spells m (resize fill k w) k fun a => extended n (F a) (k - n) (X a) % 2 ^ k := by
  rw [Circuit.resize, h.length_eq]
  exact (h.extend hf (k - n)).take (by omega)

end StateSpace.Circuit
