import Mathlib.Tactic.Ring
import StateSpace.Circuit.Word
import StateSpace.Proofs.Diagram.Ite

/-!
# The numbers that words spell

On every assignment the bits of a word spell a number below two to the power of its length. A word
is described by its length and by that number as a function of the assignment (`Spells`); what holds
of a word is then said in numbers, and no circuit is looked into twice. Growing the manager keeps
the number.

This module settles the functions that only rearrange bits: constants, complements, words put behind
each other and cut into pieces, and the bit of the sign.
-/

namespace StateSpace.Circuit

open StateSpace.Diagram Manager

/-! ## Bits as numbers -/

/-- The number that some bits spell, the lowest first. -/
def value : List Bool → Nat
  | [] => 0
  | b :: bs => b.toNat + 2 * value bs

@[simp] theorem value_nil : value [] = 0 := rfl

@[simp] theorem value_cons (b : Bool) (bs : List Bool) :
    value (b :: bs) = b.toNat + 2 * value bs := rfl

theorem value_lt (bs : List Bool) : value bs < 2 ^ bs.length := by
  induction bs with
  | nil => simp
  | cons b bs ih =>
    have hb := b.toNat_lt
    rw [value_cons, List.length_cons, Nat.pow_succ]
    omega

theorem value_append (bs cs : List Bool) :
    value (bs ++ cs) = value bs + 2 ^ bs.length * value cs := by
  induction bs with
  | nil => simp
  | cons b bs ih =>
    rw [List.cons_append, value_cons, ih, value_cons, List.length_cons]
    ring

/-- Dropping low bits divides by a power of two. -/
theorem value_drop (k : Nat) (bs : List Bool) : value (bs.drop k) = value bs / 2 ^ k := by
  induction k generalizing bs with
  | zero => simp
  | succ k ih =>
    cases bs with
    | nil => simp
    | cons b bs =>
      have hb := b.toNat_lt
      rw [List.drop_succ_cons, ih, value_cons, Nat.pow_succ', ← Nat.div_div_eq_div_mul]
      congr 1
      omega

/-- Keeping low bits takes the remainder by a power of two. -/
theorem value_take (k : Nat) (bs : List Bool) : value (bs.take k) = value bs % 2 ^ k := by
  rcases Nat.le_total k bs.length with hk | hk
  · have hLen : (bs.take k).length = k := by simpa using hk
    have hlt := value_lt (bs.take k)
    have hSplit := value_append (bs.take k) (bs.drop k)
    rw [List.take_append_drop, hLen] at hSplit
    rw [hLen] at hlt
    rw [hSplit, Nat.add_mul_mod_self_left, Nat.mod_eq_of_lt hlt]
  · have hPow : 2 ^ bs.length ≤ 2 ^ k := Nat.pow_le_pow_right (by decide) hk
    rw [List.take_of_length_le hk, Nat.mod_eq_of_lt (Nat.lt_of_lt_of_le (value_lt bs) hPow)]

/-- A run of ones is the largest number of its length. -/
theorem value_replicate (k : Nat) (b : Bool) :
    value (List.replicate k b) = if b then 2 ^ k - 1 else 0 := by
  induction k with
  | zero => simp
  | succ k ih =>
    have hPos := Nat.two_pow_pos k
    rw [List.replicate_succ, value_cons, ih, Nat.pow_succ]
    cases b
    · simp
    · simp only [Bool.toNat_true, if_true]
      omega

/-- Complementing all bits subtracts from the largest number. -/
theorem value_map_not (bs : List Bool) :
    value (bs.map fun b => !b) = 2 ^ bs.length - 1 - value bs := by
  induction bs with
  | nil => simp
  | cons b bs ih =>
    have hlt := value_lt bs
    rw [List.map_cons, value_cons, ih, value_cons, List.length_cons, Nat.pow_succ]
    cases b <;> simp <;> omega

/-- Bits are determined by how many they are and what they spell. -/
theorem value_injective {bs cs : List Bool} (hLen : bs.length = cs.length)
    (h : value bs = value cs) : bs = cs := by
  induction bs generalizing cs with
  | nil => exact (List.length_eq_zero_iff.mp hLen.symm).symm
  | cons b bs ih =>
    cases cs with
    | nil => cases hLen
    | cons c cs =>
      rw [value_cons, value_cons] at h
      have hb := b.toNat_lt
      have hc := c.toNat_lt
      have hHead : b = c := by
        rw [Bool.eq_iff_iff, ← Bool.toNat_eq_one, ← Bool.toNat_eq_one]
        omega
      rw [hHead, ih (Nat.succ.inj hLen) (by omega)]

/-- The lowest bits of a number spell its remainder. -/
theorem value_map_testBit (n k : Nat) : value ((List.range k).map n.testBit) = n % 2 ^ k := by
  induction k generalizing n with
  | zero => simp [Nat.mod_one]
  | succ k ih =>
    have hShift : n.testBit ∘ Nat.succ = (n / 2).testBit := by
      funext i
      exact Nat.testBit_succ n i
    rw [List.range_succ_eq_map, List.map_cons, List.map_map, hShift, value_cons, ih,
      Nat.pow_succ', Nat.mod_mul, Nat.testBit_zero]
    have : n % 2 = 0 ∨ n % 2 = 1 := Nat.mod_two_eq_zero_or_one n
    rcases this with h | h <;> simp [h]

/-! ## Words -/

/-- A word of `n` edges of the manager that spells the number `X a` on every assignment `a`. -/
structure Spells (m : Manager) (w : Word) (n : Nat) (X : Assignment → Nat) : Prop where
  length_eq : w.length = n
  holds : ∀ e ∈ w, m.Holds e
  value_eq : ∀ a, value (w.map (m.eval a)) = X a

section Words

variable {m m' : Manager} {w w' : Word} {n k : Nat} {X Y : Assignment → Nat} {e : Edge}
  {F : Assignment → Bool}

theorem Spells.congr (h : Spells m w n X) (hXY : ∀ a, X a = Y a) : Spells m w n Y :=
  ⟨h.length_eq, h.holds, fun a => (h.value_eq a).trans (hXY a)⟩

theorem Spells.grows (h : Spells m w n X) (hg : m.Grows m') : Spells m' w n X := by
  refine ⟨h.length_eq, fun e he => (h.holds e he).extends hg.toExtends, fun a => ?_⟩
  rw [← h.value_eq a]
  congr 1
  refine List.map_congr_left fun e he => ?_
  exact (Holds.means (h.holds e he)).grows hg |>.eval_eq a

theorem Spells.lt (h : Spells m w n X) (a : Assignment) : X a < 2 ^ n := by
  have hlt := value_lt (w.map (m.eval a))
  rwa [h.value_eq, List.length_map, h.length_eq] at hlt

theorem Spells.nil (m : Manager) : Spells m [] 0 fun _ => 0 :=
  ⟨rfl, by simp, fun _ => rfl⟩

theorem Spells.cons (he : m.Means e F) (h : Spells m w n X) :
    Spells m (e :: w) (n + 1) fun a => (F a).toNat + 2 * X a := by
  refine ⟨by rw [List.length_cons, h.length_eq], ?_, fun a => ?_⟩
  · rintro f (_ | ⟨_, hf⟩)
    · exact he.holds
    · exact h.holds f hf
  · rw [List.map_cons, value_cons, he.eval_eq, h.value_eq]

theorem Spells.zero_inv (h : Spells m w 0 X) : w = [] ∧ ∀ a, X a = 0 :=
  ⟨List.length_eq_zero_iff.mp h.length_eq, fun a => Nat.lt_one_iff.mp (h.lt a)⟩

/-- The lowest bit of a word, and the rest of it. -/
theorem Spells.succ_inv (h : Spells m w (n + 1) X) :
    ∃ e v F Y, w = e :: v ∧ m.Means e F ∧ Spells m v n Y ∧
      ∀ a, X a = (F a).toNat + 2 * Y a := by
  obtain ⟨e, v, rfl⟩ := List.exists_cons_of_length_eq_add_one h.length_eq
  have hLen : v.length = n := by simpa using h.length_eq
  have hv : Spells m v n fun a => value (v.map (m.eval a)) :=
    ⟨hLen, fun f hf => h.holds f (List.mem_cons_of_mem _ hf), fun _ => rfl⟩
  refine ⟨e, v, _, _, rfl, (h.holds e List.mem_cons_self).means, hv, fun a => ?_⟩
  rw [← h.value_eq, List.map_cons, value_cons]

theorem Spells.append (h : Spells m w n X) (h' : Spells m w' k Y) :
    Spells m (w ++ w') (n + k) fun a => X a + 2 ^ n * Y a := by
  refine ⟨by rw [List.length_append, h.length_eq, h'.length_eq], fun e he => ?_, fun a => ?_⟩
  · exact (List.mem_append.mp he).elim (h.holds e) (h'.holds e)
  · rw [List.map_append, value_append, List.length_map, h.value_eq, h'.value_eq, h.length_eq]

theorem Spells.take_min (h : Spells m w n X) (k : Nat) :
    Spells m (w.take k) (min k n) fun a => X a % 2 ^ k := by
  refine ⟨by rw [List.length_take, h.length_eq],
    fun e he => h.holds e (List.mem_of_mem_take he), fun a => ?_⟩
  rw [List.map_take, value_take, h.value_eq]

theorem Spells.take (h : Spells m w n X) (hk : k ≤ n) :
    Spells m (w.take k) k fun a => X a % 2 ^ k := by
  have hMin := h.take_min k
  rwa [Nat.min_eq_left hk] at hMin

theorem Spells.drop (h : Spells m w n X) (k : Nat) :
    Spells m (w.drop k) (n - k) fun a => X a / 2 ^ k := by
  refine ⟨by rw [List.length_drop, h.length_eq],
    fun e he => h.holds e (List.mem_of_mem_drop he), fun a => ?_⟩
  rw [List.map_drop, value_drop, h.value_eq]

theorem spells_replicate (he : m.Means e F) (k : Nat) :
    Spells m (List.replicate k e) k fun a => if F a then 2 ^ k - 1 else 0 := by
  refine ⟨List.length_replicate, fun f hf => ?_, fun a => ?_⟩
  · rw [List.eq_of_mem_replicate hf]
    exact he.holds
  · rw [List.map_replicate, value_replicate, he.eval_eq]

theorem spells_single (he : m.Means e F) : Spells m [e] 1 fun a => (F a).toNat :=
  ((Spells.nil m).cons he).congr fun _ => rfl

theorem spells_constant (hs : m.Sound) (c n : Nat) :
    Spells m (constant c n) n fun _ => c % 2 ^ n := by
  refine ⟨by simp [constant], fun e he => ?_, fun a => ?_⟩
  · obtain ⟨i, -, rfl⟩ := List.mem_map.mp he
    exact hs.holds_constant _
  · have hBits : m.eval a ∘ (fun i => Edge.constant (c.testBit i)) = c.testBit := by
      funext i
      exact m.eval_constant a _
    rw [constant, List.map_map, hBits, value_map_testBit]

theorem spells_zero (hs : m.Sound) (n : Nat) : Spells m (constant 0 n) n fun _ => 0 :=
  (spells_constant hs 0 n).congr fun _ => Nat.zero_mod _

theorem Spells.complement (h : Spells m w n X) (hs : m.Sound) :
    Spells m (complement w) n fun a => 2 ^ n - 1 - X a := by
  refine ⟨by rw [Circuit.complement, List.length_map, h.length_eq], fun e he => ?_, fun a => ?_⟩
  · obtain ⟨f, hf, rfl⟩ := List.mem_map.mp he
    exact (h.holds f hf).neg
  · have hBits : (Circuit.complement w).map (m.eval a) = (w.map (m.eval a)).map fun b => !b := by
      rw [Circuit.complement, List.map_map, List.map_map]
      exact List.map_congr_left fun f hf => eval_neg hs.toWellFormed (h.holds f hf) a
    rw [hBits, value_map_not, h.value_eq, List.length_map, h.length_eq]

/-- A word without its highest bit, moved up by one position, is doubled. -/
theorem Spells.double (h : Spells m w n X) (he : m.Means e F) (hn : 0 < n) :
    Spells m (e :: w.dropLast) n fun a => ((F a).toNat + 2 * X a) % 2 ^ n := by
  obtain ⟨n, rfl⟩ : ∃ k, n = k + 1 := ⟨n - 1, by omega⟩
  have hDrop : Spells m w.dropLast n fun a => X a % 2 ^ n := by
    rw [List.dropLast_eq_take, h.length_eq]
    exact h.take (Nat.le_succ n)
  refine (hDrop.cons he).congr fun a => ?_
  have hb := (F a).toNat_lt
  rw [Nat.pow_succ', Nat.mod_mul]
  congr 1
  · omega
  · congr 2
    omega

/-! ## The highest bit -/

/-- The highest bit of a word, and the bits below it. -/
theorem Spells.concat_inv (h : Spells m (w ++ [e]) (n + 1) X) :
    ∃ F Y, Spells m w n Y ∧ m.Means e F ∧ ∀ a, X a = Y a + 2 ^ n * (F a).toNat := by
  have hLen : w.length = n := by simpa using h.length_eq
  have hw : Spells m w n fun a => value (w.map (m.eval a)) :=
    ⟨hLen, fun f hf => h.holds f (List.mem_append_left _ hf), fun _ => rfl⟩
  refine ⟨_, _, hw, (h.holds e (by simp)).means, fun a => ?_⟩
  rw [← h.value_eq, List.map_append, value_append, List.length_map, hLen]
  simp

theorem Spells.eq_concat (h : Spells m w (n + 1) X) : ∃ v e, w = v ++ [e] := by
  have hne : w ≠ [] := by
    rintro rfl
    exact absurd h.length_eq (by simp)
  exact ⟨_, _, (List.dropLast_concat_getLast hne).symm⟩

/-- The sign bit tells whether the number is in the upper half. -/
theorem Spells.sign (h : Spells m w (n + 1) X) :
    m.Means (sign w) fun a => decide (2 ^ n ≤ X a) := by
  obtain ⟨v, e, rfl⟩ := h.eq_concat
  obtain ⟨F, Y, hv, he, hX⟩ := h.concat_inv
  rw [Circuit.sign, List.getLastD_concat]
  refine he.congr fun a => ?_
  have hlt := hv.lt a
  rw [hX]
  cases F a
  · simpa using hlt
  · simp

theorem flipSign_concat (v : Word) (e : Edge) : flipSign (v ++ [e]) = v ++ [-e] := by
  induction v with
  | nil => rfl
  | cons x v ih =>
    obtain ⟨y, u, hyu⟩ : ∃ y u, v ++ [e] = y :: u := List.exists_cons_of_ne_nil (by simp)
    rw [List.cons_append, hyu, flipSign, ← hyu, ih]
    rfl

/-- Exchanges the two halves of the numbers below `2 ^ (n + 1)`. -/
def swapHalves (n x : Nat) : Nat :=
  if 2 ^ n ≤ x then x - 2 ^ n else x + 2 ^ n

/-- Flipping the sign bit swaps the two halves of the range. -/
theorem Spells.flipSign (h : Spells m w (n + 1) X) (hs : m.Sound) :
    Spells m (flipSign w) (n + 1) fun a => swapHalves n (X a) := by
  obtain ⟨v, e, rfl⟩ := h.eq_concat
  obtain ⟨F, Y, hv, he, hX⟩ := h.concat_inv
  rw [flipSign_concat]
  refine (hv.append (spells_single (he.neg hs))).congr fun a => ?_
  have hlt := hv.lt a
  rw [hX, swapHalves]
  cases F a
  · simp [Nat.not_le.mpr hlt]
  · simp

end Words

end StateSpace.Circuit
