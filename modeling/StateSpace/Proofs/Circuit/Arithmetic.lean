import Mathlib.Data.Nat.Bitwise
import Mathlib.Data.Nat.ModEq
import StateSpace.Proofs.Circuit.Spelling

/-!
# Circuits of comparison, sums and products

Each circuit is described by the number its result spells, as a function of the numbers that its
operands spell. The circuits run from the lowest bit to the highest, and so do the proofs, by
induction on the number of bits: a word that is not empty is a bit and a word, and spells
`b + 2 * x`.

* `zipBits_builds`: every operation on numbers that works bit by bit (`Digitwise`);
* `equal_builds`, `lessThan_builds_unsigned`, `lessThan_builds_signed`: equality and order; the
  signed order is the order of the numbers with the halves of their range exchanged;
* `add_builds`, `sub_builds`, `negate_builds`, `mul_builds`: arithmetic modulo `2 ^ n`.
-/

namespace StateSpace.Circuit

open StateSpace.Diagram Manager

variable {m : Manager} {w v : Word} {n k : Nat} {X Y : Assignment → Nat} {e : Edge}
  {F : Assignment → Bool}

/-! ## Bit by bit -/

/-- An operation on numbers that applies an operation on truth values to each pair of bits. -/
structure Digitwise (op : Bool → Bool → Bool) (N : Nat → Nat → Nat) : Prop where
  zero : N 0 0 = 0
  cons : ∀ b c x y, N (b.toNat + 2 * x) (c.toNat + 2 * y) = (op b c).toNat + 2 * N x y

theorem digitwise_land : Digitwise (fun b c => b && c) (· &&& ·) :=
  ⟨rfl, fun b c x y => by simpa [Nat.bit_val, Nat.add_comm] using Nat.land_bit b x c y⟩

theorem digitwise_lor : Digitwise (fun b c => b || c) (· ||| ·) :=
  ⟨rfl, fun b c x y => by simpa [Nat.bit_val, Nat.add_comm] using Nat.lor_bit b x c y⟩

theorem digitwise_xor : Digitwise (fun b c => b ^^ c) (· ^^^ ·) :=
  ⟨rfl, fun b c x y => by simpa [Nat.bit_val, Nat.add_comm] using Nat.xor_bit b x c y⟩

/-- Choosing one of two numbers chooses each of their bits. -/
theorem digitwise_ite (c : Bool) :
    Digitwise (fun b b' => if c then b else b') (fun x y => if c then x else y) := by
  refine ⟨ite_self 0, fun b b' x y => ?_⟩
  cases c <;> rfl

/-- In `m` and in what it grows into, a step connects two functions by an operation on truth values,
which may depend on the assignment. -/
def Connects (m : Manager) (connect : Edge → Edge → Build Edge)
    (op : Assignment → Bool → Bool → Bool) : Prop :=
  ∀ {m' : Manager} {x y : Edge} {F G : Assignment → Bool}, m.Grows m' → m'.Means x F →
    m'.Means y G → Builds m' (connect x y) fun m'' e => m''.Means e fun a => op a (F a) (G a)

theorem Connects.grows {m' : Manager} {connect : Edge → Edge → Build Edge}
    {op : Assignment → Bool → Bool → Bool} (h : Connects m connect op) (hg : m.Grows m') :
    Connects m' connect op :=
  fun hg' hx hy => h (hg.trans hg') hx hy

/-- A connective bit by bit spells the operation on numbers that works digit by digit. -/
theorem zipBits_builds {connect : Edge → Edge → Build Edge} {op : Assignment → Bool → Bool → Bool}
    {N : Assignment → Nat → Nat → Nat} (hs : m.Sound) (hc : Connects m connect op)
    (hN : ∀ a, Digitwise (op a) (N a)) (hw : Spells m w n X) (hv : Spells m v n Y) :
    Builds m (zipBits connect w v) fun m' u => Spells m' u n fun a => N a (X a) (Y a) := by
  induction n generalizing m w v X Y with
  | zero =>
    obtain ⟨rfl, hX⟩ := hw.zero_inv
    obtain ⟨rfl, hY⟩ := hv.zero_inv
    refine .pure hs ((Spells.nil m).congr fun a => ?_)
    rw [hX, hY, (hN a).zero]
  | succ n ih =>
    obtain ⟨x, w, F, X', rfl, hx, hw, hX⟩ := hw.succ_inv
    obtain ⟨y, v, G, Y', rfl, hy, hv, hY⟩ := hv.succ_inv
    rw [zipBits]
    refine (hc (.refl hs) hx hy).bind fun m₁ e hg he => ?_
    refine (ih hg.new (hc.grows hg) (hw.grows hg) (hv.grows hg)).bind_pure fun m₂ u hg' hu => ?_
    refine (hu.cons (he.grows hg')).congr fun a => ?_
    rw [hX, hY, (hN a).cons]

theorem select_builds (hs : m.Sound) (he : m.Means e F) (hw : Spells m w n X)
    (hv : Spells m v n Y) :
    Builds m (select e w v) fun m' u => Spells m' u n fun a => if F a then X a else Y a :=
  have hc : Connects m (ite e) fun a b b' => if F a then b else b' :=
    fun hg hx hy => ite_builds hg.new (he.grows hg) hx hy
  zipBits_builds hs hc (fun a => digitwise_ite (F a)) hw hv

/-! ## Comparison -/

/-- Comparing the remaining bits decides whether the two numbers are equal. -/
theorem equalFrom_builds (hs : m.Sound) (he : m.Means e F) (hw : Spells m w n X)
    (hv : Spells m v n Y) :
    Builds m (equalFrom e w v) fun m' f => m'.Means f fun a => F a && decide (X a = Y a) := by
  induction n generalizing m w v X Y e F with
  | zero =>
    obtain ⟨rfl, hX⟩ := hw.zero_inv
    obtain ⟨rfl, hY⟩ := hv.zero_inv
    refine .pure hs (he.congr fun a => ?_)
    simp [hX, hY]
  | succ n ih =>
    obtain ⟨x, w, G, X', rfl, hx, hw, hX⟩ := hw.succ_inv
    obtain ⟨y, v, H, Y', rfl, hy, hv, hY⟩ := hv.succ_inv
    rw [equalFrom]
    refine (iff_builds hs hx hy).bind fun m₁ same hg hSame => ?_
    refine (and_builds hg.new (he.grows hg) hSame).bind fun m₂ acc hg' hAcc => ?_
    have hg := hg.trans hg'
    refine (ih hg.new hAcc (hw.grows hg) (hv.grows hg)).mono fun m' f _ hf => ?_
    refine hf.congr fun a => ?_
    rw [hX, hY, Bool.and_assoc]
    congr 1
    -- the lowest bits are equal and the rests are
    cases G a <;> cases H a <;> simp <;> omega

theorem equal_builds (hs : m.Sound) (hw : Spells m w n X) (hv : Spells m v n Y) :
    Builds m (equal w v) fun m' f => m'.Means f fun a => decide (X a = Y a) :=
  (equalFrom_builds hs hs.means_one hw hv).mono fun _ _ _ hf => hf.congr fun _ => Bool.true_and _

/-- The order of two words, where `e` is the order of the bits before. -/
theorem lessFrom_builds (hs : m.Sound) (he : m.Means e F) (hw : Spells m w n X)
    (hv : Spells m v n Y) :
    Builds m (lessFrom e w v) fun m' f =>
      m'.Means f fun a => decide (X a < Y a) || decide (X a = Y a) && F a := by
  induction n generalizing m w v X Y e F with
  | zero =>
    obtain ⟨rfl, hX⟩ := hw.zero_inv
    obtain ⟨rfl, hY⟩ := hv.zero_inv
    refine .pure hs (he.congr fun a => ?_)
    simp [hX, hY]
  | succ n ih =>
    obtain ⟨x, w, G, X', rfl, hx, hw, hX⟩ := hw.succ_inv
    obtain ⟨y, v, H, Y', rfl, hy, hv, hY⟩ := hv.succ_inv
    rw [lessFrom]
    refine (and_builds hs (hx.neg hs) hy).bind fun m₁ strictly hg₁ hStrictly => ?_
    refine (iff_builds hg₁.new (hx.grows hg₁) (hy.grows hg₁)).bind fun m₂ same hg₂ hSame => ?_
    have hg := hg₁.trans hg₂
    refine (and_builds hg.new hSame (he.grows hg)).bind fun m₃ kept hg₃ hKept => ?_
    refine (or_builds hg₃.new (hStrictly.grows (hg₂.trans hg₃)) hKept).bind
      fun m₄ less hg₄ hLess => ?_
    have hg := (hg.trans hg₃).trans hg₄
    refine (ih hg.new hLess (hw.grows hg) (hv.grows hg)).mono fun m' f _ hf => ?_
    refine hf.congr fun a => ?_
    rw [hX, hY, Bool.eq_iff_iff]
    cases G a <;> cases H a <;> cases F a <;> simp <;> omega

theorem lessThan_builds_unsigned (hs : m.Sound) (hw : Spells m w n X) (hv : Spells m v n Y) :
    Builds m (lessThan false w v) fun m' f => m'.Means f fun a => decide (X a < Y a) :=
  (lessFrom_builds hs hs.means_zero hw hv).mono fun _ _ _ hf => hf.congr fun a => by simp

theorem lessThan_builds_signed (hs : m.Sound) (hw : Spells m w (n + 1) X)
    (hv : Spells m v (n + 1) Y) :
    Builds m (lessThan true w v) fun m' f =>
      m'.Means f fun a => decide (swapHalves n (X a) < swapHalves n (Y a)) :=
  (lessFrom_builds hs hs.means_zero (hw.flipSign hs) (hv.flipSign hs)).mono
    fun _ _ _ hf => hf.congr fun a => by simp

/-! ## Sums and products -/

/-- The sum and the carry of three bits spell the number of those that are true. -/
theorem fullAdder_builds {x y z : Edge} {F G H : Assignment → Bool} (hs : m.Sound)
    (hx : m.Means x F) (hy : m.Means y G) (hz : m.Means z H) :
    Builds m (fullAdder x y z) fun m' r => ∃ S C, m'.Means r.1 S ∧ m'.Means r.2 C ∧
      ∀ a, (S a).toNat + 2 * (C a).toNat = (F a).toNat + (G a).toNat + (H a).toNat := by
  rw [fullAdder]
  refine (xor_builds hs hx hy).bind fun m₁ half hg₁ hHalf => ?_
  refine (xor_builds hg₁.new hHalf (hz.grows hg₁)).bind fun m₂ sum hg₂ hSum => ?_
  have hg := hg₁.trans hg₂
  refine (and_builds hg.new (hx.grows hg) (hy.grows hg)).bind fun m₃ both hg₃ hBoth => ?_
  have hg := hg.trans hg₃
  refine (xor_builds hg.new (hx.grows hg) (hy.grows hg)).bind fun m₄ half' hg₄ hHalf' => ?_
  have hg := hg.trans hg₄
  refine (and_builds hg.new (hz.grows hg) hHalf').bind fun m₅ passed hg₅ hPassed => ?_
  refine (or_builds hg₅.new (hBoth.grows (hg₄.trans hg₅)) hPassed).bind_pure
    fun m₆ carry hg₆ hCarry => ?_
  refine ⟨_, _, hSum.grows (((hg₃.trans hg₄).trans hg₅).trans hg₆), hCarry, fun a => ?_⟩
  cases F a <;> cases G a <;> cases H a <;> rfl

/-- Ripple-carry addition adds modulo the width. -/
theorem add_builds (hs : m.Sound) (hw : Spells m w n X) (hv : Spells m v n Y) (he : m.Means e F) :
    Builds m (add w v e) fun m' u => Spells m' u n fun a => (X a + Y a + (F a).toNat) % 2 ^ n := by
  induction n generalizing m w v X Y e F with
  | zero =>
    obtain ⟨rfl, -⟩ := hw.zero_inv
    obtain ⟨rfl, -⟩ := hv.zero_inv
    exact .pure hs ((Spells.nil m).congr fun a => (Nat.mod_one _).symm)
  | succ n ih =>
    obtain ⟨x, w, G, X', rfl, hx, hw, hX⟩ := hw.succ_inv
    obtain ⟨y, v, H, Y', rfl, hy, hv, hY⟩ := hv.succ_inv
    rw [add]
    refine (fullAdder_builds hs hx hy he).bind fun m₁ (sum, carry) hg hr => ?_
    obtain ⟨S, C, hSum, hCarry, hBits⟩ := hr
    refine (ih hg.new (hw.grows hg) (hv.grows hg) hCarry).bind_pure fun m₂ u hg' hu => ?_
    refine (hu.cons (hSum.grows hg')).congr fun a => ?_
    have hb := (S a).toNat_lt
    have hSum : X a + Y a + (F a).toNat = (S a).toNat + 2 * (X' a + Y' a + (C a).toNat) := by
      have := hBits a
      rw [hX, hY]
      omega
    rw [hSum, Nat.pow_succ', Nat.mod_mul, Nat.add_mul_mod_self_left,
      Nat.add_mul_div_left _ _ (by decide), Nat.mod_eq_of_lt hb, Nat.div_eq_of_lt hb, Nat.zero_add]

theorem sub_builds (hs : m.Sound) (hw : Spells m w n X) (hv : Spells m v n Y) :
    Builds m (sub w v) fun m' u => Spells m' u n fun a => (X a + (2 ^ n - Y a)) % 2 ^ n := by
  refine (add_builds hs hw (hv.complement hs) hs.means_one).mono fun m' u _ hu => ?_
  refine hu.congr fun a => ?_
  have hlt := hv.lt a
  congr 1
  rw [Bool.toNat_true]
  omega

theorem negate_builds (hs : m.Sound) (hw : Spells m w n X) :
    Builds m (negate w) fun m' u => Spells m' u n fun a => (2 ^ n - X a) % 2 ^ n := by
  rw [negate, hw.length_eq]
  refine (sub_builds hs (spells_zero hs n) hw).mono fun m' u _ hu => ?_
  exact hu.congr fun a => by rw [Nat.zero_add]

/-- A word where a function is true, zero elsewhere. -/
theorem mapM_and_builds (hs : m.Sound) (hw : Spells m w n X) (he : m.Means e F) :
    Builds m (w.mapM fun x => and x e) fun m' u =>
      Spells m' u n fun a => if F a then X a else 0 := by
  induction n generalizing m w X with
  | zero =>
    obtain ⟨rfl, hX⟩ := hw.zero_inv
    refine .pure hs ((Spells.nil m).congr fun a => ?_)
    rw [hX, ite_self]
  | succ n ih =>
    obtain ⟨x, w, G, X', rfl, hx, hw, hX⟩ := hw.succ_inv
    rw [List.mapM_cons]
    refine (and_builds hs hx he).bind fun m₁ b hg hb => ?_
    refine (ih hg.new (hw.grows hg) (he.grows hg)).bind_pure fun m₂ u hg' hu => ?_
    refine (hu.cons (hb.grows hg')).congr fun a => ?_
    rw [hX]
    cases F a <;> simp

/-- Shift-and-add multiplication; the accumulator carries what is summed so far. -/
theorem mulFrom_builds {acc : Word} {A : Assignment → Nat} (hs : m.Sound) (hn : 0 < n)
    (hAcc : Spells m acc n A) (hw : Spells m w n X) (hv : Spells m v k Y) :
    Builds m (mulFrom acc w v) fun m' u =>
      Spells m' u n fun a => (A a + X a * Y a) % 2 ^ n := by
  induction k generalizing m acc w v A X Y with
  | zero =>
    obtain ⟨rfl, hY⟩ := hv.zero_inv
    refine .pure hs (hAcc.congr fun a => ?_)
    rw [hY, Nat.mul_zero, Nat.add_zero, Nat.mod_eq_of_lt (hAcc.lt a)]
  | succ k ih =>
    obtain ⟨bit, v, F, Y', rfl, hBit, hv', hY⟩ := hv.succ_inv
    have hDouble : ∀ a b y, (a + 2 * b % 2 ^ n * y) % 2 ^ n = (a + b * (2 * y)) % 2 ^ n := by
      intro a b y
      have := ((Nat.mod_modEq (2 * b) (2 ^ n)).mul_right y).add_left a
      rw [this, Nat.mul_left_comm, ← Nat.mul_assoc]
    rw [mulFrom]
    split
    · next hZero =>
      -- a bit that is constantly false adds nothing
      subst hZero
      have hF : ∀ a, F a = false := fun a => by rw [← hBit.eval_eq, m.eval_zero]
      refine (ih hs hAcc (hw.double hs.means_zero hn) hv').mono fun m' u _ hu => ?_
      refine hu.congr fun a => ?_
      rw [hY, hF, Bool.toNat_false, Nat.zero_add, Nat.zero_add, hDouble]
    · refine (mapM_and_builds hs hw hBit).bind fun m₁ row hg hRow => ?_
      refine (add_builds hg.new (hAcc.grows hg) hRow hg.new.means_zero).bind
        fun m₂ acc' hg' hAcc' => ?_
      have hg := hg.trans hg'
      refine (ih hg.new hAcc' ((hw.grows hg).double hg.new.means_zero hn) (hv'.grows hg)).mono
        fun m' u _ hu => ?_
      refine hu.congr fun a => ?_
      rw [hY, Bool.toNat_false, Nat.add_zero, Nat.zero_add, hDouble, Nat.mod_add_mod]
      congr 1
      cases F a
      · simp
      · simp only [if_true, Bool.toNat_true]
        ring

theorem mul_builds (hs : m.Sound) (hn : 0 < n) (hw : Spells m w n X) (hv : Spells m v k Y) :
    Builds m (mul w v) fun m' u => Spells m' u n fun a => X a * Y a % 2 ^ n := by
  rw [mul, hw.length_eq]
  refine (mulFrom_builds hs hn (spells_zero hs n) hw hv).mono fun m' u _ hu => ?_
  exact hu.congr fun a => by rw [Nat.zero_add]

end StateSpace.Circuit
