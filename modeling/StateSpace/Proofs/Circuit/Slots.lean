import StateSpace.Circuit.Encoder
import StateSpace.Proofs.Circuit.Spelling
import StateSpace.Proofs.Diagram.Quantifier
import StateSpace.Proofs.Expr.Eval

/-!
# Assignments as environments

The slots of an encoder tie the variables of expressions to decision variables, bit by bit. An
assignment of the decision variables is thereby an environment (`decode`). As long as the slots are
apart, no decision variable belongs to two bits, and the bits of any chosen variables can be set to
their values in an environment while all other decision variables stay (`setBits`). So quantifying
over the decision variables of some variables is quantifying over their values (`somewhere_decode`).
-/

namespace StateSpace.Circuit

open StateSpace.Diagram Environment

/-- The slots that the variables met so far have been given. -/
abbrev Slots := Std.HashMap Variable Nat

/-- The decision variable `v` is the one of bit `i` of `x`. -/
def IsBit (slots : Slots) (x : Variable) (i v : Nat) : Prop :=
  ∃ n slot, x.type.width? = some n ∧ slots[x]? = some slot ∧ i < n ∧ v = bitIndex slot i

/-- No two variables share a slot, and no slot runs into the next bit. -/
structure Apart (slots : Slots) : Prop where
  injective : ∀ {x y : Variable} {slot : Nat},
    slots[x]? = some slot → slots[y]? = some slot → x = y
  lt : ∀ {x : Variable} {slot : Nat}, slots[x]? = some slot → slot < slotCount

variable {slots : Slots} {x y : Variable} {i j v n slot : Nat} {a b : Assignment}
  {ρ : Environment} {xs : List Variable} {ixs : List Nat}

theorem bitIndex_injective {slot' : Nat} (hSlot : slot < slotCount) (hSlot' : slot' < slotCount)
    (h : bitIndex slot i = bitIndex slot' j) : slot = slot' ∧ i = j := by
  simp only [bitIndex, slotCount, Nat.pow_eq] at h hSlot hSlot'
  omega

theorem IsBit.unique (hap : Apart slots) (hx : IsBit slots x i v) (hy : IsBit slots y j v) :
    x = y ∧ i = j := by
  obtain ⟨-, slot, -, hSlot, -, rfl⟩ := hx
  obtain ⟨-, slot', -, hSlot', -, heq⟩ := hy
  obtain ⟨rfl, rfl⟩ := bitIndex_injective (hap.lt hSlot) (hap.lt hSlot') heq
  exact ⟨hap.injective hSlot hSlot', rfl⟩

/-! ## The environment of an assignment -/

/-- The truth values of the bits of a variable, the lowest first; none if it has no slot. -/
def bitsOf (slots : Slots) (a : Assignment) (x : Variable) : List Bool :=
  match x.type.width?, slots[x]? with
  | some n, some slot => (List.range n).map fun i => a (bitIndex slot i)
  | _, _ => []

/-- The environment in which each variable has the value that its bits spell. -/
def decode (slots : Slots) (a : Assignment) : Environment :=
  fun x => value (bitsOf slots a x)

theorem bitsOf_eq (hn : x.type.width? = some n) (hSlot : slots[x]? = some slot) (a : Assignment) :
    bitsOf slots a x = (List.range n).map fun i => a (bitIndex slot i) := by
  rw [bitsOf, hn, hSlot]

theorem bits_decode (hn : x.type.width? = some n) (hSlot : slots[x]? = some slot)
    (a : Assignment) :
    x.type.bits (decode slots a x) = value ((List.range n).map fun i => a (bitIndex slot i)) := by
  have hlt := value_lt ((List.range n).map fun i => a (bitIndex slot i))
  rw [List.length_map, List.length_range] at hlt
  rw [decode, bitsOf_eq hn hSlot, ValueType.bits_natCast hn, Nat.mod_eq_of_lt hlt]

/-- The value of a variable depends on its own bits alone. -/
theorem decode_congr (h : ∀ i v, IsBit slots x i v → a v = b v) :
    decode slots a x = decode slots b x := by
  unfold decode
  congr 2
  unfold bitsOf
  split
  · next n slot hn hSlot =>
    refine List.map_congr_left fun i hi => ?_
    exact h i _ ⟨n, slot, hn, hSlot, List.mem_range.mp hi, rfl⟩
  · rfl

/-- A variable has the value whose bits its decision variables carry. -/
theorem get_decode [Reals] (hn : x.type.width? = some n) (hSlot : slots[x]? = some slot)
    (h : ∀ i v, IsBit slots x i v → a v = (x.type.bits (ρ x)).testBit i) :
    (decode slots a).get x = ρ.get x := by
  have hReal : x.type.isReal = false := ValueType.isReal_eq_false_iff.mpr ⟨n, hn⟩
  rw [Environment.get, Environment.get, ValueType.hold_eq_wrap hReal, ValueType.hold_eq_wrap hReal]
  refine ValueType.wrap_congr ?_
  have hBits : ((List.range n).map fun i => a (bitIndex slot i)) =
      (List.range n).map (x.type.bits (ρ x)).testBit :=
    List.map_congr_left fun i hi => h i _ ⟨n, slot, hn, hSlot, List.mem_range.mp hi, rfl⟩
  rw [bits_decode hn hSlot, hBits, value_map_testBit, Nat.mod_eq_of_lt (ValueType.bits_lt hn _)]

/-! ## Assignments for environments -/

open Classical in
/-- The assignment with the bits of the variables in `P` set to their values in an environment. -/
noncomputable def setBits (slots : Slots) (P : Variable → Prop) (ρ : Environment) (a : Assignment) :
    Assignment :=
  fun v => if h : ∃ p : Variable × Nat, P p.1 ∧ IsBit slots p.1 p.2 v then
    (h.choose.1.type.bits (ρ h.choose.1)).testBit h.choose.2 else a v

variable {P : Variable → Prop}

theorem setBits_of_isBit (hap : Apart slots) (hx : P x) (hv : IsBit slots x i v) :
    setBits slots P ρ a v = (x.type.bits (ρ x)).testBit i := by
  have h : ∃ p : Variable × Nat, P p.1 ∧ IsBit slots p.1 p.2 v := ⟨(x, i), hx, hv⟩
  obtain ⟨heq, heq'⟩ := IsBit.unique hap h.choose_spec.2 hv
  rw [setBits, dif_pos h, heq, heq']

theorem setBits_of_not_isBit (h : ∀ x i, P x → ¬ IsBit slots x i v) :
    setBits slots P ρ a v = a v :=
  dif_neg fun ⟨p, hp, hv⟩ => h p.1 p.2 hp hv

/-- Setting the bits of some variables leaves the values of all others. -/
theorem decode_setBits_of_not (hap : Apart slots) (hx : ¬ P x) :
    decode slots (setBits slots P ρ a) x = decode slots a x := by
  refine decode_congr fun i v hv => setBits_of_not_isBit fun y j hy hv' => ?_
  exact hx ((IsBit.unique hap hv' hv).1 ▸ hy)

/-! ## Quantifiers -/

/-- The decision variables of some variables, all of which have a slot and a width. -/
structure Collects (slots : Slots) (xs : List Variable) (ixs : List Nat) : Prop where
  known : ∀ x ∈ xs, ∃ n slot, x.type.width? = some n ∧ slots[x]? = some slot
  mem_iff : ∀ v, v ∈ ixs ↔ ∃ x ∈ xs, ∃ i, IsBit slots x i v

/-- Quantifying over decision variables quantifies over the values of their variables. -/
theorem somewhere_decode [Reals] {p : Environment → Bool} (hap : Apart slots) (hp : Respects p)
    (hxs : Collects slots xs ixs) (a : Assignment) :
    somewhere (· ∈ ixs) (fun b => p (decode slots b)) a = someOver p xs (decode slots a) := by
  rw [Bool.eq_iff_iff, somewhere_eq_true, someOver_eq_true hp]
  constructor
  · rintro ⟨b, hab, hb⟩
    refine ⟨decode slots b, fun y hy => congrArg y.type.hold ?_, hb⟩
    refine decode_congr fun i v hv => (hab v fun hMem => ?_)
    obtain ⟨x, hx, j, hv'⟩ := (hxs.mem_iff v).mp hMem
    exact hy ((IsBit.unique hap hv' hv).1 ▸ hx)
  · rintro ⟨ρ, hρ, h⟩
    refine ⟨setBits slots (· ∈ xs) ρ a, fun v hv => ?_, ?_⟩
    · refine setBits_of_not_isBit fun x i hx hBit => hv ?_
      exact (hxs.mem_iff v).mpr ⟨x, hx, i, hBit⟩
    · rw [← h]
      refine hp fun x => ?_
      by_cases hx : x ∈ xs
      · obtain ⟨n, slot, hn, hSlot⟩ := hxs.known x hx
        exact get_decode hn hSlot fun i v hv => setBits_of_isBit hap hx hv
      · rw [hρ x hx]
        exact congrArg x.type.hold (decode_setBits_of_not hap hx)

theorem everywhere_decode [Reals] {p : Environment → Bool} (hap : Apart slots) (hp : Respects p)
    (hxs : Collects slots xs ixs) (a : Assignment) :
    everywhere (· ∈ ixs) (fun b => p (decode slots b)) a = everyOver p xs (decode slots a) := by
  have hNot : Respects fun ρ => !p ρ := fun ρ ρ' h => congrArg _ (hp h)
  rw [← not_somewhere_not, everyOver, ← somewhere_decode hap hNot hxs]

end StateSpace.Circuit
