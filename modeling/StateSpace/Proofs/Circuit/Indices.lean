import StateSpace.Proofs.Circuit.Meaning

/-!
# Decision variables never collide

The decision variables of a bit fill a block of `slotCount` numbers, one number for each slot, and
the blocks of the bits follow one another without a gap. A slot is given out once and kept, so a
client is told the same about a variable again, however many variables and formulas the encoder has
met in between.

`History` is what a client has been told so far. Each reply in it can be read off the slots that the
encoder has now (`History.explained`), and those are apart (`indices_never_collide`).
-/

namespace StateSpace.Circuit

open StateSpace.Diagram

/-! ## Blocks of decision variables -/

section Blocks

variable {slot slot' i j : Nat}

/-- The block of a bit ends before that of a later bit begins. -/
theorem bitIndex_lt (hSlot : slot < slotCount) (h : i < j) :
    bitIndex slot i < bitIndex slot' j := by
  simp only [bitIndex, slotCount, Nat.pow_eq] at hSlot ⊢
  omega

/-- The last slot of a bit stands right before the first one of the next bit. -/
example : bitIndex (slotCount - 1) 0 + 1 = bitIndex 0 1 := by decide

/-- The blocks of 64 bits lie within a word of 32 bits. -/
theorem bitIndex_lt_two_pow (hSlot : slot < slotCount) (hi : i < 64) :
    bitIndex slot i < 2 ^ 32 := by
  simp only [bitIndex, slotCount, Nat.pow_eq] at hSlot ⊢
  omega

/-- The decision variable of a bit, computed in words of 32 bits. -/
def bitIndexWord (slot bit : UInt32) : UInt32 :=
  (bit <<< 20) + slot + 1

/-- The computation in words does not overflow. -/
theorem toNat_bitIndexWord (hSlot : slot < slotCount) (hi : i < 64) :
    (bitIndexWord (.ofNat slot) (.ofNat i)).toNat = bitIndex slot i := by
  have hlt := bitIndex_lt_two_pow hSlot hi
  simp only [bitIndexWord, bitIndex, slotCount, Nat.pow_eq, UInt32.toNat_add,
    UInt32.toNat_shiftLeft,
    UInt32.toNat_ofNat', UInt32.reduceToNat, Nat.shiftLeft_eq, Nat.reduceMod] at hlt ⊢
  omega

end Blocks

/-! ## Replies -/

/-- The result of an encoding step, without the encoder that it leaves. -/
def Encode.outcome {α : Type} (step : Encode α) (s : Encoder) : Except Unsupported α :=
  match step s with
  | .ok r _ => .ok r
  | .error cause _ => .error cause

/-- A variable whose decision variables were asked for, and what came of it. -/
abbrev Reply := Variable × Except Unsupported (List Nat)

/-- What a client that works with the variables `vs` has been told by an encoder, the latest reply
first. Between its questions it may encode expressions and formulas, and use the manager. -/
inductive History (vs : Finset Variable) : List Reply → Encoder → Prop
  | new {d : Manager} (hd : Diagram.Reached d) : History vs [] (.ofManager d)
  | ask {replies : List Reply} {s : Encoder} {x : Variable} (h : History vs replies s)
      (hx : x ∈ vs) :
      History vs ((x, (indicesOf x).outcome s) :: replies) ((indicesOf x).leaves s)
  | word {replies : List Reply} {s : Encoder} {e : Expr} (h : History vs replies s)
      (he : ∀ x ∈ e.occurring, x ∈ vs) : History vs replies ((wordOf e).leaves s)
  | function {replies : List Reply} {s : Encoder} {e : Expr} (h : History vs replies s)
      (he : ∀ x ∈ e.occurring, x ∈ vs) : History vs replies ((functionOf e).leaves s)
  | operate {replies : List Reply} {s : Encoder} {op : Operation} (h : History vs replies s)
      (hop : op.Allowed s.diagram) : History vs replies ⟨(op.run s.diagram).2, s.slots⟩

/-- A reply has given `v` as the decision variable of bit `i` of `x`. -/
def Gave (replies : List Reply) (x : Variable) (i v : Nat) : Prop :=
  ∃ ixs, (x, .ok ixs) ∈ replies ∧ ixs[i]? = some v

/-- The replies that can be read off the slots: the decision variables of a variable that has bits,
and the refusal of one that has none. -/
inductive Accounted (slots : Slots) (x : Variable) : Except Unsupported (List Nat) → Prop
  | indices {ixs : List Nat} (h : IndicesOf slots x ixs) : Accounted slots x (.ok ixs)
  | refused (h : x.type.width? = none) : Accounted slots x (.error (.noBits x.type))

/-- A sound encoder off whose slots all replies can be read. -/
structure Encoder.Explains (vs : Finset Variable) (replies : List Reply) (s : Encoder) : Prop where
  sound : s.Sound vs
  accounted : ∀ x r, (x, r) ∈ replies → Accounted s.slots x r

variable {vs : Finset Variable} {s s' : Encoder} {slots : Slots} {x y : Variable} {i j v w : Nat}
  {r r' : Except Unsupported (List Nat)} {ixs ixs' : List Nat} {replies : List Reply}

theorem IndicesOf.unique (h : IndicesOf slots x ixs) (h' : IndicesOf slots x ixs') :
    ixs = ixs' := by
  obtain ⟨hWidth, slot, hSlot, hixs⟩ := h
  obtain ⟨hWidth', slot', hSlot', hixs'⟩ := h'
  have hLength := Option.some.inj (hWidth.symm.trans hWidth')
  obtain rfl := Option.some.inj (hSlot.symm.trans hSlot')
  rw [hixs, hixs', hLength]

theorem IndicesOf.isBit (h : IndicesOf slots x ixs) (hv : ixs[i]? = some v) :
    IsBit slots x i v := by
  obtain ⟨hi, rfl⟩ := List.getElem?_eq_some_iff.mp hv
  obtain ⟨hWidth, slot, hSlot, hixs⟩ := h
  refine ⟨_, slot, hWidth, hSlot, hi, ?_⟩
  rw [List.getElem_of_eq hixs, List.getElem_map, List.getElem_range]

/-- A variable accounts for one reply only. -/
theorem Accounted.unique (h : Accounted slots x r) (h' : Accounted slots x r') : r = r' := by
  cases h with
  | indices h =>
    cases h' with
    | indices h' => rw [h.unique h']
    | refused hNone => cases hNone.symm.trans h.width
  | refused hNone =>
    cases h' with
    | indices h' => cases hNone.symm.trans h'.width
    | refused => rfl

theorem Accounted.grows (h : Accounted s.slots x r) (hg : s.Grows vs s') :
    Accounted s'.slots x r := by
  cases h with
  | indices h => exact .indices (h.grows hg)
  | refused hNone => exact .refused hNone

/-- What an encoder replies can be read off the slots that it leaves. -/
theorem indicesOf_accounted (hs : s.Sound vs) (hx : x ∈ vs) :
    Accounted ((indicesOf x).leaves s).slots x ((indicesOf x).outcome s) := by
  cases hn : x.type.width? with
  | none =>
    rw [Encode.leaves, Encode.outcome, indicesOf_eq_error hn]
    exact .refused hn
  | some n =>
    have hEncodes := indicesOf_encodes hs hx
    obtain ⟨ixs, s', hRun⟩ := hEncodes.exists_ok_iff.mpr (ValueType.isReal_eq_false_iff.mpr ⟨n, hn⟩)
    rw [Encode.leaves, Encode.outcome, hRun]
    exact .indices (hEncodes.of_eq_ok hRun).2.2

theorem Encoder.Explains.grows (h : s.Explains vs replies) (hg : s.Grows vs s') :
    s'.Explains vs replies :=
  ⟨hg.new, fun x r hr => (h.accounted x r hr).grows hg⟩

/-- One more reply is explained by what the encoder then holds. -/
theorem Encoder.Explains.ask (h : s.Explains vs replies) (hx : x ∈ vs) :
    ((indicesOf x).leaves s).Explains vs ((x, (indicesOf x).outcome s) :: replies) := by
  have hBefore := h.grows (indicesOf_encodes h.sound hx).grows
  refine ⟨hBefore.sound, fun y r hr => ?_⟩
  rcases List.mem_cons.mp hr with heq | hr
  · obtain ⟨rfl, rfl⟩ := Prod.mk.inj heq
    exact indicesOf_accounted h.sound hx
  · exact hBefore.accounted y r hr

theorem Encoder.Explains.isBit (h : s.Explains vs replies) (hv : Gave replies x i v) :
    IsBit s.slots x i v := by
  obtain ⟨ixs, hReply, hv⟩ := hv
  cases h.accounted x _ hReply with
  | indices hixs => exact hixs.isBit hv

/-- Everything that a client has been told can be read off the slots that the encoder has now. -/
theorem History.explained (hvs : vs.card ≤ slotCount) (h : History vs replies s) :
    s.Explains vs replies := by
  let := Reals.wholes
  induction h with
  | new hd => exact ⟨sound_ofManager hd.sound, fun _ _ hr => by cases hr⟩
  | ask _ hx ih => exact ih.ask hx
  | word _ he ih => exact ih.grows (wordOf_encodes hvs _ he ih.sound).grows
  | function _ he ih => exact ih.grows (functionOf_encodes hvs he ih.sound).grows
  | operate _ hop ih => exact ih.grows (ih.sound.operate hop)

/-- Decision variables of earlier bits are smaller. -/
theorem IsBit.lt (hap : Apart slots) (hx : IsBit slots x i v) (hy : IsBit slots y j w)
    (h : i < j) : v < w := by
  obtain ⟨-, slot, -, hSlot, -, rfl⟩ := hx
  obtain ⟨-, slot', -, -, -, rfl⟩ := hy
  exact bitIndex_lt (hap.lt hSlot) h

/-! ## No collisions -/

/-- **Indices never collide.** Over at most `2 ^ 20` variables, in whatever order and how often they
are met, and whatever else the encoder and its manager are used for in between:

* a variable of a type with bits is given one decision variable for each bit, any other is refused;
* every further reply on a variable is the same;
* decision variables are not zero, and computing them in words of 32 bits does not overflow;
* no decision variable belongs to two bits, be it of one variable or of two;
* all decision variables of a bit are smaller than all those of a later bit. -/
theorem indices_never_collide {vs : Finset Variable} (hvs : vs.card ≤ slotCount)
    {replies : List Reply} {s : Encoder} (h : History vs replies s) :
    (∀ x r, (x, r) ∈ replies →
      x.type.width? = none ∧ r = .error (.noBits x.type) ∨
        ∃ ixs, x.type.width? = some ixs.length ∧ r = .ok ixs) ∧
    (∀ x r r', (x, r) ∈ replies → (x, r') ∈ replies → r = r') ∧
    (∀ x i v, Gave replies x i v →
      v ≠ 0 ∧ v < 2 ^ 32 ∧ ∃ slot, s.slots[x]? = some slot ∧
        (bitIndexWord (.ofNat slot) (.ofNat i)).toNat = v) ∧
    (∀ x y i j v, Gave replies x i v → Gave replies y j v → x = y ∧ i = j) ∧
    ∀ x y i j v w, Gave replies x i v → Gave replies y j w → i < j → v < w := by
  have hs := h.explained hvs
  have hap := hs.sound.apart hvs
  refine ⟨fun x r hr => ?_, fun x r r' hr hr' => ?_, fun x i v hv => ?_, fun x y i j v hx hy => ?_,
    fun x y i j v w hx hy hij => ?_⟩
  · cases hs.accounted x r hr with
    | indices hixs => exact .inr ⟨_, hixs.width, rfl⟩
    | refused hNone => exact .inl ⟨hNone, rfl⟩
  · exact (hs.accounted x r hr).unique (hs.accounted x r' hr')
  · obtain ⟨n, slot, hn, hSlot, hi, rfl⟩ := hs.isBit hv
    have hi64 := hi.trans_le (ValueType.width_le hn)
    have hlt := hap.lt hSlot
    exact ⟨Nat.succ_ne_zero _, bitIndex_lt_two_pow hlt hi64, slot, hSlot,
      toNat_bitIndexWord hlt hi64⟩
  · exact (hs.isBit hx).unique hap (hs.isBit hy)
  · exact (hs.isBit hx).lt hap (hs.isBit hy) hij

/-- The left operand of `remainderExample`. -/
def dividend : Variable := ⟨"x", .signed .w8⟩

/-- The right operand of `remainderExample`. -/
def divisor : Variable := ⟨"y", .signed .w8⟩

/-- The dividend is asked for, the remainder is encoded, then the divisor and the dividend again. -/
theorem indices_never_collide_remainderExample :
    remainderExample.occurring.toFinset.card ≤ slotCount ∧
    ∃ ixs iys s, History remainderExample.occurring.toFinset
        [(dividend, .ok ixs), (divisor, .ok iys), (dividend, .ok ixs)] s ∧
      ixs.length = 8 ∧ iys.length = 8 ∧ (∀ v ∈ ixs, v ∉ iys) ∧
      ∀ v w, iys[0]? = some v → ixs[1]? = some w → v < w := by
  have hvs : remainderExample.occurring.toFinset.card ≤ slotCount := by decide
  have hx : dividend ∈ remainderExample.occurring.toFinset := by decide
  have hy : divisor ∈ remainderExample.occurring.toFinset := by decide
  obtain ⟨r₁, r₂, r₃, s, h⟩ : ∃ r₁ r₂ r₃ s, History remainderExample.occurring.toFinset
      [(dividend, r₃), (divisor, r₂), (dividend, r₁)] s :=
    ⟨_, _, _, _, ((((History.new reached_twoVariables).ask hx).function
      fun x hx => List.mem_toFinset.mpr hx).ask hy).ask hx⟩
  obtain ⟨hReply, hSame, -, hDistinct, hOrder⟩ := indices_never_collide hvs h
  obtain rfl : r₁ = r₃ := hSame dividend r₁ r₃ (by simp) (by simp)
  obtain ⟨ixs, hixs, rfl⟩ := (hReply dividend r₁ (by simp)).resolve_left fun hNone =>
    absurd hNone.1 (by decide)
  obtain ⟨iys, hiys, rfl⟩ := (hReply divisor r₂ (by simp)).resolve_left fun hNone =>
    absurd hNone.1 (by decide)
  refine ⟨hvs, ixs, iys, s, h, (Option.some.inj hixs).symm, (Option.some.inj hiys).symm, ?_, ?_⟩
  · intro v hv hv'
    obtain ⟨i, hi⟩ := List.mem_iff_getElem?.mp hv
    obtain ⟨j, hj⟩ := List.mem_iff_getElem?.mp hv'
    have hBoth := hDistinct dividend divisor i j v ⟨ixs, by simp, hi⟩ ⟨iys, by simp, hj⟩
    exact absurd hBoth.1 (by decide)
  · intro v w hv hw
    exact hOrder divisor dividend 0 1 v w ⟨iys, by simp, hv⟩ ⟨ixs, by simp, hw⟩ Nat.zero_lt_one

end StateSpace.Circuit
