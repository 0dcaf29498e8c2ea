import Mathlib.Data.Finset.Card
import StateSpace.Proofs.Circuit.Operations
import StateSpace.Proofs.Circuit.Slots
import StateSpace.Proofs.Expr.Encodable

/-!
# What encoding steps owe

An encoder over a set of variables is sound if its diagram is and no two variables share a slot. An
encoding step may fail; whether it does is known beforehand, and in both cases it leaves a sound
encoder that extends the old one. `Encodes` puts this together with what a success achieves, and
chains like its counterpart for building steps.

This module settles the steps that meet variables: slots are given out, and a variable becomes the
word of its bits.
-/

namespace StateSpace.Circuit

open StateSpace.Diagram Manager Environment

/-! ## Sound encoders -/

/-- An encoder whose diagram is sound and whose slots belong to different variables of `vs`. -/
structure Encoder.Sound (vs : Finset Variable) (s : Encoder) : Prop where
  diagram : s.diagram.Sound
  injective : ∀ {x y : Variable} {slot : Nat},
    s.slots[x]? = some slot → s.slots[y]? = some slot → x = y
  lt_size : ∀ {x : Variable} {slot : Nat}, s.slots[x]? = some slot → slot < s.slots.size
  mem : ∀ x ∈ s.slots, x ∈ vs

/-- A sound encoder has grown into a sound encoder; the variables keep their slots. -/
structure Encoder.Grows (vs : Finset Variable) (s s' : Encoder) : Prop where
  diagram : s.diagram.Grows s'.diagram
  slots : ∀ {x : Variable} {slot : Nat}, s.slots[x]? = some slot → s'.slots[x]? = some slot
  old : s.Sound vs
  new : s'.Sound vs

variable {vs : Finset Variable} {s s' s'' : Encoder} {x : Variable}

theorem Encoder.Grows.refl (hs : s.Sound vs) : s.Grows vs s :=
  ⟨.refl hs.diagram, id, hs, hs⟩

theorem Encoder.Grows.trans (h : s.Grows vs s') (h' : s'.Grows vs s'') : s.Grows vs s'' :=
  ⟨h.diagram.trans h'.diagram, fun hx => h'.slots (h.slots hx), h.old, h'.new⟩

theorem Encoder.Grows.mem (h : s.Grows vs s') (hx : x ∈ s.slots) : x ∈ s'.slots := by
  rw [Std.HashMap.mem_iff_isSome_getElem?, h.slots (Std.HashMap.getElem?_eq_some_getElem hx)]
  rfl

theorem Encoder.Sound.size_le_card (hs : s.Sound vs) : s.slots.size ≤ vs.card := by
  have hNodup : s.slots.keys.Nodup := Std.HashMap.nodup_keys
  rw [← Std.HashMap.length_keys, ← List.toFinset_card_of_nodup hNodup]
  refine Finset.card_le_card fun x hx => hs.mem x ?_
  rwa [List.mem_toFinset, Std.HashMap.mem_keys] at hx

theorem Encoder.Sound.apart (hs : s.Sound vs) (hvs : vs.card ≤ slotCount) : Apart s.slots :=
  ⟨hs.injective, fun h => Nat.lt_of_lt_of_le (hs.lt_size h) (hs.size_le_card.trans hvs)⟩

/-! ## Steps and their chaining -/

/-- The encoder that a step leaves, whether it succeeds or fails. -/
def Encode.leaves {α : Type} (step : Encode α) (s : Encoder) : Encoder :=
  match step s with
  | .ok _ s' => s'
  | .error _ s' => s'

/-- Started on `s`, an encoding step grows the encoder soundly. It succeeds exactly if `ok` holds,
and then its result has the property `Q` in the encoder it leaves. -/
def Encodes {α : Type} (vs : Finset Variable) (s : Encoder) (step : Encode α) (ok : Prop)
    (Q : Encoder → α → Prop) : Prop :=
  match step s with
  | .ok r s' => ok ∧ s.Grows vs s' ∧ Q s' r
  | .error _ s' => ¬ ok ∧ s.Grows vs s'

section Chaining

variable {α β : Type} {step : Encode α} {ok ok' : Prop} {Q Q' : Encoder → α → Prop}
  {R : Encoder → β → Prop}

theorem Encodes.of_ok {r : α} (h : step s = .ok r s') (hok : ok) (hg : s.Grows vs s')
    (hr : Q s' r) : Encodes vs s step ok Q := by
  unfold Encodes
  rw [h]
  exact ⟨hok, hg, hr⟩

theorem Encodes.of_error {cause : Unsupported} (h : step s = .error cause s') (hok : ¬ ok)
    (hg : s.Grows vs s') : Encodes vs s step ok Q := by
  unfold Encodes
  rw [h]
  exact ⟨hok, hg⟩

theorem Encodes.of_eq_ok {r : α} (h : Encodes vs s step ok Q) (hRun : step s = .ok r s') :
    ok ∧ s.Grows vs s' ∧ Q s' r := by
  unfold Encodes at h
  rwa [hRun] at h

theorem Encodes.of_eq_error {cause : Unsupported} (h : Encodes vs s step ok Q)
    (hRun : step s = .error cause s') : ¬ ok ∧ s.Grows vs s' := by
  unfold Encodes at h
  rwa [hRun] at h

theorem Encodes.pure {r : α} (hs : s.Sound vs) (hr : Q s r) :
    Encodes vs s (pure r) True Q :=
  ⟨trivial, .refl hs, hr⟩

theorem Encodes.throw {cause : Unsupported} (hs : s.Sound vs) :
    Encodes vs s (throw cause) False Q :=
  ⟨not_false, .refl hs⟩

/-- The sequence rule of encoding steps. -/
theorem Encodes.bind {next : α → Encode β} (h : Encodes vs s step ok Q)
    (hNext : ∀ s' r, s.Grows vs s' → Q s' r → Encodes vs s' (next r) ok' R) :
    Encodes vs s (step >>= next) (ok ∧ ok') R := by
  cases hStep : step s with
  | ok r s' =>
    obtain ⟨hok, hg, hQ⟩ := h.of_eq_ok hStep
    have hThen := hNext s' r hg hQ
    have hRun : (step >>= next) s = next r s' := by simp only [Bind.bind, EStateM.bind, hStep]
    cases hRest : next r s' with
    | ok r' s'' =>
      obtain ⟨hok', hg', hR⟩ := hThen.of_eq_ok hRest
      exact .of_ok (hRun.trans hRest) ⟨hok, hok'⟩ (hg.trans hg') hR
    | error cause s'' =>
      obtain ⟨hNot, hg'⟩ := hThen.of_eq_error hRest
      exact .of_error (hRun.trans hRest) (fun hBoth => hNot hBoth.2) (hg.trans hg')
  | error cause s' =>
    obtain ⟨hNot, hg⟩ := h.of_eq_error hStep
    have hRun : (step >>= next) s = .error cause s' := by simp only [Bind.bind, EStateM.bind, hStep]
    exact .of_error hRun (fun hBoth => hNot hBoth.1) hg

theorem Encodes.iff (h : Encodes vs s step ok Q) (hok : ok ↔ ok') : Encodes vs s step ok' Q := by
  rwa [propext hok] at h

/-- A step followed by one that cannot fail. -/
theorem Encodes.bind_total {next : α → Encode β} (h : Encodes vs s step ok Q)
    (hNext : ∀ s' r, s.Grows vs s' → Q s' r → Encodes vs s' (next r) True R) :
    Encodes vs s (step >>= next) ok R :=
  (h.bind hNext).iff (and_iff_left trivial)

theorem Encodes.mono (h : Encodes vs s step ok Q) (hQ : ∀ s' r, s.Grows vs s' → Q s' r → Q' s' r) :
    Encodes vs s step ok Q' := by
  cases hStep : step s with
  | ok r s' =>
    obtain ⟨hok, hg, hr⟩ := h.of_eq_ok hStep
    exact .of_ok hStep hok hg (hQ s' r hg hr)
  | error cause s' =>
    obtain ⟨hNot, hg⟩ := h.of_eq_error hStep
    exact .of_error hStep hNot hg

/-- A building step is an encoding step that cannot fail. -/
theorem Encodes.lift {build : Build α} {P : Manager → α → Prop} (hs : s.Sound vs)
    (h : Builds s.diagram build P) :
    Encodes vs s (liftM build) True fun s' r => s'.slots = s.slots ∧ P s'.diagram r :=
  ⟨trivial, ⟨h.grows, id, hs, h.grows.new, hs.injective, hs.lt_size, hs.mem⟩, rfl, h.result⟩

/-- Encoding succeeds exactly if the condition holds. -/
theorem Encodes.exists_ok_iff (h : Encodes vs s step ok Q) : (∃ r s', step s = .ok r s') ↔ ok := by
  constructor
  · rintro ⟨r, s', hRun⟩
    exact (h.of_eq_ok hRun).1
  · intro hok
    cases hRun : step s with
    | ok r s' => exact ⟨r, s', rfl⟩
    | error cause s' => exact absurd hok (h.of_eq_error hRun).1

theorem Encodes.grows (h : Encodes vs s step ok Q) : s.Grows vs (step.leaves s) := by
  unfold Encode.leaves
  cases hRun : step s with
  | ok r s' => exact (h.of_eq_ok hRun).2.1
  | error cause s' => exact (h.of_eq_error hRun).2

end Chaining

/-! ## Variables -/

/-- A type has a width unless it is real. -/
theorem widthOf_encodes (hs : s.Sound vs) (t : ValueType) :
    Encodes vs s (widthOf t) (t.isReal = false) fun _ n => t.width? = some n := by
  unfold widthOf
  split
  · next n hn =>
    exact (Encodes.pure hs hn).iff (iff_of_true trivial (ValueType.isReal_eq_false_iff.mpr ⟨n, hn⟩))
  · next hn =>
    refine (Encodes.throw hs).iff (iff_of_false id fun h => ?_)
    obtain ⟨n, hn'⟩ := ValueType.isReal_eq_false_iff.mp h
    rw [hn] at hn'
    cases hn'

/-- A variable without a slot gets the first free one. -/
theorem Encoder.Sound.insertSlot (hs : s.Sound vs) (hx : x ∈ vs) (hSlot : s.slots[x]? = none) :
    s.Grows vs ⟨s.diagram, s.slots.insert x s.slots.size⟩ := by
  have hNew : ∀ {y : Variable} {slot : Nat}, (s.slots.insert x s.slots.size)[y]? = some slot →
      x = y ∧ slot = s.slots.size ∨ s.slots[y]? = some slot := by
    intro y slot hy
    rw [Std.HashMap.getElem?_insert] at hy
    split at hy
    · next heq => exact .inl ⟨by simpa using heq, (Option.some.inj hy).symm⟩
    · exact .inr hy
  have hSize : (s.slots.insert x s.slots.size).size = s.slots.size + 1 := by
    rw [Std.HashMap.size_insert, if_neg]
    rw [Std.HashMap.mem_iff_isSome_getElem?, hSlot]
    decide
  refine ⟨.refl hs.diagram, ?_, hs, hs.diagram, ?_, ?_, ?_⟩
  · -- `x` had no slot, so no entry is replaced
    intro y slot hy
    rw [Std.HashMap.getElem?_insert, if_neg]
    · exact hy
    · intro heq
      obtain rfl : x = y := by simpa using heq
      rw [hSlot] at hy
      cases hy
  · -- the new slot is beyond all others
    intro y z slot hy hz
    rcases hNew hy with ⟨rfl, rfl⟩ | hy <;> rcases hNew hz with ⟨rfl, hSame⟩ | hz
    · rfl
    · exact absurd (hs.lt_size hz) (Nat.lt_irrefl _)
    · exact absurd (hs.lt_size hy) (hSame ▸ Nat.lt_irrefl _)
    · exact hs.injective hy hz
  · intro y slot hy
    rw [hSize]
    rcases hNew hy with ⟨-, rfl⟩ | hy
    · exact Nat.lt_succ_self _
    · exact Nat.lt_succ_of_lt (hs.lt_size hy)
  · intro y hy
    rcases Std.HashMap.mem_insert.mp hy with heq | hy
    · obtain rfl : x = y := by simpa using heq
      exact hx
    · exact hs.mem y hy

/-- A variable gets a slot, its old one if it has one. -/
theorem slotOf_encodes (hs : s.Sound vs) (hx : x ∈ vs) :
    Encodes vs s (slotOf x) True fun s' slot => s'.slots[x]? = some slot := by
  cases hSlot : s.slots[x]? with
  | some slot =>
    exact .of_ok (by simp only [slotOf, hSlot]) trivial (.refl hs) hSlot
  | none =>
    exact .of_ok (by simp only [slotOf, hSlot]) trivial (hs.insertSlot hx hSlot)
      Std.HashMap.getElem?_insert_self

/-- The decision variables of a variable, the one of its lowest bit first. -/
structure IndicesOf (slots : Slots) (x : Variable) (ixs : List Nat) : Prop where
  width : x.type.width? = some ixs.length
  slot : ∃ slot, slots[x]? = some slot ∧ ixs = (List.range ixs.length).map (bitIndex slot)

theorem indicesOf_encodes (hs : s.Sound vs) (hx : x ∈ vs) :
    Encodes vs s (indicesOf x) (x.type.isReal = false) fun s' ixs => IndicesOf s'.slots x ixs := by
  unfold indicesOf
  refine (widthOf_encodes hs x.type).bind_total fun s₁ n hg hn => ?_
  refine (slotOf_encodes hg.new hx).bind_total fun s₂ slot hg' hSlot => ?_
  exact .pure hg'.new ⟨by simpa using hn, slot, hSlot, by simp⟩

/-- The indices of a variable are those of its bits. -/
theorem IndicesOf.mem_iff {slots : Slots} {ixs : List Nat} (h : IndicesOf slots x ixs) (v : Nat) :
    v ∈ ixs ↔ ∃ i, IsBit slots x i v := by
  obtain ⟨hWidth, slot, hSlot, hixs⟩ := h
  rw [hixs, List.mem_map]
  constructor
  · rintro ⟨i, hi, rfl⟩
    exact ⟨i, _, slot, hWidth, hSlot, List.mem_range.mp hi, rfl⟩
  · rintro ⟨i, n, slot', hn, hSlot', hi, rfl⟩
    obtain rfl := Option.some.inj (hWidth.symm.trans hn)
    obtain rfl := Option.some.inj (hSlot.symm.trans hSlot')
    exact ⟨i, List.mem_range.mpr hi, rfl⟩

theorem IndicesOf.grows {ixs : List Nat} (h : IndicesOf s.slots x ixs) (hg : s.Grows vs s') :
    IndicesOf s'.slots x ixs := by
  obtain ⟨slot, hSlot, hixs⟩ := h.slot
  exact ⟨h.width, slot, hg.slots hSlot, hixs⟩

/-- The indices of a list are collected variable by variable. -/
theorem Collects.cons {slots : Slots} {xs : List Variable} {ixs rest : List Nat}
    (hx : IndicesOf slots x ixs) (hxs : Collects slots xs rest) :
    Collects slots (x :: xs) (ixs ++ rest) := by
  constructor
  · intro y hy
    rcases List.mem_cons.mp hy with rfl | hy
    · obtain ⟨slot, hSlot, -⟩ := hx.slot
      exact ⟨_, slot, hx.width, hSlot⟩
    · exact hxs.known y hy
  · intro v
    rw [List.mem_append, hx.mem_iff, hxs.mem_iff]
    simp only [List.mem_cons, exists_eq_or_imp]

/-- Collected indices stay right while slots are added. -/
theorem Collects.grows {xs : List Variable} {ixs : List Nat} (h : Collects s.slots xs ixs)
    (hg : s.Grows vs s') : Collects s'.slots xs ixs := by
  refine ⟨fun x hx => ?_, fun v => ?_⟩
  · obtain ⟨n, slot, hn, hSlot⟩ := h.known x hx
    exact ⟨n, slot, hn, hg.slots hSlot⟩
  · rw [h.mem_iff]
    refine exists_congr fun x => and_congr_right fun hx => exists_congr fun i => ?_
    obtain ⟨-, slot, -, hSlot⟩ := h.known x hx
    unfold IsBit
    rw [hSlot, hg.slots hSlot]

/-- The decision variables of a list of variables. -/
theorem flatMapM_indicesOf_encodes {xs : List Variable} (hs : s.Sound vs) (hxs : ∀ x ∈ xs, x ∈ vs) :
    Encodes vs s (xs.flatMapM indicesOf) (xs.any (·.type.isReal) = false) fun s' ixs =>
      Collects s'.slots xs ixs := by
  induction xs generalizing s with
  | nil =>
    rw [List.flatMapM_nil]
    exact (Encodes.pure hs ⟨by simp, by simp⟩).iff (by simp)
  | cons x xs ih =>
    have hx := hxs x List.mem_cons_self
    have hRest := fun y hy => hxs y (List.mem_cons_of_mem x hy)
    suffices h : Encodes vs s ((x :: xs).flatMapM indicesOf)
        (x.type.isReal = false ∧ xs.any (·.type.isReal) = false)
        fun s' ixs => Collects s'.slots (x :: xs) ixs from h.iff (by simp)
    rw [List.flatMapM_cons]
    refine (indicesOf_encodes hs hx).bind fun s₁ ixs hg hixs => ?_
    refine (ih hg.new hRest).bind_total fun s₂ rest hg' hCollects => ?_
    exact .pure hg'.new (.cons (hixs.grows hg') hCollects)

/-- The variables of some indices spell the number that an assignment gives them. -/
theorem mapM_mkVariable_builds {m : Manager} (ixs : List Nat) (hs : m.Sound)
    (hixs : ∀ v ∈ ixs, v ≠ 0) :
    Builds m (ixs.mapM mkVariable) fun m' w =>
      Spells m' w ixs.length fun a => value (ixs.map a) := by
  induction ixs generalizing m with
  | nil => exact .pure hs (Spells.nil m)
  | cons v ixs ih =>
    rw [List.mapM_cons]
    refine (mkVariable_builds hs (hixs v List.mem_cons_self)).bind fun m₁ e hg he => ?_
    refine (ih hg.new fun u hu => hixs u (List.mem_cons_of_mem v hu)).bind_pure
      fun m₂ w hg' hw => ?_
    exact hw.cons (he.grows hg')

/-- A variable becomes the word of its bits, which render its value. -/
theorem variableWord_encodes [Reals] (hs : s.Sound vs) (hx : x ∈ vs) :
    Encodes vs s (variableWord x) (x.type.isReal = false) fun s' w =>
      x ∈ s'.slots ∧ Renders s'.diagram w x.type fun a => (decode s'.slots a).get x := by
  unfold variableWord
  refine (indicesOf_encodes hs hx).bind_total fun s₁ ixs hg hixs => ?_
  obtain ⟨slot, hSlot, hMap⟩ := hixs.slot
  have hne : ∀ v ∈ ixs, v ≠ 0 := by
    intro v hv
    obtain ⟨i, -, slot, -, -, -, rfl⟩ := (hixs.mem_iff v).mp hv
    exact Nat.succ_ne_zero _
  refine (Encodes.lift hg.new (mapM_mkVariable_builds ixs hg.new.diagram hne)).mono
    fun s₂ w _ hw => ?_
  obtain ⟨hSlots, hw⟩ := hw
  rw [hSlots]
  have hReal : x.type.isReal = false := ValueType.isReal_eq_false_iff.mpr ⟨_, hixs.width⟩
  simp only [Environment.get, ValueType.hold_eq_wrap hReal]
  refine ⟨?_, renders_wrap hixs.width hw fun a => ?_⟩
  · rw [Std.HashMap.mem_iff_isSome_getElem?, hSlot]
    rfl
  · rw [bits_decode hixs.width hSlot]
    nth_rewrite 1 [hMap]
    rw [List.map_map]
    rfl

end StateSpace.Circuit
