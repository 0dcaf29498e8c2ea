import StateSpace.Proofs.Circuit.Encoding
import StateSpace.Proofs.Diagram.Operations

/-!
# The function of an expression is its value

Encoders are used in any order with their manager: expressions are encoded, the decision variables
of variables are asked for, and the manager builds other functions in between. In every encoder
reached in this way, over no more variables than there are slots at a bit, the word of an expression
spells its value, and the function of a formula is its truth (`encoding_keeps_meaning`).
-/

namespace StateSpace.Circuit

open StateSpace.Diagram Manager Environment

/-! ## Reached encoders -/

/-- The encoders that a client can reach on a manager while it works with the variables `vs`. -/
inductive Encoder.Reached (vs : Finset Variable) : Encoder → Prop
  | new {d : Manager} (hd : Diagram.Reached d) : Reached vs (.ofManager d)
  | indices {s : Encoder} {x : Variable} (hs : Reached vs s) (hx : x ∈ vs) :
      Reached vs ((indicesOf x).leaves s)
  | word {s : Encoder} {e : Expr} (hs : Reached vs s) (he : ∀ x ∈ e.occurring, x ∈ vs) :
      Reached vs ((wordOf e).leaves s)
  | function {s : Encoder} {e : Expr} (hs : Reached vs s) (he : ∀ x ∈ e.occurring, x ∈ vs) :
      Reached vs ((functionOf e).leaves s)
  | operate {s : Encoder} {op : Operation} (hs : Reached vs s) (hop : op.Allowed s.diagram) :
      Reached vs ⟨(op.run s.diagram).2, s.slots⟩

variable {vs : Finset Variable} {s s' : Encoder} {e : Expr} {x : Variable} {a : Assignment}
  {ρ : Environment}

theorem sound_ofManager {d : Manager} (hd : d.Sound) : (Encoder.ofManager d).Sound vs := by
  refine ⟨hd, ?_, ?_, ?_⟩ <;> simp [Encoder.ofManager]

theorem functionOf_encodes [Reals] (hvs : vs.card ≤ slotCount) (he : ∀ x ∈ e.occurring, x ∈ vs)
    (hs : s.Sound vs) :
    Encodes vs s (functionOf e) (e.type.isBool = true ∧ e.Encodable) fun s' f => Decides s' e f :=
  (wordOf_encodes hvs e he).formula hs

/-- Using the manager of an encoder leaves its slots alone. -/
theorem Encoder.Sound.operate {op : Operation} (hs : s.Sound vs) (hop : op.Allowed s.diagram) :
    s.Grows vs ⟨(op.run s.diagram).2, s.slots⟩ := by
  have hGrows := (Operation.run_builds hs.diagram hop).grows
  exact ⟨hGrows, id, hs, hGrows.new, hs.injective, hs.lt_size, hs.mem⟩

/-- What an encoder can reach is sound, as long as there are slots enough. -/
theorem Encoder.Reached.sound (hvs : vs.card ≤ slotCount) (h : Encoder.Reached vs s) :
    s.Sound vs := by
  -- expressions with reals are refused, so that any meaning of them will do
  let := Reals.wholes
  induction h with
  | new hd => exact sound_ofManager hd.sound
  | indices _ hx ih => exact (indicesOf_encodes ih hx).grows.new
  | word _ he ih => exact (wordOf_encodes hvs _ he ih).grows.new
  | function _ he ih => exact (functionOf_encodes hvs he ih).grows.new
  | operate _ hop ih => exact (ih.operate hop).new

/-! ## The bits of an environment -/

/-- On an assignment the decision variables of the free variables of an expression carry the bits of
their values, the lowest bit first. -/
def Carries (s : Encoder) (e : Expr) (a : Assignment) (ρ : Environment) : Prop :=
  ∀ x ∈ e.freeVariables, ∃ ixs, indicesOf x s = .ok ixs s ∧
    ixs.map a = (List.range ixs.length).map (x.type.bits (ρ x)).testBit

/-- The decision variables of a variable that has a slot are known without another step. -/
theorem indicesOf_eq_ok {n slot : Nat} (hn : x.type.width? = some n)
    (hSlot : s.slots[x]? = some slot) :
    indicesOf x s = .ok ((List.range n).map (bitIndex slot)) s := by
  simp only [indicesOf, widthOf, slotOf, hn, hSlot, Bind.bind, EStateM.bind, Pure.pure,
    EStateM.pure]

/-- A variable of a type without bits is refused, and the encoder stays as it is. -/
theorem indicesOf_eq_error (hn : x.type.width? = none) :
    indicesOf x s = .error (.noBits x.type) s := by
  simp only [indicesOf, widthOf, hn, Bind.bind, EStateM.bind]
  rfl

/-- The free variables of an encoded expression have a width and a slot. -/
theorem exists_width_slot (he : e.Encodable) (hKnown : ∀ x, e.Free x → x ∈ s.slots) :
    ∀ x ∈ e.freeVariables, ∃ n slot, x.type.width? = some n ∧ s.slots[x]? = some slot := by
  intro x hx
  have hFree := Expr.mem_freeVariables.mp hx
  obtain ⟨n, hn⟩ := ValueType.isReal_eq_false_iff.mp (he _ (Expr.var_mem_parts hFree))
  exact ⟨n, _, hn, Std.HashMap.getElem?_eq_some_getElem (hKnown x hFree)⟩

/-- Every environment has its bits on some assignment. -/
theorem exists_carries (hap : Apart s.slots) (he : e.Encodable)
    (hKnown : ∀ x, e.Free x → x ∈ s.slots) (ρ : Environment) : ∃ a, Carries s e a ρ := by
  refine ⟨setBits s.slots (fun _ => True) ρ fun _ => false, fun x hx => ?_⟩
  obtain ⟨n, slot, hn, hSlot⟩ := exists_width_slot he hKnown x hx
  refine ⟨_, indicesOf_eq_ok hn hSlot, ?_⟩
  rw [List.map_map, List.length_map, List.length_range]
  refine List.map_congr_left fun i hi => ?_
  exact setBits_of_isBit hap trivial ⟨n, slot, hn, hSlot, List.mem_range.mp hi, rfl⟩

section Meaning

variable [Reals]

/-- On an assignment that carries its bits, an environment is what the assignment decodes to. -/
theorem Carries.eval_eq (h : Carries s e a ρ) (hs : s.Sound vs) (hMem : ∀ x, e.Free x → x ∈ vs) :
    e.eval (decode s.slots a) = e.eval ρ := by
  refine e.eval_congr fun x hx => ?_
  obtain ⟨ixs, hRun, hBits⟩ := h x (Expr.mem_freeVariables.mpr hx)
  obtain ⟨-, -, hixs⟩ := (indicesOf_encodes hs (hMem x hx)).of_eq_ok hRun
  obtain ⟨slot, hSlot, hMap⟩ := hixs.slot
  rw [hMap, List.map_map, List.length_map, List.length_range, List.map_inj_left] at hBits
  refine get_decode hixs.width hSlot fun i v hv => ?_
  obtain ⟨n, slot', hn, hSlot', hi, rfl⟩ := hv
  obtain rfl := Option.some.inj (hSlot.symm.trans hSlot')
  obtain rfl := Option.some.inj (hixs.width.symm.trans hn)
  exact hBits i (List.mem_range.mpr hi)

/-! ## The meaning of words and functions -/

theorem Encoded.value_eq {w : Word} (h : Encoded s e w) (hs : s.Sound vs)
    (hMem : ∀ x, e.Free x → x ∈ vs) (hc : Carries s e a ρ) :
    (value (w.map (s.diagram.eval a)) : Int) = e.eval ρ % 2 ^ w.length := by
  rw [h.renders.spells.value_eq, hc.eval_eq hs hMem, ValueType.cast_bits,
    ValueType.cast_modulus h.renders.width]

theorem Decides.eval_eq {f : Edge} (h : Decides s e f) (hs : s.Sound vs)
    (hMem : ∀ x, e.Free x → x ∈ vs) (hc : Carries s e a ρ) :
    s.diagram.eval a f = e.holds ρ := by
  rw [h.means.eval_eq, Expr.holds, Expr.holds, hc.eval_eq hs hMem]

/-- The bits of an encoded expression are the ones that spell its value. -/
theorem Encoded.map_eval {w : Word} (h : Encoded s e w) (hs : s.Sound vs)
    (hMem : ∀ x, e.Free x → x ∈ vs) (hc : Carries s e a ρ) {bs : List Bool}
    (hLen : bs.length = w.length) (hbs : value bs = e.type.bits (e.eval ρ)) :
    w.map (s.diagram.eval a) = bs := by
  refine value_injective (by rw [List.length_map, hLen]) ?_
  rw [h.renders.spells.value_eq, hc.eval_eq hs hMem, hbs]

section Reached

variable (hvs : vs.card ≤ slotCount) (hs : Encoder.Reached vs s) (he : e.Encodable)
  (hMem : ∀ x ∈ e.occurring, x ∈ vs)

include hvs hs he hMem

theorem exists_encoded :
    ∃ w s', wordOf e s = .ok w s' ∧ s'.Sound vs ∧ Encoded s' e w ∧ ∀ ρ, ∃ a, Carries s' e a ρ := by
  have hWord := wordOf_encodes hvs e hMem (hs.sound hvs)
  obtain ⟨w, s', hRun⟩ := hWord.exists_ok_iff.mpr he
  obtain ⟨-, hg, hw⟩ := hWord.of_eq_ok hRun
  exact ⟨w, s', hRun, hg.new, hw, exists_carries (hg.new.apart hvs) he hw.known⟩

/-- The value of an encodable expression is in the range of its type, as its word is. -/
theorem fits_eval (ρ : Environment) : e.type.Fits (e.eval ρ) := by
  obtain ⟨w, s', -, hs', hw, hCarries⟩ := exists_encoded hvs hs he hMem
  obtain ⟨a, hc⟩ := hCarries ρ
  rw [← hc.eval_eq hs' fun x hx => hMem x (Expr.mem_occurring hx)]
  exact hw.renders.fits a

end Reached

/-- **Encoding keeps the meaning.** Over at most `2 ^ 20` variables, whatever the encoder and its
manager were used for before: exactly the encodable formulas have a function and exactly the
encodable expressions a word. The function is the truth of the formula on the bits of every
environment, the word has the width of its type and spells the value modulo two to that width, and
every environment has its bits on some assignment. -/
theorem encoding_keeps_meaning {vs : Finset Variable} (hvs : vs.card ≤ slotCount) {s : Encoder}
    (hs : Encoder.Reached vs s) {e : Expr} (he : ∀ x ∈ e.occurring, x ∈ vs) :
    ((∃ f s', functionOf e s = .ok f s') ↔ e.type = .bool ∧ e.Encodable) ∧
    ((∃ w s', wordOf e s = .ok w s') ↔ e.Encodable) ∧
    (∀ f s', functionOf e s = .ok f s' →
      (∀ ρ, ∃ a, Carries s' e a ρ) ∧
      ∀ a ρ, Carries s' e a ρ → s'.diagram.eval a f = e.holds ρ) ∧
    (∀ w s', wordOf e s = .ok w s' →
      e.type.width? = some w.length ∧ (∀ ρ, ∃ a, Carries s' e a ρ) ∧
      ∀ a ρ, Carries s' e a ρ →
        (value (w.map (s'.diagram.eval a)) : Int) = e.eval ρ % 2 ^ w.length) := by
  have hSound := hs.sound hvs
  have hMem : ∀ x, e.Free x → x ∈ vs := fun x hx => he x (Expr.mem_occurring hx)
  have hFunction := functionOf_encodes hvs he hSound
  have hWord := wordOf_encodes hvs e he hSound
  rw [← ValueType.isBool_iff]
  refine ⟨hFunction.exists_ok_iff, hWord.exists_ok_iff, ?_, ?_⟩
  · intro f s' hRun
    obtain ⟨⟨-, hEnc⟩, hg, hf⟩ := hFunction.of_eq_ok hRun
    exact ⟨exists_carries (hg.new.apart hvs) hEnc hf.known, fun a ρ => hf.eval_eq hg.new hMem⟩
  · intro w s' hRun
    obtain ⟨hEnc, hg, hw⟩ := hWord.of_eq_ok hRun
    exact ⟨hw.renders.width, exists_carries (hg.new.apart hvs) hEnc hw.known,
      fun a ρ => hw.value_eq hg.new hMem⟩

/-- The remainder of a signed division, compared with a constant. -/
def remainderExample : Expr :=
  .compare .lt (.arith .rem (.var ⟨"x", .signed .w8⟩) (.var ⟨"y", .signed .w8⟩))
    (.const (.int (-3) (.signed .w8)))

end Meaning

open scoped Reals

/-- The encoding of a formula with a signed remainder succeeds and is its truth. -/
theorem encoding_keeps_meaning_remainderExample :
    remainderExample.occurring.toFinset.card ≤ slotCount ∧
    Encoder.Reached remainderExample.occurring.toFinset (.ofManager twoVariables) ∧
    ∃ f s', functionOf remainderExample (.ofManager twoVariables) = .ok f s' ∧
      ∀ a ρ, Carries s' remainderExample a ρ → s'.diagram.eval a f = remainderExample.holds ρ := by
  have hvs : remainderExample.occurring.toFinset.card ≤ slotCount := by decide
  have hMem : ∀ x ∈ remainderExample.occurring, x ∈ remainderExample.occurring.toFinset :=
    fun x hx => List.mem_toFinset.mpr hx
  have hs : Encoder.Reached remainderExample.occurring.toFinset (.ofManager twoVariables) :=
    .new reached_twoVariables
  obtain ⟨hFunction, -, hMeaning, -⟩ := encoding_keeps_meaning hvs hs hMem
  obtain ⟨f, s', hRun⟩ := hFunction.mpr (by decide)
  exact ⟨hvs, hs, f, s', hRun, (hMeaning f s' hRun).2⟩

end StateSpace.Circuit
