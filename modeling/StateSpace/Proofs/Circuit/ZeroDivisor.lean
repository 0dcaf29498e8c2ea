import StateSpace.Proofs.Circuit.Meaning

/-!
# Division by zero

The divider takes the divisor off wherever it fits. A zero divisor always fits, so every bit of the
quotient of magnitudes is set, and taking it off changes nothing, so the dividend remains. Signed
division corrects the signs afterwards as it does for any quotient: a negative dividend turns the
quotient of all ones, which is -1, into 1, and the remainder gets the sign of the dividend back.

So the remainder by zero is the dividend at every type, and the quotient has all bits set unless the
dividend is negative (`division_by_zero`).
-/

namespace StateSpace.Circuit

open StateSpace.Diagram Manager Environment ValueType

variable {vs : Finset Variable} {s : Encoder} {l r : Expr} {w : Word} {a : Assignment}
  {ρ : Environment} {t : ValueType} {k : Nat}

/-- The value of an operation whose right operand is zero. -/
theorem eval_arith_zero [Reals] (op : Arithmetic) (hl : l.type.isReal = false)
    (hr : r.type.isReal = false) (hZero : r.eval ρ = 0) :
    (Expr.arith op l r).eval ρ = op.eval l.type (l.eval ρ) 0 := by
  rw [Expr.eval_arith op hl hr, hZero, l.type.fits_zero]

/-- The number that the bits of a quotient by zero spell. -/
theorem bits_quotient_zero (ht : t.width? = some (k + 1)) (v : Int) :
    t.bits (Arithmetic.div.eval t v 0) = if v < 0 then 1 else 2 ^ (k + 1) - 1 := by
  rw [Arithmetic.eval, if_pos rfl]
  split
  · have hlt : 1 < 2 ^ (k + 1) := Nat.one_lt_two_pow (Nat.succ_ne_zero k)
    rw [← Nat.mod_eq_of_lt hlt, ← bits_natCast ht, Nat.cast_one]
  · rw [bits_wrap, bits_neg_one ht]

section Meaning

variable [Reals]

/-- The bits of a quotient by zero. -/
theorem Encoded.quotient_zero (h : Encoded s (.arith .div l r) w) (hs : s.Sound vs)
    (hMem : ∀ x, (Expr.arith .div l r).Free x → x ∈ vs) (hc : Carries s (.arith .div l r) a ρ)
    (hr : r.type.isReal = false) (hZero : r.eval ρ = 0) :
    w.map (s.diagram.eval a) =
      if l.eval ρ < 0 then true :: List.replicate (w.length - 1) false
      else List.replicate w.length true := by
  have hLen : l.type.width? = some w.length := h.renders.width
  obtain ⟨k, hk⟩ := exists_width_eq_succ hLen
  have hValue := bits_quotient_zero (hk ▸ hLen) (l.eval ρ)
  rw [← eval_arith_zero .div (l := l) h.isReal_eq_false hr hZero] at hValue
  refine h.map_eval hs hMem hc ?_ (Eq.trans ?_ hValue.symm)
  · split <;> simp [hk]
  · split <;> simp [value_replicate, hk]

/-- The bits of a remainder by zero. -/
theorem Encoded.remainder_zero (h : Encoded s (.arith .rem l r) w) (hs : s.Sound vs)
    (hMem : ∀ x, (Expr.arith .rem l r).Free x → x ∈ vs) (hc : Carries s (.arith .rem l r) a ρ)
    (hr : r.type.isReal = false) (hZero : r.eval ρ = 0) :
    w.map (s.diagram.eval a) = (List.range w.length).map (l.type.bits (l.eval ρ)).testBit := by
  have hLen : l.type.width? = some w.length := h.renders.width
  refine h.map_eval hs hMem hc (by rw [List.length_map, List.length_range]) ?_
  rw [value_map_testBit, Nat.mod_eq_of_lt (bits_lt hLen _),
    eval_arith_zero .rem (l := l) h.isReal_eq_false hr hZero]
  rfl

/-- **Division by zero.** Over at most `2 ^ 20` variables, whatever the encoder was used for before:
the quotient and the remainder of encodable operands of one width have words of that width. Wherever
the divisor is zero, the bits of the remainder are those of the dividend. The bits of the quotient
are all set if the dividend is not negative; if it is, which takes a signed type, the quotient is
1. -/
theorem division_by_zero {vs : Finset Variable} (hvs : vs.card ≤ slotCount) {s : Encoder}
    (hs : Encoder.Reached vs s) {l r : Expr} (hl : l.Encodable) (hr : r.Encodable)
    (hWidth : l.type.width? = r.type.width?) (hMem : ∀ x ∈ l.occurring ++ r.occurring, x ∈ vs) :
    (∃ q s', wordOf (.arith .div l r) s = .ok q s' ∧ l.type.width? = some q.length ∧
      (∀ ρ, ∃ a, Carries s' (.arith .div l r) a ρ) ∧
      ∀ a ρ, Carries s' (.arith .div l r) a ρ → r.eval ρ = 0 →
        (0 ≤ l.eval ρ → q.map (s'.diagram.eval a) = List.replicate q.length true) ∧
        (l.eval ρ < 0 → l.type.isSigned = true ∧
          q.map (s'.diagram.eval a) = true :: List.replicate (q.length - 1) false)) ∧
    ∃ p s', wordOf (.arith .rem l r) s = .ok p s' ∧ l.type.width? = some p.length ∧
      (∀ ρ, ∃ a, Carries s' (.arith .rem l r) a ρ) ∧
      ∀ a ρ, Carries s' (.arith .rem l r) a ρ → r.eval ρ = 0 →
        p.map (s'.diagram.eval a) = (List.range p.length).map (l.type.bits (l.eval ρ)).testBit := by
  have hEncodable := fun op => (Expr.encodable_arith (l := l) (r := r) op).mpr ⟨hWidth, hl, hr⟩
  have hFree : ∀ op x, (Expr.arith op l r).Free x → x ∈ vs := fun op x hx =>
    hMem x (Expr.mem_occurring hx)
  have hReal : ∀ {n : Nat}, l.type.width? = some n → r.type.isReal = false := fun {n} hn =>
    isReal_eq_false_iff.mpr ⟨n, hWidth ▸ hn⟩
  constructor
  · obtain ⟨q, s', hRun, hs', hq, hCarries⟩ := exists_encoded hvs hs (hEncodable .div) hMem
    have hLen : l.type.width? = some q.length := hq.renders.width
    refine ⟨q, s', hRun, hLen, hCarries, fun a ρ hc hZero => ?_⟩
    have hBits := hq.quotient_zero hs' (hFree .div) hc (hReal hLen) hZero
    refine ⟨fun hPos => ?_, fun hNeg => ⟨?_, ?_⟩⟩
    · rwa [if_neg (Int.not_lt.mpr hPos)] at hBits
    · by_contra hUnsigned
      have hFits := fits_eval hvs hs hl (fun x hx => hMem x (List.mem_append_left _ hx)) ρ
      have := ((fits_unsigned_iff hLen (by simpa using hUnsigned)).mp hFits).1
      omega
    · rwa [if_pos hNeg] at hBits
  · obtain ⟨p, s', hRun, hs', hp, hCarries⟩ := exists_encoded hvs hs (hEncodable .rem) hMem
    have hLen : l.type.width? = some p.length := hp.renders.width
    exact ⟨p, s', hRun, hLen, hCarries,
      fun a ρ hc hZero => hp.remainder_zero hs' (hFree .rem) hc (hReal hLen) hZero⟩

end Meaning

open scoped Reals

/-- A variable of eight bits with a sign. -/
def signedByte (name : String) : Expr :=
  .var ⟨name, .signed .w8⟩

/-- The variables of a quotient of two signed bytes. -/
def byteVariables : Finset Variable :=
  ((signedByte "x").occurring ++ (signedByte "y").occurring).toFinset

/-- Where the dividend is -5 and the divisor is zero, the quotient of two signed bytes is 1. -/
theorem division_by_zero_signedByte :
    byteVariables.card ≤ slotCount ∧ Encoder.Reached byteVariables (.ofManager twoVariables) ∧
      (signedByte "x").Encodable ∧ (signedByte "y").Encodable ∧
      ∃ q s' a, wordOf (.arith .div (signedByte "x") (signedByte "y")) (.ofManager twoVariables) =
          .ok q s' ∧
        q.map (s'.diagram.eval a) = [true, false, false, false, false, false, false, false] := by
  have hvs : byteVariables.card ≤ slotCount := by decide
  have hs : Encoder.Reached byteVariables (.ofManager twoVariables) := .new reached_twoVariables
  have hl : (signedByte "x").Encodable := by decide
  have hr : (signedByte "y").Encodable := by decide
  obtain ⟨⟨q, s', hRun, hWidth, hCarries, hBits⟩, -⟩ :=
    division_by_zero hvs hs hl hr rfl fun x hx => List.mem_toFinset.mpr hx
  obtain ⟨a, ha⟩ := hCarries fun x => if x.name = "x" then -5 else 0
  have hLen : q.length = 8 := (Option.some.inj hWidth).symm
  obtain ⟨-, hWord⟩ := (hBits a _ ha (by decide)).2 (by decide)
  rw [hLen] at hWord
  exact ⟨hvs, hs, hl, hr, q, s', a, hRun, hWord⟩

/-- The signed byte -5 divided by zero. -/
def minusFiveByZero : Expr :=
  .arith .div (.const (.int (-5) (.signed .w8))) (.const (.int 0 (.signed .w8)))

/-- The quotient of the signed byte -5 by zero does not have all bits set. -/
theorem negative_quotient_by_zero :
    ∃ q s', wordOf minusFiveByZero (.ofManager (.empty 16)) = .ok q s' ∧
      ∀ a, q.map (s'.diagram.eval a) ≠ List.replicate 8 true := by
  have hNew : Diagram.Reached (.empty 16) :=
    .new (show Manager.empty? 16 = some (.empty 16) from rfl)
  have hMem : ∀ x ∈ minusFiveByZero.occurring, x ∈ (∅ : Finset Variable) := by decide
  obtain ⟨q, s', hRun, hs', hq, -⟩ :=
    exists_encoded (Nat.zero_le _) (.new hNew) (by decide : minusFiveByZero.Encodable) hMem
  refine ⟨q, s', hRun, fun a => ?_⟩
  -- there are no variables whose bits an assignment could carry
  have hCarries : Carries s' minusFiveByZero a fun _ => 0 := fun x hx => by cases hx
  have hLen : q.length = 8 := (Option.some.inj hq.renders.width).symm
  rw [hq.quotient_zero hs' (fun x hx => hMem x (Expr.mem_occurring hx)) hCarries rfl (by decide),
    hLen]
  decide

end StateSpace.Circuit
