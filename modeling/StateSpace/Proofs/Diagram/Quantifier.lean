import StateSpace.Diagram.Quantifier
import StateSpace.Proofs.Diagram.Ite

/-!
# Quantification over variables is quantification over assignments

`somewhere V F` is true on an assignment if `F` can be made true by changing the variables of `V`
only; `everywhere V F` if no such change makes `F` false. `existsOver` and `forallOver` build these
functions (`existsOver_builds`, `forallOver_builds`). The induction follows the recursion of
`existsUpTo`; what it carries along is that every memo entry is a right answer.
-/

namespace StateSpace.Diagram

open Manager

/-! ## Quantified functions -/

/-- Two assignments that differ on the variables of `V` only. -/
def AgreeOff (V : Nat → Prop) (a b : Assignment) : Prop :=
  ∀ v, ¬ V v → b v = a v

open Classical in
/-- Whether a function can be made true by changing the variables of `V`. -/
noncomputable def somewhere (V : Nat → Prop) (F : Assignment → Bool) (a : Assignment) : Bool :=
  decide (∃ b, AgreeOff V a b ∧ F b = true)

open Classical in
/-- Whether a function stays true however the variables of `V` are changed. -/
noncomputable def everywhere (V : Nat → Prop) (F : Assignment → Bool) (a : Assignment) : Bool :=
  decide (∀ b, AgreeOff V a b → F b = true)

section Functions

variable {V : Nat → Prop} {F L H : Assignment → Bool} {a b : Assignment} {v : Nat}

theorem somewhere_eq_true : somewhere V F a = true ↔ ∃ b, AgreeOff V a b ∧ F b = true := by
  simp [somewhere]

theorem everywhere_eq_true : everywhere V F a = true ↔ ∀ b, AgreeOff V a b → F b = true := by
  simp [everywhere]

theorem not_somewhere_not : (!somewhere V (fun a => !F a) a) = everywhere V F a := by
  rw [Bool.eq_iff_iff, everywhere_eq_true, Bool.not_eq_true', ← Bool.not_eq_true, somewhere_eq_true]
  simp only [Bool.not_eq_true', not_exists, not_and, Bool.not_eq_false]

theorem AgreeOff.update (h : AgreeOff V a b) (hv : V v) (c : Bool) :
    AgreeOff V a (Function.update b v c) := by
  intro u hu
  have hne : u ≠ v := by
    rintro rfl
    exact hu hv
  rw [Function.update_of_ne hne, h u hu]

/-- Without variables to change there is nothing to quantify. -/
theorem somewhere_of_none (hV : ∀ v, ¬ V v) : somewhere V F a = F a := by
  rw [Bool.eq_iff_iff, somewhere_eq_true]
  constructor
  · rintro ⟨b, hab, hb⟩
    have : b = a := funext fun v => hab v (hV v)
    exact this ▸ hb
  · intro ha
    exact ⟨a, fun _ _ => rfl, ha⟩

/-- A constant stays the constant under quantification. -/
theorem somewhere_const (c : Bool) : somewhere V (fun _ => c) a = c := by
  rw [Bool.eq_iff_iff, somewhere_eq_true]
  exact ⟨fun ⟨_, _, hb⟩ => hb, fun hc => ⟨a, fun _ _ => rfl, hc⟩⟩

/-- Quantification keeps a function of later variables one. -/
theorem somewhere_congr (hF : ∀ a b : Assignment, (∀ u, v < u → a u = b u) → F a = F b)
    (hab : ∀ u, v < u → a u = b u) : somewhere V F a = somewhere V F b := by
  have hImp : ∀ {a b : Assignment}, (∀ u, v < u → a u = b u) →
      somewhere V F a = true → somewhere V F b = true := by
    intro a b hab h
    obtain ⟨c, hac, hc⟩ := somewhere_eq_true.mp h
    -- beyond `v` follow the old choice, up to `v` the other assignment
    refine somewhere_eq_true.mpr ⟨fun u => if v < u then c u else b u, fun u hu => ?_, ?_⟩
    · by_cases hlt : v < u
      · simp only [if_pos hlt]
        rw [hac u hu, hab u hlt]
      · simp only [if_neg hlt]
    · rw [← hc]
      exact hF _ _ fun u hu => by simp only [if_pos hu]
  rw [Bool.eq_iff_iff]
  exact ⟨hImp hab, hImp fun u hu => (hab u hu).symm⟩

/-- Changing the variable of a decision reaches both of its cases. -/
theorem somewhere_split_mem (hv : V v) (hF : ∀ a, F a = if a v then H a else L a)
    (hL : ∀ a c, L (Function.update a v c) = L a) (hH : ∀ a c, H (Function.update a v c) = H a) :
    somewhere V F a = (somewhere V L a || somewhere V H a) := by
  rw [Bool.eq_iff_iff, Bool.or_eq_true, somewhere_eq_true, somewhere_eq_true, somewhere_eq_true]
  constructor
  · rintro ⟨b, hab, hb⟩
    rw [hF] at hb
    split at hb
    · exact .inr ⟨b, hab, hb⟩
    · exact .inl ⟨b, hab, hb⟩
  · rintro (⟨b, hab, hb⟩ | ⟨b, hab, hb⟩)
    · refine ⟨Function.update b v false, hab.update hv false, ?_⟩
      rw [hF, Function.update_self, if_neg Bool.false_ne_true, hL, hb]
    · refine ⟨Function.update b v true, hab.update hv true, ?_⟩
      rw [hF, Function.update_self, if_pos rfl, hH, hb]

/-- The variable of a decision that is not changed decides as before. -/
theorem somewhere_split_notMem (hv : ¬ V v) (hF : ∀ a, F a = if a v then H a else L a) :
    somewhere V F a = if a v then somewhere V H a else somewhere V L a := by
  have hSame : ∀ {G : Assignment → Bool}, (∀ b, b v = a v → F b = G b) →
      somewhere V F a = somewhere V G a := by
    intro G hG
    rw [Bool.eq_iff_iff, somewhere_eq_true, somewhere_eq_true]
    exact exists_congr fun b => and_congr_right fun hab => by rw [hG b (hab v hv)]
  cases hav : a v with
  | true => exact hSame fun b hb => by rw [hF, hb, hav, if_pos rfl]
  | false => exact hSame fun b hb => by rw [hF, hb, hav, if_neg Bool.false_ne_true]

end Functions

/-! ## Existential quantification -/

/-- A decision after quantification, from its two cases after quantification. -/
def joinCases (vs : Std.HashSet Nat) (v : Nat) (low high : Edge) : Build Edge :=
  if vs.contains v then or low high else mkNode v low high

/-- One call of a quantification, as a building step that carries its memo. -/
theorem existsUpTo_succ (vs : Std.HashSet Nat) (bound : Nat) (f : Edge) (memo : QuantifierMemo) :
    existsUpTo vs (bound + 1) f memo =
      if f.isTerminal then pure (f, memo)
      else match memo[f]? with
        | some e => pure (e, memo)
        | none => (do
          let m ← get
          let low ← existsUpTo vs bound (m.low f) memo
          let high ← existsUpTo vs bound (m.high f) low.2
          let e ← joinCases vs (m.topVar f) low.1 high.1
          pure (e, high.2.insert f e)) := by
  rw [existsUpTo]
  funext m
  cases f.isTerminal with
  | true => rfl
  | false =>
    change (match memo[f]? with
      | some e => (pure e : StateT QuantifierMemo Build Edge)
      | none => _) memo m = _
    cases memo[f]? with
    | some e => rfl
    | none =>
      change (if vs.contains (m.topVar f) then _ else _ : StateT QuantifierMemo Build Edge) _ _ =
        (joinCases vs (m.topVar f) _ _ >>= fun _ => _ : Build _) _
      unfold joinCases
      cases vs.contains (m.topVar f) <;> rfl

/-- A memo whose entries are right. -/
def MemoSound (V : Nat → Prop) (m : Manager) (memo : QuantifierMemo) : Prop :=
  ∀ f e, memo[f]? = some e → m.Holds f ∧ m.Means e (somewhere V fun a => m.eval a f)

section Quantification

variable {V : Nat → Prop} {m m' : Manager} {f e : Edge} {memo : QuantifierMemo}

theorem somewhere_eval_grows (hg : m.Grows m') (hf : m.Holds f) (a : Assignment) :
    somewhere V (fun a => m'.eval a f) a = somewhere V (fun a => m.eval a f) a := by
  have hEval : (fun a => m'.eval a f) = fun a => m.eval a f :=
    funext (eval_extends hg.old.toWellFormed hg.new.toWellFormed hg.toExtends hf)
  rw [hEval]

theorem MemoSound.grows (h : MemoSound V m memo) (hg : m.Grows m') : MemoSound V m' memo := by
  intro f e hfe
  obtain ⟨hf, he⟩ := h f e hfe
  exact ⟨hf.extends hg.toExtends,
    (he.grows hg).congr fun a => (somewhere_eval_grows hg hf a).symm⟩

/-- A memo stays sound with one more result. -/
theorem MemoSound.insert (h : MemoSound V m memo) (hf : m.Holds f)
    (he : m.Means e (somewhere V fun a => m.eval a f)) : MemoSound V m (memo.insert f e) := by
  intro f' e' hfe
  rw [Std.HashMap.getElem?_insert] at hfe
  by_cases heq : f = f'
  · subst heq
    simp only [beq_self_eq_true, if_true, Option.some.injEq] at hfe
    subst hfe
    exact ⟨hf, he⟩
  · rw [if_neg (by simpa using heq)] at hfe
    exact h f' e' hfe

/-- Both ways to join the quantified cases of a decision give the quantified decision. -/
theorem joinCases_builds {vs : Std.HashSet Nat} {m m' : Manager} {f low high : Edge}
    (hw : m.WellFormed) (hd : m.IsDecision f.index) (hs : m'.Sound)
    (hLow : m'.Means low (somewhere (· ∈ vs) fun a => m.eval a (m.low f)))
    (hHigh : m'.Means high (somewhere (· ∈ vs) fun a => m.eval a (m.high f))) :
    Builds m' (joinCases vs (m.topVar f) low high) fun m'' e =>
      m''.Means e (somewhere (· ∈ vs) fun a => m.eval a f) := by
  obtain ⟨hl, -, hal⟩ := hw.low_spec hd
  obtain ⟨hh, -, hah⟩ := hw.high_spec hd
  have hNode : ∀ a, m.eval a f =
      if a (m.topVar f) then m.eval a (m.high f) else m.eval a (m.low f) := eval_node hw hd
  unfold joinCases
  by_cases hv : m.topVar f ∈ vs
  · rw [if_pos (Std.HashSet.contains_iff_mem.mpr hv)]
    refine (or_builds hs hLow hHigh).mono fun m'' e _ he => he.congr fun a => ?_
    exact (somewhere_split_mem hv hNode (fun a c => eval_update hw hl hal c)
      fun a c => eval_update hw hh hah c).symm
  · rw [if_neg fun hc => hv (Std.HashSet.contains_iff_mem.mp hc)]
    have hal' : m'.Above (m.topVar f) low := hLow.above hs fun a b hab =>
      somewhere_congr (fun a b hab => eval_congr hw hl hal hab) hab
    have hah' : m'.Above (m.topVar f) high := hHigh.above hs fun a b hab =>
      somewhere_congr (fun a b hab => eval_congr hw hh hah hab) hab
    refine (mkNode_builds hs (hw.var_ne_zero _ hd) hLow hHigh hal' hah').mono fun m'' e _ he => ?_
    exact he.congr fun a => (somewhere_split_notMem hv hNode).symm

/-- Bounded quantification is right as soon as the bound exceeds the index. -/
theorem existsUpTo_builds (vs : Std.HashSet Nat) (bound : Nat) {m : Manager} {f : Edge}
    {memo : QuantifierMemo} (hs : m.Sound) (hf : m.Holds f) (hlt : f.index < bound)
    (hMemo : MemoSound (· ∈ vs) m memo) :
    Builds m (existsUpTo vs bound f memo) fun m' r =>
      m'.Means r.1 (somewhere (· ∈ vs) fun a => m.eval a f) ∧ MemoSound (· ∈ vs) m' r.2 := by
  induction bound generalizing m f memo with
  | zero => omega
  | succ bound ih =>
    have hw := hs.toWellFormed
    rw [existsUpTo_succ]
    by_cases hTerm : f.isTerminal = true
    · rw [if_pos hTerm]
      refine .pure hs ⟨hf.means.congr fun a => ?_, hMemo⟩
      rcases Edge.eq_zero_or_one (Edge.isTerminal_iff.mp hTerm) with rfl | rfl
      · simp [somewhere_const]
      · simp [somewhere_const]
    · rw [if_neg hTerm]
      have hd : m.IsDecision f.index :=
        hf.cases.resolve_left fun h1 => hTerm (Edge.isTerminal_iff.mpr h1)
      cases hFound : memo[f]? with
      | some e => exact .pure hs ⟨(hMemo f e hFound).2, hMemo⟩
      | none =>
        obtain ⟨hl, hlLt, -⟩ := hw.low_spec hd
        obtain ⟨hh, hhLt, -⟩ := hw.high_spec hd
        refine .get_bind ?_
        refine (ih hs hl (by omega) hMemo).bind fun m₁ low hg₁ hLow => ?_
        refine (ih hg₁.new (hh.extends hg₁.toExtends) (by omega) hLow.2).bind
          fun m₂ high hg₂ hHigh => ?_
        -- the high branch was computed in a larger manager, in which it means the same
        have hHigh₂ : m₂.Means high.1 (somewhere (· ∈ vs) fun a => m.eval a (m.high f)) :=
          hHigh.1.congr (somewhere_eval_grows hg₁ hh)
        refine (joinCases_builds hw hd hg₂.new (hLow.1.grows hg₂) hHigh₂).bind_pure
          fun m₃ e hg₃ he => ⟨he, ?_⟩
        have hg₀₃ := (hg₁.trans hg₂).trans hg₃
        exact (hHigh.2.grows hg₃).insert (hf.extends hg₀₃.toExtends)
          (he.congr fun a => (somewhere_eval_grows hg₀₃ hf a).symm)

/-- Existential quantification of a function over a list of variables. -/
theorem existsOver_builds {F : Assignment → Bool} (vs : List Nat) (hs : m.Sound)
    (hf : m.Means f F) :
    Builds m (existsOver vs f) fun m' e => m'.Means e (somewhere (· ∈ vs) F) := by
  have hF : (fun a => m.eval a f) = F := funext hf.eval_eq
  unfold existsOver
  by_cases hEmpty : vs.isEmpty = true
  · rw [if_pos hEmpty]
    have hNil : vs = [] := List.isEmpty_iff.mp hEmpty
    subst hNil
    exact .pure hs (hf.congr fun a => (somewhere_of_none (by simp)).symm)
  · rw [if_neg hEmpty]
    have hMem : (fun v => v ∈ Std.HashSet.ofList vs) = fun v => v ∈ vs := by
      funext v
      simp [← Std.HashSet.contains_iff_mem, Std.HashSet.contains_ofList]
    have hMemo : MemoSound (· ∈ Std.HashSet.ofList vs) m {} := by
      intro f e h
      simp at h
    have hRun := existsUpTo_builds (.ofList vs) (f.index + 1) hs hf.holds (Nat.lt_succ_self _) hMemo
    rw [hF, hMem] at hRun
    exact ⟨hRun.grows, hRun.result.1⟩

/-- Universal quantification of a function over a list of variables. -/
theorem forallOver_builds {F : Assignment → Bool} (vs : List Nat) (hs : m.Sound)
    (hf : m.Means f F) :
    Builds m (forallOver vs f) fun m' e => m'.Means e (everywhere (· ∈ vs) F) := by
  refine (existsOver_builds vs hs (hf.neg hs)).bind_pure fun m' e hg he => ?_
  exact (he.neg hg.new).congr fun a => not_somewhere_not

end Quantification

end StateSpace.Diagram
