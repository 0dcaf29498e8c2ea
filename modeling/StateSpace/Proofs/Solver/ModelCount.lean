import Mathlib.SetTheory.Cardinal.Finite
import StateSpace.Proofs.Diagram.ModelCount
import StateSpace.Proofs.Solver.ByDiagram

/-!
# Counting the values of variables

The solver counts in three steps. It asks for the decision variables of the kept variables, encodes
the formula, and projects everything else away that the function depends on; the projection no
longer depends on any decision variable that was not kept (`somewhere_and_not`), so its models can
be counted over the kept ones. An assignment of those is a value for each kept variable, and every
choice of values is one assignment (`card_models_projection`). So the count is the number of values
that the kept variables can have together in a model of the formula (`countModels_exact`).
-/

namespace StateSpace

open Circuit Diagram Manager Environment

/-! ## Values of some variables -/

/-- A value in range for each of some variables, however often they are listed. -/
def Values (xs : List Variable) : Type :=
  (x : { x // x ∈ xs }) → { n : Int // x.1.type.Fits n }

instance (t : ValueType) : Finite { n : Int // t.Fits n } := by
  refine Finite.of_injective (fun n => (⟨t.bits n.1, t.bits_lt_modulus n.1⟩ : Fin t.modulus))
    fun n k h => Subtype.ext (n.2.ext k.2 ?_)
  exact congrArg Fin.val h

theorem finite_values (xs : List Variable) : Finite (Values xs) := by
  have : Finite { x // x ∈ xs } := xs.finite_toSet
  unfold Values
  infer_instance

/-- Values of some variables that all other variables can be given values to, so that a formula
holds. -/
def Values.Extensible [Reals] {xs : List Variable} (v : Values xs) (e : Expr) : Prop :=
  ∃ ρ : Environment, (∀ x, ρ.get x.1 = (v x).1) ∧ e.holds ρ = true

namespace Circuit

variable {α : Type} {vs : Finset Variable} {s : Encoder} {step : Encode α} {ok : Prop}
  {Q : Encoder → α → Prop}

/-- What follows a success knows that it was one. -/
theorem Encodes.with_ok (h : Encodes vs s step ok Q) :
    Encodes vs s step ok fun s' r => ok ∧ Q s' r := by
  cases hRun : step s with
  | ok r s' =>
    obtain ⟨hok, hg, hr⟩ := h.of_eq_ok hRun
    exact .of_ok hRun hok hg ⟨hok, hr⟩
  | error cause s' =>
    obtain ⟨hNot, hg⟩ := h.of_eq_error hRun
    exact .of_error hRun hNot hg

/-- Reading the encoder changes nothing. -/
theorem Encodes.get_bind {next : Encoder → Encode α} (h : Encodes vs s (next s) ok Q) :
    Encodes vs s (get >>= next) ok Q :=
  h

end Circuit

namespace ByDiagram

variable {slots : Slots} {x : Variable} {i v : Nat} {a b : Assignment} {xs : List Variable}

/-- The bits of a number are those it is spelled with. -/
theorem testBit_value (bs : List Bool) (i : Nat) : (value bs).testBit i = bs.getD i false := by
  induction bs generalizing i with
  | nil => simp
  | cons b bs ih =>
    rw [value_cons]
    cases i with
    | zero => cases b <;> simp [Nat.testBit_zero]
    | succ i =>
      have hHalf : (b.toNat + 2 * value bs) / 2 = value bs := by
        have := b.toNat_lt
        omega
      rw [Nat.testBit_succ, hHalf, ih, List.getD_cons_succ]

/-- The bits of the value of a variable are the values of its decision variables. -/
theorem testBit_decode (hv : IsBit slots x i v) (a : Assignment) :
    (x.type.bits (decode slots a x)).testBit i = a v := by
  obtain ⟨n, slot, hn, hSlot, hi, rfl⟩ := hv
  rw [bits_decode hn hSlot, testBit_value]
  simp [List.getD_eq_getElem?_getD, hi]

/-- The values that an assignment gives to some variables. -/
def valuesOf (slots : Slots) (xs : List Variable) (a : Assignment) : Values xs :=
  fun x => ⟨x.1.type.wrap (decode slots a x.1), x.1.type.fits_wrap _⟩

/-- Assignments that give some variables the same values agree on their decision variables. -/
theorem eq_of_valuesOf_eq (h : valuesOf slots xs a = valuesOf slots xs b) (hx : x ∈ xs)
    (hv : IsBit slots x i v) : a v = b v := by
  have hWrap : x.type.wrap (decode slots a x) = x.type.wrap (decode slots b x) :=
    congrArg Subtype.val (congrFun h ⟨x, hx⟩)
  have hBits := congrArg x.type.bits hWrap
  rw [ValueType.bits_wrap, ValueType.bits_wrap] at hBits
  rw [← testBit_decode hv a, ← testBit_decode hv b, hBits]

/-! ## Projection -/

section Projection

variable {F : Assignment → Bool} {S K V : Nat → Prop}

/-- What is projected away does not matter. -/
theorem somewhere_of_agreeOff (h : AgreeOff V a b) : somewhere V F b = somewhere V F a := by
  rw [Bool.eq_iff_iff, somewhere_eq_true, somewhere_eq_true]
  refine exists_congr fun c => and_congr_left fun _ => forall₂_congr fun v hv => ?_
  rw [h v hv]

/-- It is enough to project away what a function depends on. -/
theorem somewhere_and_not (hF : ∀ a b : Assignment, (∀ v, S v → a v = b v) → F a = F b)
    (a : Assignment) :
    somewhere (fun v => S v ∧ ¬ K v) F a = somewhere (fun v => ¬ K v) F a := by
  classical
  rw [Bool.eq_iff_iff, somewhere_eq_true, somewhere_eq_true]
  constructor
  · rintro ⟨b, hab, hb⟩
    exact ⟨b, fun v hv => hab v fun h => hv h.2, hb⟩
  · rintro ⟨b, hab, hb⟩
    -- where the function does not look, keep the old values
    refine ⟨fun v => if S v then b v else a v, fun v hv => ?_, ?_⟩
    · by_cases hS : S v
      · simp only [if_pos hS]
        exact hab v fun hK => hv ⟨hS, hK⟩
      · simp only [if_neg hS]
    · rw [← hb]
      exact hF _ _ fun v hv => if_pos hv

end Projection

/-! ## Models and values -/

variable {e : Expr} {ixs : List Nat}

/-- The values of some variables are decided by their decision variables. -/
theorem valuesOf_congr (hxs : Collects slots xs ixs) (hab : ∀ v ∈ ixs, a v = b v) :
    valuesOf slots xs a = valuesOf slots xs b := by
  funext x
  refine Subtype.ext (congrArg x.1.type.wrap (decode_congr fun i v hv => hab v ?_))
  exact (hxs.mem_iff v).mpr ⟨x.1, x.2, i, hv⟩

theorem get_decode_eq_valuesOf [Reals] (hxs : Collects slots xs ixs) (a : Assignment)
    (x : { x // x ∈ xs }) : (decode slots a).get x.1 = (valuesOf slots xs a x).1 := by
  obtain ⟨n, -, hn, -⟩ := hxs.known x.1 x.2
  exact ValueType.hold_eq_wrap (ValueType.isReal_eq_false_iff.mpr ⟨n, hn⟩) _

/-- A model of the projection is a choice of values that the formula leaves possible. -/
theorem extensible_valuesOf [Reals] (hxs : Collects slots xs ixs)
    (h : somewhere (fun v => v ∉ ixs) (fun a => e.holds (decode slots a)) a = true) :
    (valuesOf slots xs a).Extensible e := by
  obtain ⟨b, hab, hb⟩ := somewhere_eq_true.mp h
  have hSame : valuesOf slots xs b = valuesOf slots xs a :=
    valuesOf_congr hxs fun v hv => hab v (not_not_intro hv)
  refine ⟨decode slots b, fun x => ?_, hb⟩
  rw [get_decode_eq_valuesOf hxs, hSame]

/-- Every choice of values that the formula leaves possible is on some assignment that makes it
true. -/
theorem exists_valuesOf_eq [Reals] (hap : Apart slots) (hxs : Collects slots xs ixs)
    (hFree : ∀ x ∈ e.freeVariables, ∃ n slot, x.type.width? = some n ∧ slots[x]? = some slot)
    {v : Values xs} (h : v.Extensible e) :
    ∃ a, valuesOf slots xs a = v ∧ e.holds (decode slots a) = true := by
  obtain ⟨ρ, hρ, hHolds⟩ := h
  have hGet : ∀ x n slot, x.type.width? = some n → slots[x]? = some slot →
      (decode slots (setBits slots (fun _ => True) ρ fun _ => false)).get x = ρ.get x :=
    fun x n slot hn hSlot => get_decode hn hSlot fun i v hv => setBits_of_isBit hap trivial hv
  refine ⟨setBits slots (fun _ => True) ρ fun _ => false, funext fun x => Subtype.ext ?_, ?_⟩
  · obtain ⟨n, slot, hn, hSlot⟩ := hxs.known x.1 x.2
    rw [← get_decode_eq_valuesOf hxs, hGet x.1 n slot hn hSlot, hρ x]
  · rw [← hHolds, Expr.holds, Expr.holds, e.eval_congr fun x hx => ?_]
    obtain ⟨n, slot, hn, hSlot⟩ := hFree x (Expr.mem_freeVariables.mpr hx)
    exact hGet x n slot hn hSlot

/-- The projection of a formula has one model for each choice of values that the formula leaves
possible. -/
theorem card_models_projection [Reals] (hap : Apart slots) (hxs : Collects slots xs ixs)
    (hFree : ∀ x ∈ e.freeVariables, ∃ n slot, x.type.width? = some n ∧ slots[x]? = some slot) :
    (models ixs.toFinset
      (somewhere (fun v => v ∉ ixs) fun a => e.holds (decode slots a))).card =
      Nat.card { v : Values xs // v.Extensible e } := by
  set V := ixs.toFinset with hV
  set G := somewhere (fun v => v ∉ ixs) fun a => e.holds (decode slots a) with hG
  let values : models V G → { v : Values xs // v.Extensible e } := fun p =>
    ⟨valuesOf slots xs (Assignment.spread p.1), extensible_valuesOf hxs (mem_models.mp p.2)⟩
  have hBijective : Function.Bijective values := by
    refine ⟨fun p q hpq => Subtype.ext (funext fun u => ?_), fun v => ?_⟩
    · obtain ⟨x, hx, i, hBit⟩ := (hxs.mem_iff u).mp (List.mem_toFinset.mp u.2)
      have hSame := eq_of_valuesOf_eq (congrArg Subtype.val hpq) hx hBit
      rwa [Assignment.spread_apply _ u.2, Assignment.spread_apply _ u.2] at hSame
    · obtain ⟨a, hValues, hHolds⟩ := exists_valuesOf_eq hap hxs hFree v.2
      let p : V → Bool := fun u => a u
      have hAgree : ∀ v ∈ ixs, Assignment.spread p v = a v :=
        fun v hv => Assignment.spread_apply p (List.mem_toFinset.mpr hv)
      have hp : p ∈ models V G :=
        mem_models.mpr (somewhere_eq_true.mpr ⟨a, fun v hv => (hAgree v (not_not.mp hv)).symm,
          hHolds⟩)
      exact ⟨⟨p, hp⟩, Subtype.ext ((valuesOf_congr hxs hAgree).trans hValues)⟩
  rw [← Nat.card_eq_of_bijective values hBijective, Nat.card_eq_fintype_card, Fintype.card_coe]

/-! ## The counting step -/

/-- Nothing is left twice. -/
theorem nodup_eraseDups (ixs : List Nat) : ixs.eraseDups.Nodup := by
  induction hk : ixs.length using Nat.strongRecOn generalizing ixs with
  | ind k ih =>
    cases ixs with
    | nil => simp
    | cons v ixs =>
      rw [List.eraseDups_cons, List.nodup_cons, List.mem_eraseDups]
      refine ⟨by simp, ih _ ?_ _ rfl⟩
      have := List.length_filter_le (fun u => !u == v) ixs
      rw [← hk, List.length_cons]
      omega

theorem length_eraseDups (ixs : List Nat) : ixs.eraseDups.length = ixs.toFinset.card := by
  rw [← List.toFinset_card_of_nodup (nodup_eraseDups ixs)]
  congr 1
  ext v
  simp

variable {vs : Finset Variable} {s : Encoder} {f : Edge}

/-- The projection of a formula does not depend on decision variables that were not kept, and has a
model for each choice of values that the formula leaves possible. -/
theorem modelCount_projection [Reals] {m : Manager} (hm : m.WellFormed) (hap : Apart slots)
    (hxs : Collects slots xs ixs)
    (hFree : ∀ x ∈ e.freeVariables, ∃ n slot, x.type.width? = some n ∧ slots[x]? = some slot)
    (hf : m.Means f (somewhere (fun v => v ∉ ixs) fun a => e.holds (decode slots a))) :
    m.modelCount f ixs.eraseDups.length = Nat.card { v : Values xs // v.Extensible e } := by
  have hDepends : ∀ v, m.DependsOn f v → v ∈ ixs.toFinset := by
    rintro v ⟨a, ha⟩
    rw [List.mem_toFinset]
    by_contra hv
    refine ha ?_
    rw [hf.eval_eq, hf.eval_eq]
    refine somewhere_of_agreeOff fun u hu => ?_
    have hne : u ≠ v := by
      rintro rfl
      exact hu hv
    rw [Function.update_of_ne hne, Function.update_of_ne hne]
  rw [length_eraseDups, modelCount_eq_card hm hf.holds hDepends,
    ← card_models_projection hap hxs hFree]
  simp only [hf.eval_eq]

/-- Projecting away the support outside of what was kept projects away everything that was not
kept. -/
theorem somewhere_support {m : Manager} {F : Assignment → Bool} (hm : m.WellFormed)
    (hf : m.Means f F) (ixs : List Nat) (a : Assignment) :
    somewhere (· ∈ (m.support f).filter fun v => !ixs.eraseDups.contains v) F a =
      somewhere (fun v => v ∉ ixs) F a := by
  have hOthers : (· ∈ (m.support f).filter fun v => !ixs.eraseDups.contains v) =
      fun v => m.DependsOn f v ∧ v ∉ ixs := by
    funext v
    simp [mem_support hm hf.holds]
  rw [hOthers]
  refine somewhere_and_not (fun a b hab => ?_) a
  rw [← hf.eval_eq, ← hf.eval_eq]
  exact eval_eq_of_dependsOn hm hf.holds hab

/-- Counting succeeds exactly if the formula and all kept variables have circuits, and counts the
choices of values for the kept variables that the formula leaves possible. -/
theorem counting_encodes [Reals] (hvs : vs.card ≤ slotCount) (he : ∀ x ∈ e.occurring, x ∈ vs)
    (hxs : ∀ x ∈ xs, x ∈ vs) (hs : s.Sound vs) :
    Encodes vs s (counting e xs)
      (xs.any (·.type.isReal) = false ∧ e.type.isBool = true ∧ e.Encodable)
      fun _ n => n = Nat.card { v : Values xs // v.Extensible e } := by
  unfold counting
  refine (flatMapM_indicesOf_encodes hs hxs).bind fun s₁ ixs hg hixs => ?_
  refine (functionOf_encodes hvs he hg.new).with_ok.bind_total fun s₂ f hg' hFound => .get_bind ?_
  obtain ⟨⟨-, hEnc⟩, hf⟩ := hFound
  have hw := hg'.new.diagram.toWellFormed
  refine (Encodes.lift hg'.new (existsOver_builds _ hg'.new.diagram hf.means)).bind_total
    fun s₃ projected hg'' hProjected => .get_bind (.pure hg''.new ?_)
  exact modelCount_projection hg''.new.diagram.toWellFormed (hg'.new.apart hvs) (hixs.grows hg')
    (exists_width_slot hEnc hf.known) (hProjected.2.congr (somewhere_support hw hf.means ixs))

end ByDiagram

/-- **Counting is exact.** For a formula and a list of variables, at most `2 ^ 20` different ones
together, with any table size that is not refused: if the formula is encodable and the variables are
whole numbers or truth values, the count is the number of choices of values for the listed variables
that can be extended to a model of the formula. There are finitely many such choices, and it does
not matter how often a variable is listed or whether the formula has it. Otherwise there is no
count. -/
theorem countModels_exact [Reals] {e : Expr} {xs : List Variable}
    (hvs : (e.occurring ++ xs).toFinset.card ≤ slotCount) (bits : Nat) :
    Finite (Values xs) ∧
    (bits ≤ ComputedTable.maxBits →
      (e.type = .bool → e.Encodable → (∀ x ∈ xs, x.type.isReal = false) →
        ByDiagram.countModels? bits e xs =
          some (some (Nat.card { v : Values xs // v.Extensible e }))) ∧
      (¬(e.type = .bool ∧ e.Encodable ∧ ∀ x ∈ xs, x.type.isReal = false) →
        ByDiagram.countModels? bits e xs = some none)) ∧
    (ComputedTable.maxBits < bits → ByDiagram.countModels? bits e xs = none) := by
  have hEncodes : Encodes _ (ByDiagram.freshEncoder bits) (ByDiagram.counting e xs) _ _ :=
    ByDiagram.counting_encodes hvs
    (fun x hx => List.mem_toFinset.mpr (List.mem_append_left xs hx))
    (fun x hx => List.mem_toFinset.mpr (List.mem_append_right e.occurring hx))
    (sound_ofManager (sound_empty bits))
  refine ⟨finite_values xs, fun hBits => ?_, fun hBits => if_pos hBits⟩
  rw [ByDiagram.countModels?, if_neg (Nat.not_lt.mpr hBits), ByDiagram.onFresh]
  refine ⟨fun hBool hEnc hxs => ?_, fun hNot => ?_⟩
  · obtain ⟨n, s', hRun⟩ := hEncodes.exists_ok_iff.mpr
      ⟨by simpa using hxs, ValueType.isBool_iff.mpr hBool, hEnc⟩
    have hCount : n = _ := (hEncodes.of_eq_ok hRun).2.2
    rw [show ByDiagram.counting e xs (ByDiagram.freshEncoder bits) = .ok n s' from hRun, hCount]
  · cases hRun : ByDiagram.counting e xs (ByDiagram.freshEncoder bits) with
    | error cause s' => rfl
    | ok n s' =>
      obtain ⟨hxs, hBool, hEnc⟩ := (hEncodes.of_eq_ok hRun).1
      exact absurd ⟨ValueType.isBool_iff.mp hBool, hEnc, by simpa using hxs⟩ hNot

/-- A variable that is listed twice, and one that the formula does not have. -/
def listedExample : List Variable :=
  [⟨"x", .signed .w8⟩, ⟨"z", .bool⟩, ⟨"x", .signed .w8⟩]

open scoped Reals

/-- The formula binds one of the listed variables and has a free one that is not listed. -/
theorem countModels_exact_shadowExample :
    (shadowExample.occurring ++ listedExample).toFinset.card ≤ slotCount ∧
    3 ≤ ComputedTable.maxBits ∧
    ByDiagram.countModels? 3 shadowExample listedExample =
      some (some (Nat.card { v : Values listedExample // v.Extensible shadowExample })) := by
  have hvs : (shadowExample.occurring ++ listedExample).toFinset.card ≤ slotCount := by decide
  have hBits : 3 ≤ ComputedTable.maxBits := by decide
  exact ⟨hvs, hBits, ((countModels_exact hvs 3).2.1 hBits).1 rfl (by decide) (by decide)⟩

end StateSpace
