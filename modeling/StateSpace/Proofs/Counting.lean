import Mathlib.Algebra.Order.BigOperators.Group.List
import Mathlib.Data.List.Sections
import StateSpace.Proofs.Coverage
import StateSpace.State.Concrete
import StateSpace.System

/-!
# How many values there are

Some variables of `n` bits in all have `2 ^ n` values (`Environment.length_patterns_le`). So a
property that depends on their values alone can grow `2 ^ n` times: `Environment.room` is the number
of times that are left. In the same way the lists of values that concrete states carry, in which a
variable may be left out, are finitely many (`ConcreteState.length_valueLists_le`), and `unseen`
counts those that have not been met.
-/

namespace StateSpace

/-! ## Counting -/

section Unseen

variable {α : Type} {all : List α} {Seen Seen' : α → Prop}

open Classical in
/-- The number of elements that have not been seen. -/
noncomputable def unseen (all : List α) (Seen : α → Prop) : Nat :=
  all.countP fun a => ¬Seen a

theorem unseen_le (all : List α) (Seen : α → Prop) : unseen all Seen ≤ all.length :=
  List.countP_le_length

/-- What has been seen is not counted any more. -/
theorem unseen_mono (h : ∀ a, Seen a → Seen' a) (all : List α) :
    unseen all Seen' ≤ unseen all Seen := by
  refine List.countP_mono_left fun a _ ha => ?_
  simp only [decide_eq_true_eq] at ha ⊢
  exact fun hSeen => ha (h a hSeen)

/-- Seeing one more of them leaves fewer unseen. -/
theorem unseen_lt (h : ∀ a, Seen a → Seen' a) {a : α} (ha : a ∈ all) (hOld : ¬Seen a)
    (hNew : Seen' a) : unseen all Seen' < unseen all Seen := by
  obtain ⟨before, after, rfl⟩ := List.append_of_mem ha
  have hBefore := unseen_mono h before
  have hAfter := unseen_mono h after
  simp only [unseen, List.countP_append, List.countP_cons, hOld, hNew] at hBefore hAfter ⊢
  simp only [not_true, not_false_iff, decide_true, decide_false, if_true, Bool.false_eq_true,
    if_false]
  omega

end Unseen

/-- Choosing one of the options of each variable. -/
theorem length_sections_le {α : Type} (options : Variable → List α) (bits : Variable → Nat)
    (xs : List Variable) (h : ∀ x ∈ xs, (options x).length ≤ 2 ^ bits x) :
    (xs.map options).sections.length ≤ 2 ^ (xs.map bits).sum := by
  induction xs with
  | nil => simp [List.sections]
  | cons x xs ih =>
    obtain ⟨hx, hxs⟩ := List.forall_mem_cons.mp h
    have hLength : ((x :: xs).map options).sections.length =
        (xs.map options).sections.length * (options x).length := by
      simp [List.sections, List.length_flatMap]
    rw [hLength, List.map_cons, List.sum_cons, Nat.add_comm, Nat.pow_add]
    exact Nat.mul_le_mul (ih hxs) hx

/-! ## Values of variables -/

/-- The number of bits of a variable. -/
def Variable.bits (x : Variable) : Nat :=
  x.type.width?.getD 0

theorem Variable.modulus_eq {x : Variable} (hx : x.type.isReal = false) :
    x.type.modulus = 2 ^ x.bits := by
  obtain ⟨name, type⟩ := x
  cases type with
  | real => cases hx
  | signed => rfl
  | unsigned => rfl
  | bool => rfl

/-- The number of bits of all state variables together. -/
def System.bits (s : System) : Nat :=
  (s.stateVariables.map Variable.bits).sum

/-- How many lists of values firings of labels can give, at most: a label gives each of its
variables a value or none. -/
def System.choices (s : System) : Nat :=
  (s.labels.map fun l => 2 ^ (l.stateVariables.map fun x => x.bits + 1).sum).sum

/-- All state variables, of the system and of its labels, are integers or truth values. -/
structure System.Discrete (s : System) : Prop where
  stateVariables : ∀ x ∈ s.stateVariables, x.type.isReal = false
  labels : ∀ l ∈ s.labels, ∀ x ∈ l.stateVariables, x.type.isReal = false

namespace Environment

variable {xs : List Variable} {P P' : Environment → Prop} {ν ν' : Environment}

/-- The bits of the values of some variables. -/
def pattern (xs : List Variable) (ν : Environment) : List Nat :=
  xs.map fun x => x.type.bits (ν x)

/-- All bits that the values of some variables can have. -/
def patterns (xs : List Variable) : List (List Nat) :=
  (xs.map fun x => List.range x.type.modulus).sections

theorem pattern_mem_patterns (xs : List Variable) (ν : Environment) :
    ν.pattern xs ∈ patterns xs := by
  rw [patterns, List.mem_sections]
  induction xs with
  | nil => exact .nil
  | cons x xs ih => exact .cons (List.mem_range.mpr (ValueType.bits_lt_modulus _ _)) ih

theorem agreeOn_of_pattern [Reals] (hxs : ∀ x ∈ xs, x.type.isReal = false)
    (h : ν.pattern xs = ν'.pattern xs) : AgreeOn xs ν ν' := by
  intro x hx
  rw [get, get, ValueType.hold_eq_wrap (hxs x hx), ValueType.hold_eq_wrap (hxs x hx)]
  exact ValueType.wrap_congr (List.map_inj_left.mp h x hx)

theorem length_patterns_le (hxs : ∀ x ∈ xs, x.type.isReal = false) :
    (patterns xs).length ≤ 2 ^ (xs.map Variable.bits).sum := by
  refine length_sections_le _ _ xs fun x hx => ?_
  rw [List.length_range, Variable.modulus_eq (hxs x hx)]

/-- The number of values of some variables that do not have a property. -/
noncomputable def room (xs : List Variable) (P : Environment → Prop) : Nat :=
  unseen (patterns xs) fun bits => ∃ ν, ν.pattern xs = bits ∧ P ν

theorem room_le (hxs : ∀ x ∈ xs, x.type.isReal = false) (P : Environment → Prop) :
    room xs P ≤ 2 ^ (xs.map Variable.bits).sum :=
  (unseen_le _ _).trans (length_patterns_le hxs)

theorem room_mono (h : ∀ ν, P ν → P' ν) (xs : List Variable) : room xs P' ≤ room xs P :=
  unseen_mono (fun _ ⟨ν, hBits, hν⟩ => ⟨ν, hBits, h ν hν⟩) _

/-- A property that depends on the values of the variables alone has less room when it grows. -/
theorem room_lt [Reals] (hxs : ∀ x ∈ xs, x.type.isReal = false) (h : ∀ ν, P ν → P' ν)
    (hCongr : ∀ ν ν', P ν → AgreeOn xs ν ν' → P ν') (hOld : ¬P ν) (hNew : P' ν) :
    room xs P' < room xs P := by
  refine unseen_lt (fun bits ⟨ν, hBits, hν⟩ => ⟨ν, hBits, h ν hν⟩) (pattern_mem_patterns xs ν) ?_
    ⟨ν, rfl, hNew⟩
  rintro ⟨ν', hSame, hν'⟩
  exact hOld (hCongr ν' ν hν' (agreeOn_of_pattern hxs hSame))

end Environment

/-! ## Lists of values -/

/-- The value is one of those of a type: it is spelled by some bits. -/
def Value.IsOf (t : ValueType) (v : Value) : Prop :=
  ∃ n, v = .ofBits n t

/-- The values that the solver finds for variables that are not reals are of their own types. -/
def Solver.Typed {σ : Type} (solver : Solver σ) : Prop :=
  ∀ e memory, (solver.solve e memory).1.verdict = .sat → ∀ x v,
    (solver.solve e memory).1.model.get? x = some v → x.type.isReal = false → v.IsOf x.type

theorem Value.ofBits_mod (n : Nat) (t : ValueType) : ofBits (n % t.modulus) t = ofBits n t := by
  have hWrap : t.wrap ((n % t.modulus : Nat) : Int) = t.wrap n := by
    refine ValueType.wrap_congr ?_
    simp [ValueType.bits]
  cases t with
  | bool =>
    show Value.bool (n % 2 % 2 == 1) = Value.bool (n % 2 == 1)
    rw [Nat.mod_mod]
  | signed | unsigned | real => exact congrArg (Value.int · _) hWrap

namespace ConcreteState

/-- What a state can have of a variable: no value, or one of its type. -/
def entries (x : Variable) : List (Option (Variable × Value)) :=
  none :: (List.range x.type.modulus).map fun n => some (x, .ofBits n x.type)

/-- All lists of values that a state over some variables can have. -/
def valueLists (xs : List Variable) : List (List (Variable × Value)) :=
  (xs.map entries).sections.map fun options => options.filterMap id

/-- Lists of values of variables are as many as their bits allow. -/
theorem length_valueLists_le {xs : List Variable} (hxs : ∀ x ∈ xs, x.type.isReal = false) :
    (valueLists xs).length ≤ 2 ^ (xs.map fun x => x.bits + 1).sum := by
  rw [valueLists, List.length_map]
  refine length_sections_le _ _ xs fun x hx => ?_
  have := Nat.one_le_two_pow (n := x.bits)
  rw [entries, List.length_cons, List.length_map, List.length_range, Variable.modulus_eq (hxs x hx),
    Nat.pow_succ]
  omega

/-- The values of a model of the right types. -/
theorem values_ofModel_mem {model : Valuation} {xs : List Variable}
    (h : ∀ x ∈ xs, ∀ v, model.get? x = some v → v.IsOf x.type) :
    (ofModel model xs).values ∈ valueLists xs := by
  refine List.mem_map.mpr ⟨xs.map fun x => (model.get? x).map fun v => (x, v), ?_, ?_⟩
  · rw [List.mem_sections]
    induction xs with
    | nil => exact .nil
    | cons x xs ih =>
      obtain ⟨hx, hxs⟩ := List.forall_mem_cons.mp h
      refine .cons ?_ (ih hxs)
      show (model.get? x).map (fun v => (x, v)) ∈ entries x
      cases hGet : model.get? x with
      | none => exact List.mem_cons_self
      | some v =>
        obtain ⟨n, rfl⟩ := hx v hGet
        refine List.mem_cons_of_mem _ (List.mem_map.mpr ⟨n % x.type.modulus, ?_, ?_⟩)
        · exact List.mem_range.mpr (Nat.mod_lt _ x.type.modulus_pos)
        · rw [Value.ofBits_mod]
          rfl
  · rw [List.filterMap_map]
    rfl

end ConcreteState

end StateSpace
