import Mathlib.Order.Bounds.Basic
import StateSpace.Proofs.Label.Frame

/-!
# Frames are slices

The effect on a variable takes along the preconditions that are connected with it, and no others:
those that it attaches are the least set that takes in every precondition which shares a variable
with the effect or with a precondition in the set (`Label.isLeast_attached`). A scan takes in one
conjunct after the other, each of them new and connected through a relevant variable
(`Frame.collect_induction`), so whatever is closed under being connected holds all that a scan takes
in, and nothing is taken in twice.

The least set does not depend on the order of the preconditions, so neither does the slice
(`Label.effectOn_attaches_connected`).
-/

namespace StateSpace

/-- A list is what stands at its positions. -/
theorem filterMap_getElem?_range {α : Type} (as : List α) :
    (List.range as.length).filterMap (fun i => as[i]?) = as := by
  induction as with
  | nil => rfl
  | cons a as ih =>
    rw [List.length_cons, List.range_succ_eq_map]
    simpa [List.filterMap_map, Function.comp_def] using ih

/-- Two expressions share a free variable. -/
def Expr.Shares (e e' : Expr) : Prop :=
  ∃ y, e.Free y ∧ e'.Free y

/-- A conjunction with one more conjunct at the end. -/
theorem Expr.conj_concat {es : List Expr} (h : es ≠ []) (e : Expr) :
    conj (es ++ [e]) = (conj es).and e := by
  cases es with
  | nil => exact absurd rfl h
  | cons e' es => simp [conj]

namespace Frame

variable {conjuncts : List Expr} {effect e : Expr} {f : Frame} {i : Nat} {S : Set Expr}

/-! ## What a scan takes in -/

/-- What taking in one more conjunct keeps, a scan keeps. The conjunct is one that was not taken in
before and that mentions a relevant variable. -/
theorem collect_induction {P : Frame → Prop}
    (hStep : ∀ (f : Frame) i e, conjuncts[i]? = some e → i ∉ f.included →
      (∃ y ∈ f.relevant, e.Free y) → P f → P (f.takeIn i e))
    (n : Nat) (hf : P f) : P (collect conjuncts n f) := by
  induction n generalizing f with
  | zero => exact hf
  | succ n ih =>
    have hBefore := ih hf
    unfold collect
    dsimp only
    generalize collect conjuncts n f = g at hBefore
    cases hn : conjuncts[n]? with
    | none => exact hBefore
    | some e =>
      dsimp only
      split
      · next hTaken =>
        rw [Bool.and_eq_true, Bool.not_eq_true', ← Bool.not_eq_true,
          List.contains_iff_mem] at hTaken
        obtain ⟨hNew, hMentions⟩ := hTaken
        obtain ⟨y, hy, hFree⟩ := List.any_eq_true.mp hMentions
        rw [List.contains_iff_mem, Expr.mem_freeVariables] at hFree
        exact ih (hStep g n e hn hNew ⟨y, hy, hFree⟩ hBefore)
      · exact hBefore

theorem nodup_collect (n : Nat) (hf : f.included.Nodup) :
    (collect conjuncts n f).included.Nodup := by
  refine collect_induction (P := fun f => f.included.Nodup) ?_ n hf
  intro f i e _ hNew _ hf
  refine List.nodup_append.mpr ⟨hf, by simp, fun j hj k hk heq => hNew ?_⟩
  rwa [← List.mem_singleton.mp hk, ← heq]

/-- A set of expressions takes in every conjunct that shares a variable with the effect or with an
expression in the set. -/
def Closed (conjuncts : List Expr) (effect : Expr) (S : Set Expr) : Prop :=
  ∀ e ∈ conjuncts, (e.Shares effect ∨ ∃ e' ∈ S, e.Shares e') → e ∈ S

/-- The conjuncts taken in belong to a set, and the relevant variables are those of the effect and
of expressions in the set. -/
structure DrawnFrom (conjuncts : List Expr) (effect : Expr) (S : Set Expr) (f : Frame) : Prop where
  included : ∀ i ∈ f.included, ∃ e, conjuncts[i]? = some e ∧ e ∈ S
  relevant : ∀ y ∈ f.relevant, effect.Free y ∨ ∃ e ∈ S, e.Free y

/-- A conjunct that is connected with a closed set belongs to it. -/
theorem DrawnFrom.takeIn (hS : Closed conjuncts effect S) (hf : f.DrawnFrom conjuncts effect S)
    (hi : conjuncts[i]? = some e) (hMentions : ∃ y ∈ f.relevant, e.Free y) :
    (f.takeIn i e).DrawnFrom conjuncts effect S := by
  -- a relevant variable connects the conjunct with the effect or with the set
  have hMem : e ∈ S := by
    obtain ⟨y, hy, hFree⟩ := hMentions
    refine hS e (List.mem_of_getElem? hi) ?_
    exact (hf.relevant y hy).imp (fun hEffect => ⟨y, hFree, hEffect⟩)
      fun ⟨e', he', hFree'⟩ => ⟨e', he', y, hFree, hFree'⟩
  constructor
  · intro j hj
    rcases List.mem_append.mp hj with hOld | hNew
    · exact hf.included j hOld
    · rw [List.mem_singleton.mp hNew]
      exact ⟨e, hi, hMem⟩
  · intro y hy
    rcases mem_relevant_takeIn.mp hy with hOld | hNew
    · exact hf.relevant y hOld
    · exact .inr ⟨e, hMem, hNew⟩

theorem drawnFrom_collect (hS : Closed conjuncts effect S) (n : Nat) :
    (collect conjuncts n { relevant := effect.freeVariables }).DrawnFrom conjuncts effect S := by
  refine collect_induction (fun _ _ _ hi _ hMentions hf => hf.takeIn hS hi hMentions) n ⟨?_, ?_⟩
  · exact fun i hi => absurd hi List.not_mem_nil
  · exact fun y hy => .inl (Expr.mem_freeVariables.mp hy)

end Frame

namespace Label

open scoped List

variable {l : Label} {x : Variable} {e effect : Expr} {i : Nat}

/-! ## The slice of an effect -/

/-- The preconditions that an effect attaches, in the order in which they are found. -/
def attached (l : Label) (effect : Expr) : List Expr :=
  (l.frame effect).filterMap fun i => l.preconditions[i]?

theorem nodup_frame (l : Label) (effect : Expr) : (l.frame effect).Nodup :=
  Frame.nodup_collect _ List.nodup_nil

/-- Positions in a frame are positions of preconditions. -/
theorem exists_of_mem_frame (h : i ∈ l.frame effect) : ∃ e, l.preconditions[i]? = some e := by
  have hAll : Frame.Closed l.preconditions effect Set.univ := fun _ _ _ => trivial
  obtain ⟨e, he, -⟩ := (Frame.drawnFrom_collect hAll _).included i h
  exact ⟨e, he⟩

theorem mem_attached : e ∈ l.attached effect ↔ ∃ i ∈ l.frame effect, l.preconditions[i]? = some e :=
  List.mem_filterMap

/-- The preconditions attached are the least set that is closed under being connected. -/
theorem isLeast_attached (h : l.explicitEffect? x = some effect) :
    IsLeast {S | Frame.Closed l.preconditions effect S} {e | e ∈ l.attached effect} := by
  constructor
  · intro e he hShares
    obtain ⟨i, hi⟩ := List.mem_iff_getElem?.mp he
    refine mem_attached.mpr ⟨i, ?_, hi⟩
    rcases hShares with ⟨y, hy, hEffect⟩ | ⟨e', he', y, hy, hy'⟩
    · exact mem_frame_of_free h hi ((free_effectOn_of_some h).mpr (.inl hEffect)) hy
    · obtain ⟨j, hj, hGet⟩ := mem_attached.mp he'
      exact mem_frame_of_free h hi ((free_effectOn_of_some h).mpr (.inr ⟨j, hj, e', hGet, hy'⟩)) hy
  · intro S hS e he
    obtain ⟨i, hi, hGet⟩ := mem_attached.mp he
    obtain ⟨e', hGet', hMem⟩ := (Frame.drawnFrom_collect hS _).included i hi
    rw [hGet] at hGet'
    cases hGet'
    exact hMem

/-- Of equal preconditions, all or none are attached. -/
theorem mem_frame_iff (h : l.explicitEffect? x = some effect) (hi : l.preconditions[i]? = some e) :
    i ∈ l.frame effect ↔ e ∈ l.attached effect := by
  constructor
  · exact fun hMem => mem_attached.mpr ⟨i, hMem, hi⟩
  · intro hMem
    -- what is attached has a variable, through which it is connected with its equals
    have hClosed : Frame.Closed l.preconditions effect {e | ∃ y, e.Free y} := by
      rintro e - (⟨y, hy, -⟩ | ⟨e', -, y, hy, -⟩) <;> exact ⟨y, hy⟩
    obtain ⟨y, hy⟩ := (isLeast_attached h).2 hClosed hMem
    obtain ⟨j, hj, hGet⟩ := mem_attached.mp hMem
    exact mem_frame_of_free h hi ((free_effectOn_of_some h).mpr (.inr ⟨j, hj, e, hGet, hy⟩)) hy

/-- Each precondition of the slice is attached once. -/
theorem attached_perm (h : l.explicitEffect? x = some effect) :
    (l.attached effect).Perm (l.preconditions.filter (l.attached effect).contains) := by
  let positions := List.range l.preconditions.length
  have hFrame : (l.frame effect).Perm (positions.filter (l.frame effect).contains) := by
    refine (List.perm_ext_iff_of_nodup (l.nodup_frame effect) (List.nodup_range.filter _)).mpr ?_
    intro i
    rw [List.mem_filter, List.mem_range, List.contains_iff_mem, iff_and_self]
    intro hi
    obtain ⟨e, he⟩ := exists_of_mem_frame hi
    exact (List.getElem?_eq_some_iff.mp he).1
  have hKept : ∀ i, (if (l.frame effect).contains i then l.preconditions[i]? else none) =
      l.preconditions[i]?.filter (l.attached effect).contains := by
    intro i
    cases hi : l.preconditions[i]? with
    | none => simp
    | some e => simp [Option.filter_some, mem_frame_iff h hi]
  calc l.attached effect
    _ ~ (positions.filter (l.frame effect).contains).filterMap fun i => l.preconditions[i]? :=
      hFrame.filterMap _
    _ = (positions.filterMap fun i => l.preconditions[i]?).filter (l.attached effect).contains := by
      rw [List.filterMap_filter, List.filter_filterMap]
      simp only [hKept]
    _ = l.preconditions.filter (l.attached effect).contains := by
      rw [filterMap_getElem?_range]

/-- The effect on a variable is the conjunction of the preconditions that it attaches and of the
effect given. -/
theorem effectOn_eq_conj (h : l.explicitEffect? x = some effect) :
    l.effectOn x = .conj (l.attached effect ++ [effect]) := by
  simp only [effectOn, attached, h]
  cases hFrame : l.frame effect with
  | nil => rfl
  | cons i positions =>
    obtain ⟨e, he⟩ := exists_of_mem_frame (l := l) (hFrame ▸ List.mem_cons_self)
    rw [Expr.conj_concat]
    simp [he]

/-- **Frames are slices.** The effect on a variable is the conjunction of some preconditions and of
the effect given. These preconditions are the least set that takes in every precondition which
shares a variable with the effect or with a precondition in the set, and each is attached once. In
any other order of the preconditions the same ones are attached, to the same effect. -/
theorem effectOn_attaches_connected [Reals] {l : Label} {x : Variable} {effect : Expr}
    (h : l.explicitEffect? x = some effect) :
    l.effectOn x = .conj (l.attached effect ++ [effect]) ∧
    IsLeast {S | Frame.Closed l.preconditions effect S} {e | e ∈ l.attached effect} ∧
    (l.attached effect).Perm (l.preconditions.filter (l.attached effect).contains) ∧
    (∀ ρ, (l.effectOn x).holds ρ = true ↔
      (∀ e ∈ l.attached effect, e.holds ρ = true) ∧ effect.holds ρ = true) ∧
    ∀ l' : Label, l'.preconditions.Perm l.preconditions → l'.explicitEffect? x = some effect →
      (l'.attached effect).Perm (l.attached effect) ∧
      ∀ ρ, (l'.effectOn x).holds ρ = (l.effectOn x).holds ρ := by
  have hMeaning : ∀ {l : Label}, l.explicitEffect? x = some effect → ∀ ρ,
      (l.effectOn x).holds ρ = true ↔
        (∀ e ∈ l.attached effect, e.holds ρ = true) ∧ effect.holds ρ = true := by
    intro l h ρ
    rw [effectOn_eq_conj h, Expr.holds_conj, List.forall_mem_append, List.forall_mem_singleton]
  refine ⟨effectOn_eq_conj h, isLeast_attached h, attached_perm h, hMeaning h, fun l' hPerm h' =>
    ?_⟩
  -- being closed does not depend on the order, so both slices are the same least set
  have hClosed : ∀ S, Frame.Closed l'.preconditions effect S ↔
    Frame.Closed l.preconditions effect S :=
    fun S => forall_congr' fun e => by rw [hPerm.mem_iff]
  have hSame : {e | e ∈ l'.attached effect} = {e | e ∈ l.attached effect} := by
    refine IsLeast.unique ?_ (isLeast_attached h)
    simpa only [hClosed] using isLeast_attached h'
  have hMem : ∀ e, e ∈ l'.attached effect ↔ e ∈ l.attached effect := fun e => Set.ext_iff.mp hSame e
  constructor
  · calc l'.attached effect
      _ ~ l'.preconditions.filter (l'.attached effect).contains := attached_perm h'
      _ ~ l.preconditions.filter (l'.attached effect).contains := hPerm.filter _
      _ = l.preconditions.filter (l.attached effect).contains := by
        refine List.filter_congr fun e _ => ?_
        rw [Bool.eq_iff_iff, List.contains_iff_mem, List.contains_iff_mem, hMem]
      _ ~ l.attached effect := (attached_perm h).symm
  · intro ρ
    rw [Bool.eq_iff_iff, hMeaning h, hMeaning h']
    simp only [hMem]

/-- A number is counted up as long as it is below a parameter, which is above another one. -/
def countUp : Label :=
  let number (name : String) : Variable := ⟨name, .signed .w32⟩
  let constant (n : Int) : Expr := .const (.int n (.signed .w32))
  let next : Expr := .arith .add (.var (number "x")) (constant 1)
  { name := "countUp"
    stateVariables := [number "x", number "y"]
    parameters := [number "p", number "q"]
    preconditions := [
      .compare .gt (.var (number "p")) (.var (number "q")),
      .compare .gt (.var (number "y")) (constant 5),
      .compare .eq (.var (number "q")) (constant 5),
      .compare .lt (.var (number "x")) (.var (number "p"))]
    effects := [(number "x", .compare .eq (.var (number "x").primed) next)] }

open scoped Reals

/-- The last condition connects the first and the third with the effect, and the second one stays
apart, also if the conditions are listed from the other end. -/
theorem effectOn_attaches_countUp :
    let turned : Label := { countUp with preconditions := countUp.preconditions.reverse }
    ∃ effect, countUp.explicitEffect? ⟨"x", .signed .w32⟩ = some effect ∧
      countUp.frame effect = [3, 0, 2] ∧ turned.frame effect = [0, 3, 1] ∧
      IsLeast {S | Frame.Closed countUp.preconditions effect S} {e | e ∈ countUp.attached effect} ∧
      (turned.attached effect).Perm (countUp.attached effect) := by
  intro turned
  obtain ⟨-, hLeast, -, -, hPerm⟩ :=
    effectOn_attaches_connected (l := countUp) (x := ⟨"x", .signed .w32⟩) rfl
  refine ⟨_, rfl, by decide +kernel, by decide +kernel, hLeast, ?_⟩
  exact (hPerm turned (List.reverse_perm _) rfl).1

end Label

end StateSpace
