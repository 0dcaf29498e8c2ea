import Mathlib.Data.List.Induction
import StateSpace.Expr.Renaming
import StateSpace.Proofs.Expr.Truth

/-!
# Renaming as substitution of values

A renaming moves variables, and an environment can be read along it: each variable then has the
value of where it is moved to. Where no quantifier catches or loses a variable on the way
(`Expr.Renamable`), the renamed expression has the value of the old one in the environment read
along the renaming (`Expr.eval_rename`), and its free variables are those of the old one, moved
(`Expr.free_rename`).
-/

namespace StateSpace

/-! ## Where a renaming sends names -/

namespace Renaming

variable {ρ : Renaming} {a b n : String}

/-- Erasing a name takes out its entry only. -/
theorem get?_erase : (ρ.erase a).get? n = if n = a then none else ρ.get? n := by
  obtain ⟨entries⟩ := ρ
  unfold erase get?
  induction entries with
  | nil => simp
  | cons entry entries ih =>
    obtain ⟨old, new⟩ := entry
    by_cases ha : old = a
    · subst ha
      simp only [List.filter_cons, bne_self_eq_false, Bool.false_eq_true, if_false, ih]
      split
      · rfl
      · next hn => rw [List.lookup_cons, beq_false_of_ne hn]
    · simp only [List.filter_cons, bne_iff_ne.mpr ha, if_true, List.lookup_cons, ih]
      by_cases hn : n = old
      · subst hn
        simp [ha]
      · simp [beq_false_of_ne hn]

theorem get?_insert : (ρ.insert a b).get? n = if n = a then some b else ρ.get? n := by
  have hLast : (ρ.insert a b).get? n = ((ρ.erase a).get? n).or ([(a, b)].lookup n) :=
    List.lookup_append
  rw [hLast, get?_erase]
  by_cases hn : n = a
  · simp [hn]
  · cases ρ.get? n <;> simp [hn, List.lookup_cons, beq_false_of_ne hn]

theorem get?_shadow (xs : List Variable) :
    (ρ.shadow xs).get? n = if n ∈ xs.map Variable.name then none else ρ.get? n := by
  unfold shadow
  induction xs generalizing ρ with
  | nil => simp
  | cons x xs ih =>
    rw [List.foldl_cons, ih, get?_erase]
    by_cases hMem : n ∈ xs.map Variable.name <;> by_cases hx : n = x.name <;> simp_all

theorem get?_ofList_concat (pairs : List (String × String)) (pair : String × String) :
    (ofList (pairs ++ [pair])).get? n =
      if n = pair.1 then some pair.2 else (ofList pairs).get? n := by
  rw [ofList, List.foldl_append]
  exact get?_insert

theorem get?_ofList_eq_none {pairs : List (String × String)} (h : n ∉ pairs.map Prod.fst) :
    (ofList pairs).get? n = none := by
  induction pairs using List.reverseRecOn with
  | nil => rfl
  | append_singleton pairs pair ih =>
    rw [List.map_append, List.mem_append, not_or] at h
    rw [get?_ofList_concat, if_neg (by simpa using h.2), ih h.1]

/-- Every name that is listed has an entry. -/
theorem exists_get?_ofList {pairs : List (String × String)} (h : n ∈ pairs.map Prod.fst) :
    ∃ m, (n, m) ∈ pairs ∧ (ofList pairs).get? n = some m := by
  induction pairs using List.reverseRecOn with
  | nil => cases h
  | append_singleton pairs pair ih =>
    rw [get?_ofList_concat]
    split
    · next heq => exact ⟨pair.2, by simp [heq], rfl⟩
    · next hne =>
      rw [List.map_append, List.mem_append] at h
      obtain ⟨m, hMem, hGet⟩ := ih (h.resolve_right (by simpa using hne))
      exact ⟨m, List.mem_append_left _ hMem, hGet⟩

/-- Where a variable is moved to. -/
def move (ρ : Renaming) (x : Variable) : Variable :=
  { x with name := ρ.apply x.name }

theorem apply_of_get?_eq_none (h : ρ.get? n = none) : ρ.apply n = n := by
  rw [apply, h, Option.getD_none]

theorem move_of_get?_eq_none {x : Variable} (h : ρ.get? x.name = none) : ρ.move x = x := by
  rw [move, apply_of_get?_eq_none h]

theorem move_shadow_of_notMem {xs : List Variable} {x : Variable}
    (h : x.name ∉ xs.map Variable.name) : (ρ.shadow xs).move x = ρ.move x := by
  rw [move, move, apply, apply, get?_shadow, if_neg h]

/-- A variable whose name is bound stays where it is. -/
theorem move_shadow_of_name_mem {xs : List Variable} {x : Variable}
    (h : x.name ∈ xs.map Variable.name) : (ρ.shadow xs).move x = x :=
  move_of_get?_eq_none (by rw [get?_shadow, if_pos h])

theorem move_shadow_of_mem {xs : List Variable} {x : Variable} (h : x ∈ xs) :
    (ρ.shadow xs).move x = x :=
  move_shadow_of_name_mem (List.mem_map_of_mem h)

end Renaming

/-- An environment read along a renaming: each variable has the value of where it is moved to. -/
def Environment.along (ν : Environment) (ρ : Renaming) : Environment :=
  fun x => ν (ρ.move x)

@[simp] theorem Environment.get_along [Reals] (ν : Environment) (ρ : Renaming) (x : Variable) :
    (ν.along ρ).get x = ν.get (ρ.move x) :=
  rfl

/-! ## Renamed expressions -/

namespace Expr

open Environment

/-- No quantifier binds where a free variable is moved to, and none takes the name of a variable out
of the renaming that it does not bind. -/
def Renamable (ρ : Renaming) : Expr → Prop
  | const _ => True
  | var _ => True
  | not e => e.Renamable ρ
  | logical _ l r => l.Renamable ρ ∧ r.Renamable ρ
  | compare _ l r => l.Renamable ρ ∧ r.Renamable ρ
  | arith _ l r => l.Renamable ρ ∧ r.Renamable ρ
  | bitwise _ l r => l.Renamable ρ ∧ r.Renamable ρ
  | negate e => e.Renamable ρ
  | complement e => e.Renamable ρ
  | cast _ e => e.Renamable ρ
  | quantified _ xs body =>
    body.Renamable (ρ.shadow xs) ∧
      ∀ x, body.Free x → x ∉ xs → x.name ∉ xs.map Variable.name ∧ ρ.move x ∉ xs

variable {ρ : Renaming} {ν : Environment} {x y : Variable} {e : Expr}

@[simp] theorem type_rename (e : Expr) (ρ : Renaming) : (e.rename ρ).type = e.type := by
  induction e with
  | const v | var x | not e | logical op l r | compare op l r | cast t e | quantified q xs body =>
    rfl
  | arith op l r ihl ihr | bitwise op l r ihl ihr => exact ihl
  | negate e ih | complement e ih => exact ih

/-- The free variables of a renamed expression are those of the expression, moved. -/
theorem free_rename (h : e.Renamable ρ) : (e.rename ρ).Free y ↔ ∃ x, e.Free x ∧ ρ.move x = y := by
  induction e generalizing ρ with
  | const v => simp [rename, Free]
  | var x => simp [rename, Free, Renaming.move, eq_comm]
  | not e ih | negate e ih | complement e ih | cast t e ih => exact ih h
  | logical op l r ihl ihr | compare op l r ihl ihr | arith op l r ihl ihr
  | bitwise op l r ihl ihr =>
    simp only [rename, Free, ihl h.1, ihr h.2, or_and_right, exists_or]
  | quantified q xs body ih =>
    obtain ⟨hBody, hKeep⟩ := h
    simp only [rename, Free, ih hBody]
    constructor
    · rintro ⟨hy, x, hFree, rfl⟩
      -- a bound variable would have stayed in its scope
      have hx : x ∉ xs := fun hx => hy (by rwa [Renaming.move_shadow_of_mem hx])
      exact ⟨x, ⟨hx, hFree⟩, (Renaming.move_shadow_of_notMem (hKeep x hFree hx).1).symm⟩
    · rintro ⟨x, ⟨hx, hFree⟩, rfl⟩
      obtain ⟨hName, hMoved⟩ := hKeep x hFree hx
      exact ⟨hMoved, x, hFree, Renaming.move_shadow_of_notMem hName⟩

/-- A renamed expression has the value of the expression in the environment read along the
renaming. -/
theorem eval_rename [Reals] (h : e.Renamable ρ) : (e.rename ρ).eval ν = e.eval (ν.along ρ) := by
  induction e generalizing ρ ν with
  | const v => cases v <;> rfl
  | var x => rfl
  | not e ih | negate e ih | complement e ih | cast t e ih =>
    simp only [rename, eval, type_rename, ih h]
  | logical op l r ihl ihr | compare op l r ihl ihr | arith op l r ihl ihr
  | bitwise op l r ihl ihr =>
    simp only [rename, eval, type_rename, ihl h.1, ihr h.2]
  | quantified q xs body ih =>
    obtain ⟨hBody, hKeep⟩ := h
    -- values of the bound variables mean the same before and after the renaming
    have hSame : ∀ {σ σ' : Environment}, (∀ x ∈ xs, σ'.get x = σ.get x) → AgreeOff xs ν σ →
        AgreeOff xs (ν.along ρ) σ' → (body.rename (ρ.shadow xs)).eval σ = body.eval σ' := by
      intro σ σ' hBound hσ hσ'
      rw [ih hBody]
      refine body.eval_congr fun x hFree => ?_
      rw [get_along]
      by_cases hx : x ∈ xs
      · rw [Renaming.move_shadow_of_mem hx, hBound x hx]
      · obtain ⟨hName, hMoved⟩ := hKeep x hFree hx
        rw [Renaming.move_shadow_of_notMem hName, hσ _ hMoved, hσ' x hx, get_along]
    have hto : ∀ σ, AgreeOff xs ν σ → ∃ σ', AgreeOff xs (ν.along ρ) σ' ∧
        (body.rename (ρ.shadow xs)).eval σ = body.eval σ' := by
      intro σ hσ
      have hσ' : AgreeOff xs (ν.along ρ) fun x => if x ∈ xs then σ x else ν.along ρ x :=
        fun x hx => by simp [Environment.get, hx]
      exact ⟨_, hσ', hSame (fun x hx => by simp [Environment.get, hx]) hσ hσ'⟩
    have hFrom : ∀ σ', AgreeOff xs (ν.along ρ) σ' → ∃ σ, AgreeOff xs ν σ ∧
        (body.rename (ρ.shadow xs)).eval σ = body.eval σ' := by
      intro σ' hσ'
      have hσ : AgreeOff xs ν fun x => if x ∈ xs then σ' x else ν x :=
        fun x hx => by simp [Environment.get, hx]
      exact ⟨_, hσ, hSame (fun x hx => by simp [Environment.get, hx]) hσ hσ'⟩
    cases q with
    | existential =>
      simp only [rename, eval]
      congr 1
      rw [Bool.eq_iff_iff, someOver_eq_true (respects_eval _), someOver_eq_true (respects_eval _)]
      constructor
      · rintro ⟨σ, hσ, hBody⟩
        obtain ⟨σ', hσ', heq⟩ := hto σ hσ
        exact ⟨σ', hσ', heq ▸ hBody⟩
      · rintro ⟨σ', hσ', hBody⟩
        obtain ⟨σ, hσ, heq⟩ := hFrom σ' hσ'
        exact ⟨σ, hσ, heq ▸ hBody⟩
    | universal =>
      simp only [rename, eval]
      congr 1
      rw [Bool.eq_iff_iff, everyOver_eq_true (respects_eval _), everyOver_eq_true (respects_eval _)]
      constructor
      · intro hAll σ' hσ'
        obtain ⟨σ, hσ, heq⟩ := hFrom σ' hσ'
        exact heq ▸ hAll σ hσ
      · intro hAll σ hσ
        obtain ⟨σ', hσ', heq⟩ := hto σ hσ
        exact heq ▸ hAll σ' hσ'

theorem holds_rename [Reals] (h : e.Renamable ρ) : (e.rename ρ).holds ν = e.holds (ν.along ρ) := by
  rw [holds, holds, eval_rename h]

end Expr

end StateSpace
