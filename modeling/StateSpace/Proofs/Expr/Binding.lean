import Mathlib.Data.Fintype.EquivFin
import StateSpace.Proofs.Expr.Encodable
import StateSpace.Proofs.Expr.Renaming

/-!
# Renaming and binding

A variable is a name and a type, and a quantifier binds variables; a renaming knows names alone.
Below a quantifier that binds a name at one type, a variable of that name and another type is still
free, but the name has been taken out of the renaming: the variable is **shadowed** there and stays.
Everywhere else a free variable is **exposed**, and moves.

So the free variables of a renamed expression are its exposed variables, moved, and its shadowed
ones, as they were (`Expr.free_rename_iff`), provided that no quantifier binds where a name is moved
to. They are the free variables, moved, under every such renaming exactly if nothing is shadowed
(`Expr.renaming_moves_exposed`), and nothing is shadowed where each name has a single type. There a
renamed expression has the value of the expression in the environment read along the renaming
(`Expr.renaming_substitutes`).
-/

namespace StateSpace

namespace Expr

/-- The variables that the quantifiers of an expression bind. -/
def binders : Expr → List Variable
  | const _ => []
  | var _ => []
  | not e => e.binders
  | logical _ l r => l.binders ++ r.binders
  | compare _ l r => l.binders ++ r.binders
  | arith _ l r => l.binders ++ r.binders
  | bitwise _ l r => l.binders ++ r.binders
  | negate e => e.binders
  | complement e => e.binders
  | cast _ e => e.binders
  | quantified _ xs body => xs ++ body.binders

/-- Each name is used at a single type, free or bound. -/
def SingleTyped (e : Expr) : Prop :=
  ∀ x ∈ e.occurring, ∀ y ∈ e.occurring, x.name = y.name → x.type = y.type

instance (e : Expr) : Decidable e.SingleTyped :=
  inferInstanceAs (Decidable (∀ x ∈ e.occurring, ∀ y ∈ e.occurring,
    x.name = y.name → x.type = y.type))

/-- A variable occurs outside the scopes of the quantifiers that bind its name, at any type. -/
def Exposed (x : Variable) : Expr → Prop
  | const _ => False
  | var y => x = y
  | not e => Exposed x e
  | logical _ l r => Exposed x l ∨ Exposed x r
  | compare _ l r => Exposed x l ∨ Exposed x r
  | arith _ l r => Exposed x l ∨ Exposed x r
  | bitwise _ l r => Exposed x l ∨ Exposed x r
  | negate e => Exposed x e
  | complement e => Exposed x e
  | cast _ e => Exposed x e
  | quantified _ xs body => x.name ∉ xs.map Variable.name ∧ Exposed x body

/-- A variable occurs free in the scope of a quantifier that binds its name at another type. -/
def Shadowed (x : Variable) : Expr → Prop
  | const _ => False
  | var _ => False
  | not e => Shadowed x e
  | logical _ l r => Shadowed x l ∨ Shadowed x r
  | compare _ l r => Shadowed x l ∨ Shadowed x r
  | arith _ l r => Shadowed x l ∨ Shadowed x r
  | bitwise _ l r => Shadowed x l ∨ Shadowed x r
  | negate e => Shadowed x e
  | complement e => Shadowed x e
  | cast _ e => Shadowed x e
  | quantified _ xs body =>
    x ∉ xs ∧ (x.name ∈ xs.map Variable.name ∧ Free x body ∨ Shadowed x body)

end Expr

/-! ## Renamings that avoid what is bound -/

namespace Renaming

/-- No quantifier of the expression binds a name that the renaming gives. -/
def Avoids (ρ : Renaming) (e : Expr) : Prop :=
  ∀ n m, ρ.get? n = some m → m ∉ e.binders.map Variable.name

variable {ρ : Renaming} {e e' body : Expr} {q : Quantifier} {xs : List Variable} {x : Variable}

theorem Avoids.mono (h : ρ.Avoids e) (hSub : e'.binders ⊆ e.binders) : ρ.Avoids e' :=
  fun n m hm hBound => h n m hm (List.map_subset _ hSub hBound)

theorem Avoids.left {l r : Expr} (h : ρ.Avoids e) (he : e.binders = l.binders ++ r.binders) :
    ρ.Avoids l :=
  h.mono (he ▸ List.subset_append_left _ _)

theorem Avoids.right {l r : Expr} (h : ρ.Avoids e) (he : e.binders = l.binders ++ r.binders) :
    ρ.Avoids r :=
  h.mono (he ▸ List.subset_append_right _ _)

/-- Within a scope less is renamed. -/
theorem Avoids.shadow (h : ρ.Avoids (.quantified q xs body)) : (ρ.shadow xs).Avoids body := by
  intro n m hm
  rw [get?_shadow] at hm
  split at hm
  · cases hm
  · exact h.mono (List.subset_append_right _ _) n m hm

/-- A variable whose name is not bound is moved out of the scope. -/
theorem Avoids.move_notMem (h : ρ.Avoids (.quantified q xs body))
    (hx : x.name ∉ xs.map Variable.name) : ρ.move x ∉ xs := by
  intro hMem
  have hBound : ρ.apply x.name ∈ xs.map Variable.name := List.mem_map_of_mem hMem
  cases hGet : ρ.get? x.name with
  | none => exact hx (by rwa [apply_of_get?_eq_none hGet] at hBound)
  | some m =>
    rw [apply, hGet, Option.getD_some] at hBound
    exact h _ _ hGet (List.map_subset _ (List.subset_append_left _ _) hBound)

/-- A renaming avoids capture if no new name is bound. -/
theorem avoids_ofList {pairs : List (String × String)}
    (h : ∀ pair ∈ pairs, pair.2 ∉ e.binders.map Variable.name) : (ofList pairs).Avoids e := by
  intro n m hm
  by_cases hn : n ∈ pairs.map Prod.fst
  · obtain ⟨m', hMem, hGet⟩ := exists_get?_ofList hn
    obtain rfl : m' = m := Option.some.inj (hGet.symm.trans hm)
    exact h _ hMem
  · rw [get?_ofList_eq_none hn] at hm
    cases hm

end Renaming

namespace Expr

variable {ρ : Renaming} {e : Expr} {x y : Variable}

/-! ## Exposed and shadowed variables -/

/-- A free variable is exposed or shadowed; the same variable can be both, in different places. -/
theorem free_iff_exposed_or_shadowed : e.Free x ↔ e.Exposed x ∨ e.Shadowed x := by
  induction e with
  | const v | var y => simp [Free, Exposed, Shadowed]
  | not e ih | negate e ih | complement e ih | cast t e ih => exact ih
  | logical op l r ihl ihr | compare op l r ihl ihr | arith op l r ihl ihr
  | bitwise op l r ihl ihr =>
    simp only [Free, Exposed, Shadowed, ihl, ihr]
    exact or_or_or_comm
  | quantified q xs body ih =>
    have hMem : x.name ∉ xs.map Variable.name → x ∉ xs := fun h hx => h (List.mem_map_of_mem hx)
    simp only [Free, Exposed, Shadowed, ih]
    tauto

theorem Exposed.free (h : e.Exposed x) : e.Free x :=
  free_iff_exposed_or_shadowed.mpr (.inl h)

/-- What a renamed expression has free: its exposed variables, moved, and its shadowed ones. -/
theorem free_rename_iff (h : ρ.Avoids e) :
    (e.rename ρ).Free y ↔ (∃ x, e.Exposed x ∧ ρ.move x = y) ∨ e.Shadowed y := by
  induction e generalizing ρ with
  | const v => simp [rename, Free, Exposed, Shadowed]
  | var x => simp [rename, Free, Exposed, Shadowed, Renaming.move, eq_comm]
  | not e ih | negate e ih | complement e ih | cast t e ih => exact ih h
  | logical op l r ihl ihr | compare op l r ihl ihr | arith op l r ihl ihr
  | bitwise op l r ihl ihr =>
    simp only [rename, Free, Exposed, Shadowed, ihl (h.left rfl), ihr (h.right rfl), or_and_right,
      exists_or]
    exact or_or_or_comm
  | quantified q xs body ih =>
    simp only [rename, Free, Exposed, Shadowed, ih h.shadow]
    constructor
    · rintro ⟨hy, ⟨x, hExposed, rfl⟩ | hShadowed⟩
      · by_cases hName : x.name ∈ xs.map Variable.name
        · rw [Renaming.move_shadow_of_name_mem hName] at hy ⊢
          exact .inr ⟨hy, .inl ⟨hName, hExposed.free⟩⟩
        · exact .inl ⟨x, ⟨hName, hExposed⟩, (Renaming.move_shadow_of_notMem hName).symm⟩
      · exact .inr ⟨hy, .inr hShadowed⟩
    · rintro (⟨x, ⟨hName, hExposed⟩, rfl⟩ | ⟨hy, ⟨hName, hFree⟩ | hShadowed⟩)
      · exact ⟨h.move_notMem hName, .inl ⟨x, hExposed, Renaming.move_shadow_of_notMem hName⟩⟩
      · refine ⟨hy, (free_iff_exposed_or_shadowed.mp hFree).imp_left fun hExposed => ?_⟩
        exact ⟨y, hExposed, Renaming.move_shadow_of_name_mem hName⟩
      · exact ⟨hy, .inr hShadowed⟩

/-- A shadowed variable is missed by a renaming that sends its name to one that is bound nowhere: it
stays free although nothing is moved to it. -/
theorem Shadowed.exists_missed (h : e.Shadowed x) :
    ∃ ρ : Renaming, ρ.Avoids e ∧ (e.rename ρ).Free x ∧ ∀ z, ρ.move z ≠ x := by
  obtain ⟨fresh, hFresh⟩ :=
    Infinite.exists_notMem_finset (x.name :: e.binders.map Variable.name).toFinset
  rw [List.mem_toFinset, List.mem_cons, not_or] at hFresh
  have hAvoids : (Renaming.ofList [(x.name, fresh)]).Avoids e :=
    Renaming.avoids_ofList (List.forall_mem_singleton.mpr hFresh.2)
  refine ⟨_, hAvoids, (free_rename_iff hAvoids).mpr (.inr h), fun z hz => ?_⟩
  have hName : (Renaming.ofList [(x.name, fresh)]).apply z.name = x.name :=
    congrArg Variable.name hz
  have hGet : (Renaming.ofList [(x.name, fresh)]).get? z.name =
      if z.name = x.name then some fresh else none := Renaming.get?_ofList_concat [] _
  rw [Renaming.apply, hGet] at hName
  split at hName
  · exact hFresh.1 hName
  · next hOther => exact hOther hName

/-! ## One type a name -/

theorem SingleTyped.mono {e' : Expr} (h : e.SingleTyped) (hSub : e'.occurring ⊆ e.occurring) :
    e'.SingleTyped :=
  fun x hx y hy => h x (hSub hx) y (hSub hy)

theorem SingleTyped.left {l r : Expr} (h : e.SingleTyped)
    (he : e.occurring = l.occurring ++ r.occurring) : l.SingleTyped :=
  h.mono (he ▸ List.subset_append_left _ _)

theorem SingleTyped.right {l r : Expr} (h : e.SingleTyped)
    (he : e.occurring = l.occurring ++ r.occurring) : r.SingleTyped :=
  h.mono (he ▸ List.subset_append_right _ _)

theorem SingleTyped.body {q : Quantifier} {xs : List Variable}
    (h : (quantified q xs e).SingleTyped) : e.SingleTyped :=
  h.mono (List.subset_append_right _ _)

/-- A variable that is free in a scope has another name than the bound ones. -/
theorem SingleTyped.name_notMem {q : Quantifier} {xs : List Variable}
    (h : (quantified q xs e).SingleTyped) (hFree : e.Free x) (hx : x ∉ xs) :
    x.name ∉ xs.map Variable.name := by
  intro hName
  obtain ⟨y, hy, hSame⟩ := List.mem_map.mp hName
  have hType : y.type = x.type :=
    h y (List.mem_append_left _ hy) x (List.mem_append_right _ (mem_occurring hFree)) hSame
  have heq : y = x := by
    obtain ⟨n, t⟩ := x
    obtain ⟨m, t'⟩ := y
    rw [Variable.mk.injEq]
    exact ⟨hSame, hType⟩
  exact hx (heq ▸ hy)

/-- Where each name has a single type, nothing is shadowed. -/
theorem SingleTyped.not_shadowed (h : e.SingleTyped) : ¬ e.Shadowed x := by
  induction e with
  | const v | var y => exact id
  | not e ih | negate e ih | complement e ih | cast t e ih => exact ih h
  | logical op l r ihl ihr | compare op l r ihl ihr | arith op l r ihl ihr
  | bitwise op l r ihl ihr => exact not_or.mpr ⟨ihl (h.left rfl), ihr (h.right rfl)⟩
  | quantified q xs body ih =>
    rintro ⟨hx, ⟨hName, hFree⟩ | hShadowed⟩
    · exact h.name_notMem hFree hx hName
    · exact ih h.body hShadowed

/-- Where names have one type each, a renaming that avoids capture can be carried out. -/
theorem SingleTyped.renamable (h : e.SingleTyped) (hρ : ρ.Avoids e) : e.Renamable ρ := by
  induction e generalizing ρ with
  | const v | var y => trivial
  | not e ih | negate e ih | complement e ih | cast t e ih => exact ih h hρ
  | logical op l r ihl ihr | compare op l r ihl ihr | arith op l r ihl ihr
  | bitwise op l r ihl ihr =>
    exact ⟨ihl (h.left rfl) (hρ.left rfl), ihr (h.right rfl) (hρ.right rfl)⟩
  | quantified q xs body ih =>
    refine ⟨ih h.body hρ.shadow, fun x hFree hx => ?_⟩
    have hName := h.name_notMem hFree hx
    exact ⟨hName, hρ.move_notMem hName⟩

/-! ## What renaming does -/

/-- **Renaming is substitution.** For every expression in which each name is used at a single type
and every renaming that gives no name bound in it: in every environment the renamed expression has
the value of the expression in the environment that gives each variable the value of where it is
moved to. -/
theorem renaming_substitutes [Reals] {e : Expr} (he : e.SingleTyped) {ρ : Renaming}
    (hρ : ρ.Avoids e) (ν : Environment) :
    (e.rename ρ).eval ν = e.eval fun x => ν ⟨ρ.apply x.name, x.type⟩ :=
  eval_rename (he.renamable hρ)

/-- A variable of a signed byte. -/
def byteNamed (name : String) : Variable :=
  ⟨name, .signed .w8⟩

/-- Two scopes, the inner one of which binds a name that is free around the outer one. -/
def nestedScopes : Expr :=
  .and (.compare .lt (.var (byteNamed "a")) (.var (byteNamed "b")))
    (.quantified .existential [byteNamed "b"]
      (.and (.compare .lt (.var (byteNamed "a")) (.var (byteNamed "b")))
        (.quantified .universal [byteNamed "a"]
          (.compare .le (.var (byteNamed "a")) (.var (byteNamed "b"))))))

/-- Two names become one. -/
def merging : Renaming :=
  .ofList [("a", "c"), ("b", "c")]

section

open scoped Reals

/-- Where two free variables become one, substitution is right in nested scopes too. -/
theorem renaming_substitutes_nestedScopes :
    nestedScopes.SingleTyped ∧ merging.Avoids nestedScopes ∧
      ∀ ν : Environment, (nestedScopes.rename merging).eval ν =
        nestedScopes.eval fun x => ν ⟨merging.apply x.name, x.type⟩ := by
  have he : nestedScopes.SingleTyped := by decide
  have hρ : merging.Avoids nestedScopes := Renaming.avoids_ofList (by decide)
  exact ⟨he, hρ, renaming_substitutes he hρ⟩

end

/-- **Renaming moves what is exposed.** For every expression: under every renaming that gives no
name bound in it, the free variables are the exposed ones, moved, and the shadowed ones, as they
were. They are the free variables, moved, under all these renamings exactly if no variable is
shadowed; none is where each name is used at a single type. -/
theorem renaming_moves_exposed (e : Expr) :
    (∀ ρ : Renaming, ρ.Avoids e → ∀ y, y ∈ (e.rename ρ).freeVariables ↔
      (∃ x, e.Exposed x ∧ ρ.move x = y) ∨ e.Shadowed y) ∧
    ((∀ ρ : Renaming, ρ.Avoids e → ∀ y, y ∈ (e.rename ρ).freeVariables ↔
      ∃ x ∈ e.freeVariables, ρ.move x = y) ↔ ∀ x, ¬ e.Shadowed x) ∧
    (e.SingleTyped → ∀ x, ¬ e.Shadowed x) := by
  simp only [mem_freeVariables]
  refine ⟨fun ρ hρ y => free_rename_iff hρ, ⟨fun hMoves x hShadowed => ?_, fun hNone ρ hρ y => ?_⟩,
    fun h x => h.not_shadowed⟩
  · obtain ⟨ρ, hρ, hFree, hMissed⟩ := hShadowed.exists_missed
    obtain ⟨z, -, hz⟩ := (hMoves ρ hρ x).mp hFree
    exact hMissed z hz
  · have hExposed : ∀ x, e.Free x ↔ e.Exposed x := fun x => by
      rw [free_iff_exposed_or_shadowed, or_iff_left (hNone x)]
    simp only [free_rename_iff hρ, hNone, or_false, hExposed]

/-- A number is compared in the scope of a truth value of the same name, and outside of it. -/
def sharedName : Expr :=
  .and (.compare .gt (.var (byteNamed "x")) (.const (.int 0 (.signed .w8))))
    (.quantified .existential [⟨"x", .bool⟩]
      (.compare .gt (.var (byteNamed "x")) (.const (.int 0 (.signed .w8)))))

/-- One name becomes another. -/
def xToY : Renaming :=
  .ofList [("x", "y")]

theorem avoids_sharedName : xToY.Avoids sharedName :=
  Renaming.avoids_ofList (by decide)

/-- Outside of the scope the number moves, within it stays. -/
theorem renaming_moves_exposed_sharedName :
    xToY.Avoids sharedName ∧ byteNamed "y" ∈ (sharedName.rename xToY).freeVariables ∧
      byteNamed "x" ∈ (sharedName.rename xToY).freeVariables := by
  have hExposed : sharedName.Exposed (byteNamed "x") := .inl (.inl rfl)
  have hShadowed : sharedName.Shadowed (byteNamed "x") :=
    .inr ⟨by decide, .inl ⟨by decide, .inl rfl⟩⟩
  have hFree := (renaming_moves_exposed sharedName).1 xToY avoids_sharedName
  exact ⟨avoids_sharedName, (hFree _).mpr (.inl ⟨_, hExposed, rfl⟩), (hFree _).mpr (.inr hShadowed)⟩

/-- A number in the scope of a truth value of the same name is free and is not renamed: the free
variables of the renamed expression are not those of the expression, moved. -/
theorem shadowed_variable_stays :
    xToY.Avoids sharedName ∧
      ¬ ∀ z, z ∈ (sharedName.rename xToY).freeVariables ↔
        ∃ x ∈ sharedName.freeVariables, xToY.move x = z := by
  refine ⟨avoids_sharedName, fun hMoves => ?_⟩
  have hStays : byteNamed "x" ∈ (sharedName.rename xToY).freeVariables := by decide +kernel
  have hMissed : ¬ ∃ x ∈ sharedName.freeVariables, xToY.move x = byteNamed "x" := by decide +kernel
  exact hMissed ((hMoves _).mp hStays)

end Expr

end StateSpace
