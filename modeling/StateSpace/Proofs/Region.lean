import Mathlib.Data.List.Forall2
import Mathlib.Data.List.Perm.Subperm
import StateSpace.Proofs.Coverage
import StateSpace.Proofs.Exploration
import StateSpace.Proofs.Expr.HiddenName
import StateSpace.Region

/-!
# States under names

The names handed out are all different, so regions with states of different names lose nothing when
they are united. The difference of two regions leaves out only states whose values the second one
covers (`Region.ensures_difference`).
-/

namespace StateSpace.Region

open Explore

variable {S σ ω : Type} {r a b : Region S} {name : String} {s : S}

theorem nameOf_injective {m n : Nat} (h : nameOf m = nameOf n) : m = n := by
  have hDigits : ∀ k, (nameOf k).toList = ['s', '_'] ++ Nat.toDigits 10 k := fun k => by
    have hName : nameOf k = "s_" ++ toString k := rfl
    simp [hName]
  have hLists := congrArg String.toList h
  rw [hDigits, hDigits, List.append_cancel_left_eq] at hLists
  exact Renaming.toDigits_injective hLists

theorem states_eq (r : Region S) : r.states = r.toList.map Prod.snd := by
  have hFold : r.states = r.foldr (fun _ s rest => s :: rest) [] := rfl
  rw [hFold, Std.TreeMap.foldr_eq_foldr_toList]
  induction r.toList with
  | nil => rfl
  | cons entry rest ih => simp [ih]

theorem mem_states : s ∈ r.states ↔ ∃ name : String, r[name]? = some s := by
  simp only [states_eq, List.mem_map, Prod.exists, Std.TreeMap.mem_toList_iff_getElem?_eq_some]
  simp

theorem states_of_isEmpty (h : r.isEmpty = true) : r.states = [] := by
  rw [List.eq_nil_iff_forall_not_mem]
  intro s hs
  obtain ⟨name, hName⟩ := mem_states.mp hs
  refine Std.TreeMap.isEmpty_iff_forall_not_mem.mp h name ?_
  rw [Std.TreeMap.mem_iff_isSome_getElem?, hName]
  rfl

theorem exists_mem_states (h : r.isEmpty = false) : ∃ s, s ∈ r.states := by
  obtain ⟨name, hName⟩ := Std.TreeMap.isEmpty_eq_false_iff_exists_mem.mp h
  rw [Std.TreeMap.mem_iff_isSome_getElem?, Option.isSome_iff_exists] at hName
  obtain ⟨s, hs⟩ := hName
  exact ⟨s, mem_states.mpr ⟨name, hs⟩⟩

theorem nodup_names (r : Region S) : (r.toList.map Prod.fst).Nodup := by
  rw [Std.TreeMap.map_fst_toList_eq_keys]
  exact Std.TreeMap.nodup_keys

/-- Entering states under distinct names: the new entries win over the old ones. -/
theorem getElem?_foldl_insert {entries : List (String × S)} (h : (entries.map Prod.fst).Nodup)
    (r : Region S) :
    (entries.foldl (fun r entry => r.insert entry.1 entry.2) r)[name]? = some s ↔
      (name, s) ∈ entries ∨ name ∉ entries.map Prod.fst ∧ r[name]? = some s := by
  induction entries generalizing r with
  | nil => simp
  | cons entry rest ih =>
    obtain ⟨hEntry, hRest⟩ := List.nodup_cons.mp h
    rw [List.foldl_cons, ih hRest, Std.TreeMap.getElem?_insert]
    obtain ⟨n, q⟩ := entry
    by_cases hName : n = name
    · subst hName
      have hFirst : ∀ q', (n, q') ∉ rest := fun q' hMem =>
        hEntry (List.mem_map.mpr ⟨_, hMem, rfl⟩)
      simp [hFirst, hEntry, eq_comm]
    · simp [hName, Ne.symm hName]

/-- What is united with a region stays, where a name occurs in both. -/
theorem getElem?_union :
    (a.union b)[name]? = some s ↔ b[name]? = some s ∨ name ∉ b ∧ a[name]? = some s := by
  have hMem : name ∉ b.toList.map Prod.fst ↔ name ∉ b := by
    rw [Std.TreeMap.map_fst_toList_eq_keys, Std.TreeMap.mem_keys]
  have hFold : (a.union b)[name]? = some s ↔
      (name, s) ∈ b.toList ∨ name ∉ b.toList.map Prod.fst ∧ a[name]? = some s :=
    getElem?_foldl_insert (nodup_names b) a
  rwa [Std.TreeMap.mem_toList_iff_getElem?_eq_some, hMem] at hFold

theorem getElem?_union_eq (a b : Region S) (name : String) :
    (a.union b)[name]? = b[name]?.or a[name]? := by
  refine Option.ext fun s => ?_
  rw [getElem?_union, Std.TreeMap.mem_iff_isSome_getElem?]
  cases b[name]? <;> simp

/-! ## Sizes -/

theorem mem_union : name ∈ a.union b ↔ name ∈ a ∨ name ∈ b := by
  simp only [Std.TreeMap.mem_iff_isSome_getElem?, getElem?_union_eq, Option.isSome_or,
    Bool.or_eq_true, or_comm]

/-- Regions without a common name add up. -/
theorem size_union (h : ∀ name : String, name ∈ b → name ∉ a) :
    (a.union b).size = a.size + b.size := by
  have hNodup : (a.keys ++ b.keys).Nodup := by
    refine List.nodup_append.mpr ⟨Std.TreeMap.nodup_keys, Std.TreeMap.nodup_keys, ?_⟩
    rintro name ha _ hb rfl
    exact h name (Std.TreeMap.mem_keys.mp hb) (Std.TreeMap.mem_keys.mp ha)
  have hPerm : (a.union b).keys.Perm (a.keys ++ b.keys) := by
    refine (List.perm_ext_iff_of_nodup Std.TreeMap.nodup_keys hNodup).mpr fun name => ?_
    simp only [List.mem_append, Std.TreeMap.mem_keys, mem_union]
  simpa only [List.length_append, Std.TreeMap.length_keys] using hPerm.length_eq

/-- A region whose names occur in another one is not larger, and it is as large only if it has them
all. -/
theorem size_le_of_subset (h : ∀ name : String, name ∈ a → name ∈ b) :
    a.size ≤ b.size ∧ (a.size = b.size ↔ ∀ name : String, name ∈ b → name ∈ a) := by
  have hSub : a.keys.Subperm b.keys :=
    List.subperm_of_subset Std.TreeMap.nodup_keys fun name hName =>
    Std.TreeMap.mem_keys.mpr (h name (Std.TreeMap.mem_keys.mp hName))
  simp only [← Std.TreeMap.length_keys, ← Std.TreeMap.mem_keys]
  refine ⟨hSub.length_le, fun hLength name hName => ?_, fun hAll => ?_⟩
  · exact (hSub.perm_of_length_le hLength.ge).mem_iff.mpr hName
  · exact Nat.le_antisymm hSub.length_le
      (List.subperm_of_subset Std.TreeMap.nodup_keys fun name hName => hAll name hName).length_le

/-! ## Regions with the same names -/

/-- Two regions have the same names, and related states under them. -/
def Matched (R : S → S → Prop) (r r' : Region S) : Prop :=
  ∀ name : String, Option.Rel R r[name]? r'[name]?

namespace Matched

variable {R R' : S → S → Prop} {r r' a' b' : Region S} {s s' : S}

/-- Matched regions have states under the same names. -/
theorem under (h : Matched R r r') (name : String) :
    (r[name]? = none ∧ r'[name]? = none) ∨
      ∃ s s', r[name]? = some s ∧ r'[name]? = some s' ∧ R s s' := by
  have hRel := h name
  generalize r[name]? = found at hRel ⊢
  generalize r'[name]? = found' at hRel ⊢
  cases hRel with
  | some hRel => exact .inr ⟨_, _, rfl, rfl, hRel⟩
  | none => exact .inl ⟨rfl, rfl⟩

theorem mono (h : Matched R r r') (hR : ∀ s s', R s s' → R' s s') : Matched R' r r' := by
  intro name
  rcases h.under name with ⟨hs, hs'⟩ | ⟨s, s', hs, hs', hRel⟩ <;> rw [hs, hs']
  · exact .none
  · exact .some (hR s s' hRel)

theorem refl (h : ∀ s ∈ r.states, R s s) : Matched R r r := by
  intro name
  cases hGet : r[name]? with
  | some s => exact .some (h s (mem_states.mpr ⟨name, hGet⟩))
  | none => exact .none

theorem empty : Matched R ({} : Region S) {} := by
  intro name
  simp only [Std.TreeMap.getElem?_emptyc]
  exact .none

theorem insert (h : Matched R r r') (name : String) (hs : R s s') :
    Matched R (r.insert name s) (r'.insert name s') := by
  intro name'
  rw [Std.TreeMap.getElem?_insert, Std.TreeMap.getElem?_insert]
  split
  · exact .some hs
  · exact h name'

theorem map {f f' : S → S} (h : Matched (fun s s' => R (f s) (f' s')) r r') :
    Matched R (r.map fun _ s => f s) (r'.map fun _ s => f' s) := by
  intro name
  rw [Std.TreeMap.getElem?_map, Std.TreeMap.getElem?_map]
  rcases h.under name with ⟨hs, hs'⟩ | ⟨s, s', hs, hs', hRel⟩ <;> rw [hs, hs']
  · exact .none
  · exact .some hRel

theorem union (ha : Matched R a a') (hb : Matched R b b') :
    Matched R (a.union b) (a'.union b') := by
  intro name
  rw [getElem?_union_eq, getElem?_union_eq]
  rcases hb.under name with ⟨hs, hs'⟩ | ⟨s, s', hs, hs', hRel⟩ <;> rw [hs, hs']
  · exact ha name
  · exact .some hRel

theorem mem_iff (h : Matched R r r') (name : String) : name ∈ r ↔ name ∈ r' := by
  rw [Std.TreeMap.mem_iff_isSome_getElem?, Std.TreeMap.mem_iff_isSome_getElem?]
  rcases h.under name with ⟨hs, hs'⟩ | ⟨s, s', hs, hs', -⟩ <;> simp [hs, hs']

theorem isEmpty_eq (h : Matched R r r') : r'.isEmpty = r.isEmpty := by
  rw [Bool.eq_iff_iff, Std.TreeMap.isEmpty_iff_forall_not_mem,
    Std.TreeMap.isEmpty_iff_forall_not_mem]
  exact forall_congr' fun name => not_congr (h.mem_iff name).symm

/-- The names come in the same order. -/
theorem keys_eq (h : Matched R r r') : r'.keys = r.keys := by
  have hPerm : r'.keys.Perm r.keys := by
    rw [List.perm_ext_iff_of_nodup Std.TreeMap.nodup_keys Std.TreeMap.nodup_keys]
    intro name
    rw [Std.TreeMap.mem_keys, Std.TreeMap.mem_keys, h.mem_iff name]
  refine hPerm.eq_of_pairwise (fun name name' _ _ hlt hgt => ?_) Std.TreeMap.ordered_keys
    Std.TreeMap.ordered_keys
  rw [Std.OrientedCmp.gt_iff_lt.mpr hlt] at hgt
  cases hgt

/-- The states come in the same order. -/
theorem toList (h : Matched R r r') :
    List.Forall₂ (fun entry entry' => entry'.1 = entry.1 ∧ R entry.2 entry'.2) r.toList
      r'.toList := by
  have hKeys : r'.toList.map Prod.fst = r.toList.map Prod.fst := by
    rw [Std.TreeMap.map_fst_toList_eq_keys, Std.TreeMap.map_fst_toList_eq_keys, h.keys_eq]
  have hRelated : ∀ entry ∈ r.toList, ∀ entry' ∈ r'.toList, entry'.1 = entry.1 →
      R entry.2 entry'.2 := by
    rintro ⟨name, s⟩ hs ⟨name', s'⟩ hs' heq
    obtain rfl : name' = name := heq
    rw [Std.TreeMap.mem_toList_iff_getElem?_eq_some] at hs hs'
    have hRel := h name'
    rw [hs, hs'] at hRel
    cases hRel with
    | some hRel => exact hRel
  generalize Std.TreeMap.toList r = entries at hKeys hRelated ⊢
  generalize Std.TreeMap.toList r' = entries' at hKeys hRelated ⊢
  induction entries generalizing entries' with
  | nil =>
    rw [List.map_nil, List.map_eq_nil_iff] at hKeys
    rw [hKeys]
    exact .nil
  | cons entry rest ih =>
    cases entries' with
    | nil => cases hKeys
    | cons entry' rest' =>
      obtain ⟨hName, hNames⟩ := List.cons.inj hKeys
      refine .cons ⟨hName, hRelated _ List.mem_cons_self _ List.mem_cons_self hName⟩ ?_
      refine ih rest' hNames fun e he e' he' => ?_
      exact hRelated e (List.mem_cons_of_mem _ he) e' (List.mem_cons_of_mem _ he')

theorem states (h : Matched R r r') : List.Forall₂ R r.states r'.states := by
  rw [states_eq, states_eq, List.forall₂_map_left_iff, List.forall₂_map_right_iff]
  exact h.toList.imp fun _ _ hRel => hRel.2

theorem size_eq (h : Matched R r r') : r'.size = r.size := by
  rw [← Std.TreeMap.length_toList, ← Std.TreeMap.length_toList]
  exact h.toList.length_eq.symm

end Matched

/-- A region that is part of another one has the same states in the same order, but for those that
it lacks. -/
theorem toList_eq_filter {few many : Region S}
    (h : ∀ (name : String) q, few[name]? = some q → many[name]? = some q) :
    few.toList = many.toList.filter fun entry => few.contains entry.1 := by
  have hMem : ∀ entry, entry ∈ few.toList ↔
      entry ∈ many.toList.filter fun entry => few.contains entry.1 := by
    rintro ⟨name, q⟩
    rw [List.mem_filter, Std.TreeMap.mem_toList_iff_getElem?_eq_some,
      Std.TreeMap.mem_toList_iff_getElem?_eq_some]
    constructor
    · intro hq
      exact ⟨h name q hq, by simp [Std.TreeMap.contains_eq_isSome_getElem?, hq]⟩
    · rintro ⟨hq, hName⟩
      rw [Std.TreeMap.contains_eq_isSome_getElem?, Option.isSome_iff_exists] at hName
      obtain ⟨q', hq'⟩ := hName
      have hSame := h name q' hq'
      rw [hq] at hSame
      cases hSame
      exact hq'
  have hNodup : ∀ r : Region S, r.toList.Nodup := fun r =>
    List.Pairwise.of_map Prod.fst (fun a b hne heq => hne (congrArg Prod.fst heq)) (nodup_names r)
  have hOrdered : ∀ r : Region S, r.toList.Pairwise fun a b => compare a.1 b.1 = .lt := fun r => by
    have hKeys := Std.TreeMap.ordered_keys (t := r)
    rwa [← Std.TreeMap.map_fst_toList_eq_keys, List.pairwise_map] at hKeys
  have hPerm := (List.perm_ext_iff_of_nodup (hNodup few) ((hNodup many).filter _)).mpr hMem
  refine hPerm.eq_of_pairwise (fun a b _ _ hlt hgt => ?_) (hOrdered few) ((hOrdered many).filter _)
  rw [Std.OrientedCmp.gt_iff_lt.mpr hlt] at hgt
  cases hgt

/-! ## Differences -/

/-- Of states under different names, those are kept that have values outside of what is covered. -/
theorem ensures_uncovered (env : Surroundings σ) (covered : Expr)
    {entries : List (String × SymbolicState)} (hDistinct : (entries.map Prod.fst).Nodup)
    {t : Session σ ω} :
    Ensures t (uncovered env covered entries)
      (fun added t' => t'.work = t.work ∧
        (∀ name s, added[name]? = some s → (name, s) ∈ entries ∧
          env.solver.Answers (s.outside covered) .sat) ∧
        ∀ name s, (name, s) ∈ entries → added[name]? = some s ∨
          env.solver.Answers (s.outside covered) .unsat)
      (fun _ => True) := by
  induction entries generalizing t with
  | nil => exact .pure ⟨rfl, by simp, by simp⟩
  | cons entry rest ih =>
    obtain ⟨n, q⟩ := entry
    obtain ⟨hEntry, hRest⟩ := List.nodup_cons.mp hDistinct
    refine Ensures.bind ((ensures_holds _ _).mono (fun _ _ h => h) fun _ _ => trivial)
      fun new t' ⟨hAnswer, ht'⟩ => ?_
    have hRestOf := ih hRest (t := t')
    cases new with
    | true =>
      simp only [if_true] at hAnswer ⊢
      refine hRestOf.bind fun added t'' ⟨ht'', hFrom, hAll⟩ => .pure ⟨ht''.trans ht', ?_, ?_⟩
      · intro name s hs
        rw [Std.TreeMap.getElem?_insert] at hs
        split at hs
        · next hName =>
          cases hs
          rw [Std.LawfulEqCmp.compare_eq_iff_eq.mp hName]
          exact ⟨List.mem_cons_self, hAnswer⟩
        · exact (hFrom name s hs).imp_left (List.mem_cons_of_mem _)
      · intro name s hs
        rw [Std.TreeMap.getElem?_insert]
        rcases List.mem_cons.mp hs with heq | hs
        · cases heq
          simp
        · -- the names differ, so the new entry replaces none
          have hne : n ≠ name := fun heq => hEntry (List.mem_map.mpr ⟨_, hs, heq.symm⟩)
          simpa [hne] using hAll name s hs
    | false =>
      simp only [Bool.false_eq_true, if_false] at hAnswer ⊢
      refine hRestOf.mono (fun added t'' ⟨ht'', hFrom, hAll⟩ => ⟨ht''.trans ht', ?_, ?_⟩)
        fun _ h => h
      · exact fun name s hs => (hFrom name s hs).imp_left (List.mem_cons_of_mem _)
      · intro name s hs
        rcases List.mem_cons.mp hs with heq | hs
        · cases heq
          exact .inr hAnswer
        · exact hAll name s hs

/-- What a region adds to another one: those of its states that have values which the other one does
not cover. -/
theorem ensures_difference (env : Surroundings σ) (r reached : Region SymbolicState)
    (xs : List Variable) {t : Session σ ω} :
    Ensures t (difference env r reached xs)
      (fun added t' => t'.work = t.work ∧
        (∀ (name : String) s, added[name]? = some s → r[name]? = some s ∧
          env.solver.Answers (s.outside (reached.covered xs)) .sat) ∧
        ∀ (name : String) (s : SymbolicState), r[name]? = some s → added[name]? = some s ∨
          env.solver.Answers (s.outside (reached.covered xs)) .unsat)
      (fun _ => True) := by
  have h := ensures_uncovered env (reached.covered xs) (nodup_names r) (t := t)
  simp only [Std.TreeMap.mem_toList_iff_getElem?_eq_some] at h
  exact h

/-! ## New values -/

section NewValues

variable {r reached result : Region ConcreteState} {entry : String × ConcreteState}
  {q : ConcreteState}

/-- Takes an entry, unless its values occur already. -/
def takeNew (reached result : Region ConcreteState) (entry : String × ConcreteState) :
    Region ConcreteState :=
  if reached.states.any entry.2.sameValues || result.states.any entry.2.sameValues then result
  else result.insert entry.1 entry.2

theorem newValues_eq (r reached : Region ConcreteState) :
    r.newValues reached = r.toList.foldl (takeNew reached) {} :=
  rfl

/-- A concrete state is dropped if its values are known, and entered otherwise. -/
theorem takeNew_cases (reached result : Region ConcreteState) (entry : String × ConcreteState) :
    (takeNew reached result entry = result ∧
      ∃ c, (c ∈ reached.states ∨ c ∈ result.states) ∧ entry.2.values = c.values) ∨
    (takeNew reached result entry = result.insert entry.1 entry.2 ∧
      ∀ c ∈ reached.states, entry.2.values ≠ c.values) := by
  have hAny : ∀ states : List ConcreteState, states.any entry.2.sameValues = true ↔
      ∃ c ∈ states, entry.2.values = c.values := fun states => by
    simp only [List.any_eq_true, ConcreteState.sameValues, decide_eq_true_eq]
  unfold takeNew
  split
  · next hKnown =>
    rw [Bool.or_eq_true, hAny, hAny] at hKnown
    rcases hKnown with ⟨c, hc, hSame⟩ | ⟨c, hc, hSame⟩
    · exact .inl ⟨rfl, c, .inl hc, hSame⟩
    · exact .inl ⟨rfl, c, .inr hc, hSame⟩
  · next hNew =>
    refine .inr ⟨rfl, fun c hc hSame => hNew ?_⟩
    rw [Bool.or_eq_true, hAny]
    exact .inl ⟨c, hc, hSame⟩

theorem getElem?_insert_entry (result : Region ConcreteState) (entry : String × ConcreteState)
    (name : String) :
    (result.insert entry.1 entry.2)[name]? =
      if entry.1 = name then some entry.2 else result[name]? := by
  rw [Std.TreeMap.getElem?_insert]
  simp only [Std.LawfulEqCmp.compare_eq_iff_eq]

/-- What a region of concrete states adds to another one: states with values that the other one does
not have. -/
theorem getElem?_newValues (h : (r.newValues reached)[name]? = some q) :
    r[name]? = some q ∧ ∀ c ∈ reached.states, q.values ≠ c.values := by
  rw [newValues_eq] at h
  -- each entry is either taken or left out, so nothing comes in but entries with new values
  suffices hFold : ∀ (entries : List (String × ConcreteState)) (result : Region ConcreteState),
      (entries.foldl (takeNew reached) result)[name]? = some q → result[name]? = some q ∨
        (name, q) ∈ entries ∧ ∀ c ∈ reached.states, q.values ≠ c.values by
    rcases hFold r.toList {} h with hNone | hEntry
    · simp at hNone
    · rwa [Std.TreeMap.mem_toList_iff_getElem?_eq_some] at hEntry
  intro entries
  induction entries with
  | nil => exact fun result hq => .inl hq
  | cons entry entries ih =>
    intro result hq
    rw [List.foldl_cons] at hq
    rcases ih _ hq with hq | ⟨hMem, hNew⟩
    · rcases takeNew_cases reached result entry with ⟨hSame, -⟩ | ⟨hInsert, hNew⟩
      · exact .inl (hSame ▸ hq)
      · rw [hInsert, getElem?_insert_entry] at hq
        split at hq
        · next hName =>
          cases hq
          subst hName
          exact .inr ⟨List.mem_cons_self, hNew⟩
        · exact .inl hq
    · exact .inr ⟨List.mem_cons_of_mem _ hMem, hNew⟩

/-- What is taken stays, because later entries have other names. -/
theorem foldl_takeNew {entries : List (String × ConcreteState)}
    (hNodup : (entries.map Prod.fst).Nodup)
    (hNames : ∀ name : String, name ∈ result → name ∉ entries.map Prod.fst) :
    (∀ (name : String) c, result[name]? = some c →
      (entries.foldl (takeNew reached) result)[name]? = some c) ∧
    ∀ entry ∈ entries, (entries.foldl (takeNew reached) result)[entry.1]? = some entry.2 ∨
      ∃ c, (c ∈ reached.states ∨ c ∈ (entries.foldl (takeNew reached) result).states) ∧
        entry.2.values = c.values := by
  induction entries generalizing result with
  | nil => exact ⟨fun _ _ h => h, nofun⟩
  | cons entry entries ih =>
    obtain ⟨hEntry, hRest⟩ := List.nodup_cons.mp hNodup
    have hOther : ∀ name : String, name ∈ result → name ∉ entries.map Prod.fst :=
      fun name hName hMem => hNames name hName (List.mem_cons_of_mem _ hMem)
    rw [List.foldl_cons]
    rcases takeNew_cases reached result entry with ⟨hSame, c, hc, hValues⟩ | ⟨hInsert, -⟩
    · rw [hSame]
      obtain ⟨hKept, hEntries⟩ := ih hRest hOther
      refine ⟨hKept, List.forall_mem_cons.mpr ⟨.inr ⟨c, hc.imp_right fun hc => ?_, hValues⟩,
        hEntries⟩⟩
      obtain ⟨name, hName⟩ := mem_states.mp hc
      exact mem_states.mpr ⟨name, hKept name c hName⟩
    · rw [hInsert]
      have hInserted : ∀ name : String, name ∈ result.insert entry.1 entry.2 →
          name ∉ entries.map Prod.fst := by
        intro name hName
        rcases Std.TreeMap.mem_insert.mp hName with heq | hName
        · rwa [← Std.LawfulEqCmp.compare_eq_iff_eq.mp heq]
        · exact hOther name hName
      obtain ⟨hKept, hEntries⟩ := ih hRest hInserted
      refine ⟨fun name c hc => hKept name c ?_,
        List.forall_mem_cons.mpr ⟨.inl (hKept _ _ ?_), hEntries⟩⟩
      · rw [getElem?_insert_entry, if_neg, hc]
        rintro rfl
        refine hNames entry.1 ?_ List.mem_cons_self
        rw [Std.TreeMap.mem_iff_isSome_getElem?, hc]
        rfl
      · rw [getElem?_insert_entry, if_pos rfl]

/-- What is left out of a region has values that the other one has, or that are added under another
name. -/
theorem getElem?_newValues_or (h : r[name]? = some q) : (r.newValues reached)[name]? = some q ∨
    ∃ c, (c ∈ reached.states ∨ c ∈ (r.newValues reached).states) ∧ q.values = c.values := by
  rw [newValues_eq]
  exact (foldl_takeNew (nodup_names r) (by simp)).2 (name, q)
    (Std.TreeMap.mem_toList_iff_getElem?_eq_some.mpr h)

end NewValues

end StateSpace.Region
