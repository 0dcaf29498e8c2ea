import StateSpace.Proofs.Description.Scope
import StateSpace.Proofs.Unrolling.Integrity

/-!
# Hidden names follow the paths

A transition hides the old values of state variables and its parameters under names of its own, and
the successor takes along what the state before has hidden. So a hidden name in a state tells a
transition on the path to the state (`Unrolling.Hygiene`). A transition that is fired hides nothing
under a name that occurs already, and states share a hidden name only where their paths meet
(`Unrolling.hidden_names_follow_paths`).
-/

namespace StateSpace

open Renaming Explore

/-! ## One transition -/

/-- A variable occurs free in a formula of a state. -/
def SymbolicState.Mentions (s : SymbolicState) (y : Variable) : Prop :=
  ∃ entry ∈ s.formulas, entry.2.Free y

/-- A name under which a transition hides one of some variables. -/
def Renaming.HidesOneOf (xs : List Variable) (t : Nat) (name : String) : Prop :=
  ∃ x ∈ xs, name = stateVariableName x.name t ∨ name = parameterName x.name t

theorem Renaming.HidesOneOf.isHiddenAt {xs : List Variable} {t : Nat} {name : String}
    (h : HidesOneOf xs t name) : IsHiddenAt t name := by
  obtain ⟨x, -, hName⟩ := h
  exact ⟨x.name, hName⟩

theorem Renaming.HidesOneOf.mono {xs ys : List Variable} {t : Nat} {name : String}
    (h : HidesOneOf xs t name) (hSub : xs ⊆ ys) : HidesOneOf ys t name := by
  obtain ⟨x, hx, hName⟩ := h
  exact ⟨x, hSub hx, hName⟩

/-- What the successor of a state mentions: a state variable, what the transition hides, or what the
state mentions under a hidden name. -/
theorem Label.Hygienic.mentions_applyTo {xs : List Variable} {l : Label} {s : SymbolicState}
    {t id : Nat}
    {y : Variable} (hl : l.Hygienic xs) (hs : s.Tidy xs t) (hy : (l.applyTo s t id).Mentions y) :
    y ∈ xs ∨ HidesOneOf (xs ++ l.parameters) t y.name ∨ s.Mentions y ∧ y ∉ xs := by
  obtain ⟨entry, hMem, hFree⟩ := hy
  rw [formulas_applyTo, hl.ranges, List.mem_map] at hMem
  obtain ⟨x, hx, rfl⟩ := hMem
  have hqf := hl.quantifierFree_successorFormula hs hx
  obtain ⟨_, hRenamed, rfl⟩ := (Expr.free_rename hqf.rename.renamable).mp hFree
  obtain ⟨z, hz, rfl⟩ := (Expr.free_rename hqf.renamable).mp hRenamed
  have hDeclared : z ∈ xs ++ l.parameters → HidesOneOf (xs ++ l.parameters) t
      ((ofList [(x.primed.name, x.name)]).move ((ofTransition xs l.parameters t).move z)).name := by
    intro hDeclared
    have hName := List.mem_map_of_mem (f := Variable.name) hDeclared
    have hHidden : IsHiddenAt t ((ofTransition xs l.parameters t).move z).name :=
      isHiddenAt_apply_ofTransition hName
    rw [move_restore_of_ne (hHidden.ne_primed x)]
    exact ⟨z, hDeclared, apply_ofTransition hName⟩
  rcases (Expr.free_foldl_and _).mp hz with hEffect | ⟨e, he, hRead⟩
  · have hScope := (hl.effectOn hx).inScope z hEffect
    rw [List.mem_append, List.mem_singleton] at hScope
    rcases hScope with hScope | rfl
    · exact .inr (.inl (hDeclared hScope))
    · rw [hl.move_primed, move_restore_primed]
      exact .inl hx
  · obtain ⟨v, -, -, hFormula⟩ := mem_read he
    rcases hs.known _ hFormula z hRead with hVariable | ⟨k, hk, hHidden⟩
    · exact .inr (.inl (hDeclared (List.mem_append_left _ hVariable)))
    · -- what is hidden already keeps its name
      rw [hl.move_of_hidden hHidden, move_restore_of_ne (hHidden.ne_primed x)]
      refine .inr (.inr ⟨⟨_, hFormula, hRead⟩, fun hVariable => ?_⟩)
      exact hl.notMem_names_of_hidden hHidden
        (List.mem_map_of_mem (List.mem_append_left _ hVariable))

namespace Unrolling

variable {system : System} {u v : Unrolling} {t : Transition} {id k depth : Nat}

/-! ## Paths -/

/-- A transition lies on the path to a state: it comes in there, or it lies on the path to the state
where an incoming transition starts. -/
inductive OnPath (u : Unrolling) : Nat → Nat → Prop
  | last {id k : Nat} (h : k ∈ (u.state id).incoming) : OnPath u id k
  | earlier {id j k : Nat} {t : Transition} (hj : j ∈ (u.state id).incoming)
      (ht : u.transition? j = some t) (h : OnPath u t.start k) : OnPath u id k

theorem OnPath.mono (hIncoming : ∀ id, (u.state id).incoming ⊆ (v.state id).incoming)
    (hTransition : ∀ k t, u.transition? k = some t → v.transition? k = some t) (h : u.OnPath id k) :
    v.OnPath id k := by
  induction h with
  | last h => exact .last (hIncoming _ h)
  | earlier hj ht _ ih => exact .earlier (hIncoming _ hj) (hTransition _ _ ht) ih

theorem state_of_size_le (h : u.states.size ≤ id) : u.state id = .error id := by
  simp [state, Array.getD, Nat.not_lt.mpr h]

namespace Linked

/-- The incoming transitions of a state are those that lead to it. -/
theorem mem_incoming (h : Linked u) :
    k ∈ (u.state id).incoming ↔ ∃ t ∈ u.transitions, t.target = some id ∧ t.id = k := by
  have hInto : k ∈ u.transitionsInto id ↔ ∃ t ∈ u.transitions, t.target = some id ∧ t.id = k := by
    simp only [transitionsInto, List.mem_map, List.mem_filter, decide_eq_true_eq,
      Array.mem_toList_iff, and_assoc]
  by_cases hid : id < u.states.size
  · rw [h.incoming id hid, hInto]
  · rw [← hInto, h.transitionsInto_eq_nil (Nat.not_lt.mp hid),
      state_of_size_le (Nat.not_lt.mp hid)]
    rfl

/-- A transition is found under its number. -/
theorem transition?_eq_some (h : Linked u) :
    u.transition? k = some t ↔ t ∈ u.transitions ∧ t.id = k := by
  have hid : ∀ i t, u.transitions.toList[i]? = some t → t.id = i + 1 := by
    intro i t hi
    have hlt : i < u.transitions.size := (List.getElem?_eq_some_iff.mp hi).1
    have hNumber : (u.transitions.toList.map (·.id))[i]? = some t.id := by
      rw [List.getElem?_map, hi]
      rfl
    rw [h.numbered, List.getElem?_range' hlt, Option.some.injEq] at hNumber
    omega
  constructor
  · intro hk
    unfold transition? at hk
    split at hk
    · cases hk
    · have hList : u.transitions.toList[k - 1]? = some t := by rw [Array.getElem?_toList, hk]
      have hNumber := hid (k - 1) t hList
      exact ⟨Array.mem_of_getElem? hk, by omega⟩
  · rintro ⟨ht, rfl⟩
    obtain ⟨i, hi⟩ := List.mem_iff_getElem?.mp (Array.mem_toList_iff.mpr ht)
    rw [hid i t hi, transition?, if_neg (Nat.succ_ne_zero i), Nat.add_sub_cancel,
      ← Array.getElem?_toList, hi]

theorem eq_of_id_eq (h : Linked u) {t' : Transition} (ht : t ∈ u.transitions)
    (ht' : t' ∈ u.transitions) (hid : t'.id = t.id) : t' = t := by
  have hFound := h.transition?_eq_some.mpr ⟨ht', hid⟩
  rw [h.transition?_eq_some.mpr ⟨ht, rfl⟩, Option.some.injEq] at hFound
  exact hFound.symm

end Linked

/-- Paths stay when transitions are added. -/
theorem OnPath.grows (hu : Linked u) (hv : Linked v)
    (hGrown : u.transitions.toList <+: v.transitions.toList) (h : u.OnPath id k) :
    v.OnPath id k := by
  have hMem : ∀ t ∈ u.transitions, t ∈ v.transitions := fun t ht =>
    Array.mem_toList_iff.mp (hGrown.subset (Array.mem_toList_iff.mpr ht))
  refine h.mono (fun id k hk => ?_) fun k t ht => ?_
  · obtain ⟨t, ht, hEnds⟩ := hu.mem_incoming.mp hk
    exact hv.mem_incoming.mpr ⟨t, hMem t ht, hEnds⟩
  · rw [hu.transition?_eq_some] at ht
    exact hv.transition?_eq_some.mpr ⟨hMem t ht.1, ht.2⟩

/-! ## Changes -/

/-- The states mention state variables and what transitions on their paths have hidden, and
transitions lead from older states to newer ones, unless they lead to the error state. -/
structure Hygiene (system : System) (u : Unrolling) : Prop where
  orderly : Orderly system u
  intact : Intact u
  hidden : ∀ id y, (u.state id).Mentions y → y ∈ system.stateVariables ∨
    ∃ k, u.OnPath id k ∧ HidesOneOf system.declared k y.name
  forward : ∀ t ∈ u.transitions, ∀ id ≠ errorId, t.target = some id → t.start < id

/-- Every change keeps the states orderly. -/
theorem Change.orderly (h : Change u v) (hSystem : system.Hygienic) (hu : Orderly system u) :
    Orderly system v := by
  have hv := h.wellFormed hu.wellFormed
  cases h with
  | default => exact hu.withDefault hSystem.toWellScoped
  | fired hFire hSource hne hl =>
    rw [hu.system_eq] at hl
    exact hFire.orderly hu (hSystem.label hl) hSource hne
  | _ => exact ⟨hv, hu.system_eq, hu.tidy⟩

/-- What a change adds comes after what was there. -/
theorem Change.transitions_grow (h : Change u v) (hu : u.WellFormed) :
    u.transitions.toList <+: v.transitions.toList := by
  cases h with
  | fired hFire => exact (hFire.grows hu).transitions
  | _ => exact List.prefix_rfl

/-- The states that were there say what they said. -/
theorem Change.formulas_eq (h : Change u v) (hu : u.WellFormed) (hNumbered : Numbered u)
    (hid : id < u.states.size) : (v.state id).formulas = (u.state id).formulas := by
  have hv := h.numbered hu hNumbered
  by_cases hne : id = errorId
  · subst hne
    exact hv.formulas.trans hNumbered.formulas.symm
  cases h with
  | default => rw [state_withDefault, if_neg (Nat.ne_of_lt hid)]
  | fired hFire => exact SymbolicState.formulas_of_bare ((hFire.grows hu).bare id hid hne)
  | _ => rfl

/-- Only firings add transitions, and they lead to the error state or a new one. -/
theorem Change.forward (h : Change u v)
    (hu : ∀ t ∈ u.transitions, ∀ id ≠ errorId, t.target = some id → t.start < id) :
    ∀ t ∈ v.transitions, ∀ id ≠ errorId, t.target = some id → t.start < id := by
  cases h with
  | fired hFire hSource =>
    cases hFire with
    | disabled => exact hu
    | failed =>
      intro t ht id hne hTarget
      rw [transitions_enterError, Array.mem_push] at ht
      rcases ht with hOld | rfl
      · exact hu t hOld id hne hTarget
      · cases hTarget
        exact absurd rfl hne
    | succeeded =>
      intro t ht id hne hTarget
      rw [transitions_enterSuccessor, Array.mem_push] at ht
      rcases ht with hOld | rfl
      · exact hu t hOld id hne hTarget
      · cases hTarget
        exact hSource
  | _ => exact hu

theorem not_mentions_of_size_le (h : u.states.size ≤ id) (y : Variable) :
    ¬(u.state id).Mentions y := by
  rw [state_of_size_le h]
  rintro ⟨entry, hEntry, -⟩
  cases hEntry

/-- A successor mentions state variables, what the next transition hides, and what was hidden on the
path to its source. -/
theorem Hygiene.hidden_successor (hu : Hygiene system u) (hSystem : system.Hygienic) {l : Label}
    {source : Nat} {y : Variable} (hl : l ∈ system.labels) (hSource : source < u.states.size)
    (hne : source ≠ errorId) (hy : (l.applyTo (u.state source) u.nextTransition id).Mentions y) :
    y ∈ system.stateVariables ∨ HidesOneOf system.declared u.nextTransition y.name ∨
      ∃ k, u.OnPath source k ∧ HidesOneOf system.declared k y.name := by
  have hScope : system.stateVariables ++ l.parameters ⊆ system.declared :=
    List.append_subset.mpr ⟨List.subset_append_left _ _, fun x hx =>
      List.mem_append_right _ (List.mem_flatMap.mpr ⟨l, hl, hx⟩)⟩
  have hTidy := hu.orderly.tidy source hSource hne
  rcases (hSystem.label hl).mentions_applyTo hTidy hy with hVariable | hHides | ⟨hBefore, hno⟩
  · exact .inl hVariable
  · exact .inr (.inl (hHides.mono hScope))
  · exact .inr (.inr ((hu.hidden source y hBefore).resolve_left hno))

/-- Every change keeps the states to what their own paths have hidden. -/
theorem Change.hygiene (h : Change u v) (hSystem : system.Hygienic) (hu : Hygiene system u) :
    Hygiene system v := by
  have hwf := hu.orderly.wellFormed
  have hv := h.intact hwf hu.intact
  have hPaths : ∀ id k, u.OnPath id k → v.OnPath id k := fun id k hk =>
    hk.grows hu.intact.links hv.links (h.transitions_grow hwf)
  refine ⟨h.orderly hSystem hu.orderly, hv, fun id y hy => ?_, h.forward hu.forward⟩
  by_cases hid : id < u.states.size
  · -- a state that was there mentions what it did, and its path is as before
    rw [SymbolicState.Mentions, h.formulas_eq hwf hu.intact.states hid] at hy
    rcases hu.hidden id y hy with hVariable | ⟨k, hk, hName⟩
    · exact .inl hVariable
    · exact .inr ⟨k, hPaths id k hk, hName⟩
  rw [Nat.not_lt] at hid
  cases h with
  | default =>
    rw [state_withDefault] at hy
    split at hy
    · obtain ⟨entry, hEntry, hFree⟩ := hy
      rw [hu.orderly.system_eq] at hEntry
      -- nothing has been hidden before the first transition
      have hTidy := hSystem.toWellScoped.tidy_defaultState u.states.size 0
      exact .inl ((hTidy.known entry hEntry y hFree).resolve_right fun ⟨k, hk, _⟩ => by omega)
    · exact absurd hy (not_mentions_of_size_le hid y)
  | @fired _ _ source l _ hFire hSource hne hl =>
    cases hFire with
    | disabled => exact absurd hy (not_mentions_of_size_le hid y)
    | failed =>
      refine absurd hy (not_mentions_of_size_le ?_ y)
      rwa [size_states_enterError]
    | succeeded new =>
      by_cases hNew : id = u.states.size
      · subst hNew
        rw [hu.orderly.system_eq] at hl
        rw [SymbolicState.Mentions, formulas_entered] at hy
        -- the transition that was fired comes in at the new state
        have hin := hv.links.mem_incoming.mpr
          ⟨_, transitions_enterSuccessor ▸ Array.mem_push_self, rfl, rfl⟩
        rcases hu.hidden_successor hSystem hl hSource hne hy with
          hVariable | hHides | ⟨k, hk, hName⟩
        · exact .inl hVariable
        · exact .inr ⟨_, .last hin, hHides⟩
        · have hFound := hv.links.transition?_eq_some.mpr
            ⟨transitions_enterSuccessor ▸ Array.mem_push_self, rfl⟩
          exact .inr ⟨k, .earlier hin hFound (hPaths source k hk), hName⟩
      · refine absurd hy (not_mentions_of_size_le ?_ y)
        rw [size_states_enterSuccessor]
        omega
  | _ => exact absurd hy (not_mentions_of_size_le hid y)

/-! ## Calls -/

/-- Before the start, nothing is hidden. -/
theorem hygiene_unstarted (system : System) : Hygiene system { system := system } where
  orderly := orderly_unstarted system
  intact := intact_unstarted system
  hidden id y hy := by
    have hFormulas : (({ system := system } : Unrolling).state id).formulas = [] := by
      by_cases hid : id = errorId
      · rw [hid]
        rfl
      · rw [state_of_size_le (Nat.one_le_iff_ne_zero.mpr hid)]
        rfl
    rw [SymbolicState.Mentions, hFormulas] at hy
    obtain ⟨entry, hEntry, -⟩ := hy
    cases hEntry
  forward := by simp

theorem Reached.hygiene (h : Reached system u) (hSystem : system.Hygienic) : Hygiene system u :=
  h.keeps (Hygiene system) (hygiene_unstarted system) fun _ _ _ _ hu hChange =>
    hChange.hygiene hSystem hu

/-- A hidden name tells a transition on the path. -/
theorem Hygiene.onPath (hu : Hygiene system u) (hSystem : system.Hygienic) {y : Variable}
    (hy : (u.state id).Mentions y) (hk : IsHiddenAt k y.name) : u.OnPath id k := by
  rcases hu.hidden id y hy with hVariable | ⟨j, hPath, hName⟩
  · have hVisible := hSystem.visible y (List.mem_append_left _ hVariable)
    rw [hk.isHidden] at hVisible
    cases hVisible
  · rwa [hk.unique hName.isHiddenAt]

/-- The transitions on the path to a state lead to this state or an older one. -/
theorem Hygiene.target_le (hu : Hygiene system u) (h : u.OnPath id k) (hid : id ≠ errorId) :
    ∃ t ∈ u.transitions, t.id = k ∧ ∃ target ≤ id, target ≠ errorId ∧ t.target = some target := by
  induction h with
  | last h =>
    obtain ⟨t, ht, hTarget, hk⟩ := hu.intact.links.mem_incoming.mp h
    exact ⟨t, ht, hk, _, Nat.le_refl _, hid, hTarget⟩
  | @earlier id j k t hj ht _ ih =>
    obtain ⟨hMem, rfl⟩ := hu.intact.links.transition?_eq_some.mp ht
    obtain ⟨t', ht', hTarget, hSame⟩ := hu.intact.links.mem_incoming.mp hj
    obtain rfl := hu.intact.links.eq_of_id_eq hMem ht' hSame
    have hlt := hu.forward t' ht' id hid hTarget
    obtain ⟨t'', ht'', hk, target, hle, hne, heq⟩ := ih (hu.intact.routes.start_ne t' ht')
    exact ⟨t'', ht'', hk, target, by omega, hne, heq⟩

/-- Let a system be read from a description that declares its variables first, with no declared name
that looks like a hidden one. Whatever calls have led to an unrolling, a state other than the error
state has one incoming transition at most. It mentions state variables and names under which
transitions on its path hide declared variables. No state mentions what the next transition hides,
or what a transition to a newer state has hidden, and a hidden name in two states tells a transition
on both paths. -/
theorem hidden_names_follow_paths {text : String}
    (hParse : Description.parseSystem text = .ok system) (hFirst : Description.DeclaresFirst text)
    (hVisible : ∀ x ∈ system.declared, isHidden x.name = false) (h : Reached system u) :
    (∀ id < u.states.size, id ≠ errorId → (u.state id).incoming.length ≤ 1) ∧
    (∀ id y, (u.state id).Mentions y → y ∈ system.stateVariables ∨
      ∃ k, u.OnPath id k ∧ HidesOneOf system.declared k y.name) ∧
    (∀ id y, (u.state id).Mentions y → ¬IsHiddenAt u.nextTransition y.name) ∧
    (∀ t ∈ u.transitions, ∀ target ≠ errorId, t.target = some target →
      ∀ id < target, ∀ y, (u.state id).Mentions y → ¬IsHiddenAt t.id y.name) ∧
    ∀ id id' y y' k, (u.state id).Mentions y → (u.state id').Mentions y' → y'.name = y.name →
      IsHiddenAt k y.name → u.OnPath id k ∧ u.OnPath id' k := by
  have hSystem : system.Hygienic :=
    ⟨Description.wellScoped_of_declaresFirst hParse hFirst, hVisible⟩
  have hu := h.hygiene hSystem
  have hNotError : ∀ id y, (u.state id).Mentions y → id ≠ errorId := by
    rintro id y ⟨entry, hEntry, -⟩ rfl
    have hFormulas : (u.state errorId).formulas = [] := hu.intact.states.formulas
    rw [hFormulas] at hEntry
    cases hEntry
  have hBehind : ∀ id y k, (u.state id).Mentions y → IsHiddenAt k y.name →
      ∃ t ∈ u.transitions, t.id = k ∧ ∃ target ≤ id, target ≠ errorId ∧ t.target = some target :=
    fun id y k hy hk => hu.target_le (hu.onPath hSystem hy hk) (hNotError id y hy)
  refine ⟨fun id hid hne => ?_, hu.hidden, fun id y hy hk => ?_,
    fun t ht target hne hTarget id hid y hy hk => ?_, fun id id' y y' k hy hy' hName hk => ?_⟩
  · rw [hu.intact.links.incoming id hid]
    exact hu.intact.routes.unique id hne
  · -- the numbers of transitions end below the next one
    obtain ⟨t, ht, hNumber, -⟩ := hBehind id y _ hy hk
    have hMem := List.mem_map_of_mem (f := (·.id)) (Array.mem_toList_iff.mpr ht)
    rw [hu.intact.links.numbered, List.mem_range'_1, hNumber, nextTransition] at hMem
    omega
  · obtain ⟨t', ht', hNumber, target', hle, -, hTarget'⟩ := hBehind id y _ hy hk
    rw [hu.intact.links.eq_of_id_eq ht ht' hNumber, hTarget, Option.some.injEq] at hTarget'
    omega
  · exact ⟨hu.onPath hSystem hy hk, hu.onPath hSystem hy' (hName ▸ hk)⟩

/-- A variable that is off at first, and a label that may set it. -/
def chooseText : String :=
  "VARIABLES:\ndeclare x:bool\n\nINIT:\nx: !x\n\nTRANSITION choose:\nPARAMETER: declare p:bool\n" ++
    "EFFECT:\nx: x' <=> (x ^^ p)\n"

/-- The system of `chooseText`. -/
def chooseSystem : System where
  stateVariables := [⟨"x", .bool⟩]
  initialValues := [(⟨"x", .bool⟩, .not (.var ⟨"x", .bool⟩))]
  labels := [{
    name := "choose", stateVariables := [⟨"x", .bool⟩], parameters := [⟨"p", .bool⟩],
    effects := [(⟨"x", .bool⟩, .logical .equiv (.var ⟨"x'", .bool⟩)
      (.logical .xor (.var ⟨"x", .bool⟩) (.var ⟨"p", .bool⟩)))] }]

open scoped Reals

/-- Two firings one after the other. Both states mention the parameter of the first one, which lies
on the paths to both. -/
theorem hidden_names_follow_choices : ∃ u, Reached chooseSystem u ∧
    (u.state 2).Mentions ⟨"p_p_1", .bool⟩ ∧ (u.state 3).Mentions ⟨"p_p_1", .bool⟩ ∧
    u.OnPath 2 1 ∧ u.OnPath 3 1 ∧
    (u.state 3).Mentions ⟨"x_sv_2", .bool⟩ ∧
    ∀ y, (u.state 2).Mentions y → ¬IsHiddenAt 2 y.name := by
  have hCheck : (unroll { solver := .exhaustive } (some 2)).returns 4
      { memory := (), work := { system := chooseSystem } }
      (fun _ t => t.work.transitions.map (fun t => (t.id, t.target)) = #[(1, some 2), (2, some 3)] ∧
        (t.work.state 2).formulas.any (·.2.freeVariables.contains ⟨"p_p_1", .bool⟩) = true ∧
        (t.work.state 3).formulas.any (·.2.freeVariables.contains ⟨"p_p_1", .bool⟩) = true ∧
        (t.work.state 3).formulas.any (·.2.freeVariables.contains ⟨"x_sv_2", .bool⟩) = true) =
          true := by
    rw [unroll_eq]
    decide +kernel
  have hMentions : ∀ (q : SymbolicState) (y : Variable),
      q.formulas.any (·.2.freeVariables.contains y) = true → q.Mentions y := by
    intro q y hAny
    obtain ⟨entry, hEntry, hFree⟩ := List.any_eq_true.mp hAny
    exact ⟨entry, hEntry, Expr.mem_freeVariables.mp (List.contains_iff_mem.mp hFree)⟩
  obtain ⟨ending, t, hRun, hFound⟩ := Exploration.exists_of_returns hCheck
  obtain ⟨hTransitions, hFirst, hSecond, hHidden⟩ := of_decide_eq_true hFound
  have hParse : Description.parseSystem chooseText = .ok chooseSystem := by decide +kernel
  have hDeclares : Description.DeclaresFirst chooseText := by decide +kernel
  have hReached : Reached chooseSystem t.work :=
    .returned (.unroll (some 2)) .fresh (Operation.run_unroll hRun)
  obtain ⟨-, -, -, hNew, hShared⟩ :=
    hidden_names_follow_paths hParse hDeclares (by decide +kernel) hReached
  have hBoth := hShared 2 3 _ _ 1 (hMentions _ _ hFirst) (hMentions _ _ hSecond) rfl
    ⟨"p", .inr rfl⟩
  refine ⟨t.work, hReached, hMentions _ _ hFirst, hMentions _ _ hSecond, hBoth.1, hBoth.2,
    hMentions _ _ hHidden, ?_⟩
  have hMem : (2, some 3) ∈ t.work.transitions.map fun t => (t.id, t.target) := by
    simp [hTransitions]
  obtain ⟨second, hSecond, heq⟩ := Array.mem_map.mp hMem
  obtain ⟨hNumber, hTarget⟩ := Prod.mk.inj heq
  have hFresh := hNew second hSecond 3 (by decide) hTarget 2 (by decide)
  rwa [hNumber] at hFresh

end Unrolling

end StateSpace
