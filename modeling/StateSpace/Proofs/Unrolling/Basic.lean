import StateSpace.Proofs.Coverage
import StateSpace.Unrolling.Basic

/-!
# Changes of an unrolling

Entering a transition changes the links of states and one layer. What a state says stays as it is
(`SymbolicState.bare`), apart from the history that the first firing of an error label gives to the
error state. `Unrolling.Grows` collects what every firing keeps.
-/

namespace StateSpace

/-- The state without its links to transitions. -/
def SymbolicState.bare (s : SymbolicState) : SymbolicState :=
  { s with incoming := [], outgoing := [] }

theorem SymbolicState.id_of_bare {s s' : SymbolicState} (h : s.bare = s'.bare) : s.id = s'.id :=
  (congrArg SymbolicState.id h : s.bare.id = s'.bare.id)

theorem SymbolicState.formulas_of_bare {s s' : SymbolicState} (h : s.bare = s'.bare) :
    s.formulas = s'.formulas :=
  (congrArg SymbolicState.formulas h : s.bare.formulas = s'.bare.formulas)

theorem SymbolicState.isError_of_bare {s s' : SymbolicState} (h : s.bare = s'.bare) :
    s.isError = s'.isError :=
  (congrArg SymbolicState.isError h : s.bare.isError = s'.bare.isError)

theorem SymbolicState.history_of_bare {s s' : SymbolicState} (h : s.bare = s'.bare) :
    s.history = s'.history :=
  (congrArg SymbolicState.history h : s.bare.history = s'.bare.history)

namespace Unrolling

variable {u v w : Unrolling} {l : Label} {t : Transition} {s : SymbolicState} {new : Bool}
  {depth source target id k : Nat}

/-! ## Views -/

@[simp] theorem layer_modifyLayer (f : Layer → Layer) :
    (u.modifyLayer depth f).layer k = if k = depth then f (u.layer depth) else u.layer k := by
  simp only [layer, modifyLayer, Std.TreeMap.getD_insert, Nat.compare_eq_eq, eq_comm (a := depth)]

@[simp] theorem mem_layers_modifyLayer (f : Layer → Layer) :
    k ∈ (u.modifyLayer depth f).layers ↔ k = depth ∨ k ∈ u.layers := by
  simp only [modifyLayer, Std.TreeMap.mem_insert, Nat.compare_eq_eq, eq_comm (a := depth)]

theorem layer_eq_empty (h : k ∉ u.layers) : u.layer k = {} :=
  Std.TreeMap.getD_eq_fallback h

@[simp] theorem layer_modifyState (f : SymbolicState → SymbolicState) :
    (u.modifyState id f).layer k = u.layer k :=
  rfl

@[simp] theorem layers_modifyState (f : SymbolicState → SymbolicState) :
    (u.modifyState id f).layers = u.layers :=
  rfl

@[simp] theorem size_states_modifyState (f : SymbolicState → SymbolicState) :
    (u.modifyState id f).states.size = u.states.size :=
  Array.size_modify

@[simp] theorem state_modifyLayer (f : Layer → Layer) :
    (u.modifyLayer depth f).state id = u.state id :=
  rfl

theorem state_modifyState (f : SymbolicState → SymbolicState) :
    (u.modifyState id f).state k =
      if k = id ∧ k < u.states.size then f (u.state k) else u.state k := by
  simp only [state, modifyState, Array.getD_eq_getD_getElem?, Array.getElem?_modify]
  by_cases hk : k < u.states.size
  · by_cases hid : id = k <;> simp [hk, hid, eq_comm]
  · by_cases hid : id = k <;> simp [hk, hid]

theorem bare_modifyState {f : SymbolicState → SymbolicState} (hf : ∀ s, (f s).bare = s.bare) :
    ((u.modifyState id f).state k).bare = (u.state k).bare := by
  rw [state_modifyState]
  split
  · exact hf _
  · rfl

theorem state_push (s : SymbolicState) :
    state { u with states := u.states.push s } k = if k = u.states.size then s else u.state k := by
  simp only [state, Array.getD_eq_getD_getElem?, Array.getElem?_push]
  split <;> rfl

/-- A derived state is one listed at some depth. -/
theorem mem_derivedStates : s ∈ u.derivedStates ↔ ∃ k, ∃ id ∈ (u.layer k).all, u.state id = s := by
  simp only [derivedStates, List.mem_flatMap, List.mem_map, Prod.exists,
    Std.TreeMap.mem_toList_iff_getElem?_eq_some, layer, Std.TreeMap.getD_eq_getD_getElem?]
  constructor
  · rintro ⟨k, layer, hLayer, id, hid, rfl⟩
    exact ⟨k, id, by simpa [hLayer] using hid, rfl⟩
  · rintro ⟨k, id, hid, rfl⟩
    cases hLayer : u.layers[k]? with
    | none => simp [hLayer] at hid
    | some layer => exact ⟨k, layer, hLayer, id, by simpa [hLayer] using hid, rfl⟩

/-! ## Links -/

theorem state_link :
    (u.link t target depth).state k =
      ((u.modifyState target fun s => { s with incoming := s.incoming ++ [t.id] }).modifyState
        t.start fun s => { s with outgoing := s.outgoing ++ [t.id] }).state k :=
  rfl

@[simp] theorem bare_link : ((u.link t target depth).state k).bare = (u.state k).bare := by
  rw [state_link, bare_modifyState, bare_modifyState] <;> intro s <;> rfl

theorem incoming_link (h : target < u.states.size) :
    ((u.link t target depth).state k).incoming =
      if k = target then (u.state k).incoming ++ [t.id] else (u.state k).incoming := by
  simp only [state_link, state_modifyState, size_states_modifyState]
  grind

theorem outgoing_link (h : t.start < u.states.size) :
    ((u.link t target depth).state k).outgoing =
      if k = t.start then (u.state k).outgoing ++ [t.id] else (u.state k).outgoing := by
  simp only [state_link, state_modifyState, size_states_modifyState]
  grind

@[simp] theorem size_states_link : (u.link t target depth).states.size = u.states.size := by
  show ((u.modifyState target _).modifyState t.start _).states.size = _
  simp

theorem layer_link :
    (u.link t target depth).layer k =
      if k = depth then { u.layer depth with transitions := (u.layer depth).transitions ++ [t.id] }
      else u.layer k :=
  layer_modifyLayer _

theorem mem_layers_link : k ∈ (u.link t target depth).layers ↔ k = depth ∨ k ∈ u.layers :=
  mem_layers_modifyLayer _

theorem transitions_link :
    (u.link t target depth).transitions = u.transitions.push { t with target := some target } :=
  rfl

/-! ## Successors -/

section Successor

variable (hs : s.id = u.states.size)

theorem size_states_enterSuccessor :
    (u.enterSuccessor l source depth s new).states.size = u.states.size + 1 := by
  rw [enterSuccessor, size_states_link]
  exact Array.size_push s

theorem transitions_enterSuccessor :
    (u.enterSuccessor l source depth s new).transitions = u.transitions.push
      { id := u.nextTransition, start := source, target := some s.id, labels := [l.name],
        reachedNewValue := new } :=
  rfl

theorem layer_enterSuccessor :
    (u.enterSuccessor l source depth s new).layer k =
      if k = depth then
        { fresh := if new then (u.layer depth).fresh ++ [s.id] else (u.layer depth).fresh
          all := (u.layer depth).all ++ [s.id]
          transitions := (u.layer depth).transitions ++ [u.nextTransition] }
      else u.layer k := by
  simp only [enterSuccessor, layer_link, layer_modifyLayer, if_pos]
  split <;> rfl

theorem mem_layers_enterSuccessor :
    k ∈ (u.enterSuccessor l source depth s new).layers ↔ k = depth ∨ k ∈ u.layers := by
  simp only [enterSuccessor, mem_layers_link, mem_layers_modifyLayer]
  tauto

theorem bare_enterSuccessor (u : Unrolling) (l : Label) (source depth : Nat) (s : SymbolicState)
    (new : Bool) (k : Nat) :
    ((u.enterSuccessor l source depth s new).state k).bare =
      if k = u.states.size then s.bare else (u.state k).bare := by
  rw [enterSuccessor, bare_link, state_modifyLayer, state_push]
  split <;> rfl

include hs in
theorem incoming_enterSuccessor (hk : k ≠ u.states.size) :
    ((u.enterSuccessor l source depth s new).state k).incoming = (u.state k).incoming := by
  have hTarget : s.id < (u.states.push s).size := by simp [hs]
  rw [enterSuccessor, incoming_link hTarget, if_neg (hs ▸ hk), state_modifyLayer, state_push,
    if_neg hk]

end Successor

/-! ## Errors -/

/-- The error state listed at a depth, before the transition that leads to it is entered. -/
def listError (u : Unrolling) (l : Label) (source depth : Nat) : Unrolling :=
  (if u.errorState.incoming.isEmpty then
    (u.modifyState errorId fun s => s.withHistory (u.state source).history l.name).modifyLayer depth
      fun layer => { layer with fresh := layer.fresh ++ [errorId] }
  else u).modifyLayer depth fun layer =>
    if layer.all.contains errorId then layer else { layer with all := layer.all ++ [errorId] }

theorem enterError_eq :
    u.enterError l source depth = (u.listError l source depth).link
      { id := u.nextTransition, start := source, labels := [l.name],
        reachedNewValue := u.errorState.incoming.isEmpty, reachedError := true } errorId depth :=
  rfl

@[simp] theorem size_states_listError :
    (u.listError l source depth).states.size = u.states.size := by
  unfold listError
  split
  · exact size_states_modifyState _
  · rfl

theorem size_states_enterError : (u.enterError l source depth).states.size = u.states.size := by
  rw [enterError_eq, size_states_link, size_states_listError]

theorem system_enterError : (u.enterError l source depth).system = u.system := by
  show (u.listError l source depth).system = u.system
  unfold listError
  split <;> rfl

theorem started_enterError : (u.enterError l source depth).started = u.started := by
  show (u.listError l source depth).started = u.started
  unfold listError
  split <;> rfl

theorem transitions_enterError :
    (u.enterError l source depth).transitions = u.transitions.push
      { id := u.nextTransition, start := source, target := some errorId, labels := [l.name],
        reachedNewValue := u.errorState.incoming.isEmpty, reachedError := true } := by
  have hSame : (u.listError l source depth).transitions = u.transitions := by
    unfold listError
    split <;> rfl
  rw [enterError_eq, transitions_link, hSame]

/-- An error is listed at its depth, and once only. -/
theorem layer_enterError :
    (u.enterError l source depth).layer k =
      if k = depth then
        { fresh := if u.errorState.incoming.isEmpty then (u.layer depth).fresh ++ [errorId]
            else (u.layer depth).fresh
          all := if (u.layer depth).all.contains errorId then (u.layer depth).all
            else (u.layer depth).all ++ [errorId]
          transitions := (u.layer depth).transitions ++ [u.nextTransition] }
      else u.layer k := by
  rw [enterError_eq, layer_link]
  unfold listError
  by_cases hFirst : u.errorState.incoming.isEmpty = true <;> by_cases hk : k = depth <;>
    simp only [hFirst, hk, layer_modifyLayer, layer_modifyState, if_true, if_false,
      Bool.false_eq_true] <;>
    split <;> rfl

theorem mem_layers_enterError :
    k ∈ (u.enterError l source depth).layers ↔ k = depth ∨ k ∈ u.layers := by
  rw [enterError_eq, mem_layers_link]
  unfold listError
  split <;> simp

theorem bare_enterError (hk : k ≠ errorId) :
    ((u.enterError l source depth).state k).bare = (u.state k).bare := by
  rw [enterError_eq, bare_link]
  unfold listError
  split <;> simp [state_modifyState, hk]

/-- The error state keeps what it says; the first firing of an error label gives it its history. -/
theorem errorState_enterError (l : Label) (source depth : Nat) (h : errorId < u.states.size) :
    ((u.enterError l source depth).errorState).bare =
      if u.errorState.incoming.isEmpty then
        (u.errorState.withHistory (u.state source).history l.name).bare
      else u.errorState.bare := by
  rw [errorState, enterError_eq, bare_link]
  unfold listError
  split <;> simp [errorState, state_modifyState, h]

theorem incoming_enterError (h : errorId < u.states.size) :
    (u.enterError l source depth).errorState.incoming ≠ [] := by
  rw [errorState, enterError_eq, incoming_link (by simpa using h)]
  simp

/-! ## Growth -/

/-- The states listed exist, and the error state is the only one of its kind. -/
structure WellFormed (u : Unrolling) : Prop where
  nonempty : errorId < u.states.size
  isError : u.errorState.isError = true
  noError : ∀ id < u.states.size, id ≠ errorId → (u.state id).isError = false
  listed : ∀ k, ∀ id ∈ (u.layer k).all, id < u.states.size
  fresh : ∀ k, (u.layer k).fresh ⊆ (u.layer k).all

/-- Nothing is lost, and nothing changes outside one layer. -/
structure Grows (depth : Nat) (u v : Unrolling) : Prop where
  system : v.system = u.system
  started : v.started = u.started
  size : u.states.size ≤ v.states.size
  bare : ∀ id < u.states.size, id ≠ errorId → (v.state id).bare = (u.state id).bare
  transitions : u.transitions.toList <+: v.transitions.toList
  all : ∀ k, (u.layer k).all ⊆ (v.layer k).all
  fresh : ∀ k, (u.layer k).fresh ⊆ (v.layer k).fresh
  others : ∀ k, k ≠ depth → v.layer k = u.layer k
  keys : depth ∈ u.layers → ∀ k, k ∈ v.layers ↔ k ∈ u.layers
  failed : u.errorState.incoming ≠ [] → v.errorState.incoming ≠ []

namespace Grows

/-- Nothing needs to happen. -/
theorem refl (depth : Nat) (u : Unrolling) : Grows depth u u where
  system := rfl
  started := rfl
  size := Nat.le_refl _
  bare _ _ _ := rfl
  transitions := List.prefix_refl _
  all _ := List.Subset.refl _
  fresh _ := List.Subset.refl _
  others _ _ := rfl
  keys _ _ := Iff.rfl
  failed h := h

/-- Growth is transitive. -/
theorem trans (h : Grows depth u v) (h' : Grows depth v w) : Grows depth u w where
  system := h'.system.trans h.system
  started := h'.started.trans h.started
  size := h.size.trans h'.size
  bare id hid hne := (h'.bare id (Nat.lt_of_lt_of_le hid h.size) hne).trans (h.bare id hid hne)
  transitions := h.transitions.trans h'.transitions
  all k := List.Subset.trans (h.all k) (h'.all k)
  fresh k := List.Subset.trans (h.fresh k) (h'.fresh k)
  others k hk := (h'.others k hk).trans (h.others k hk)
  keys hMem k := (h'.keys ((h.keys hMem depth).mpr hMem) k).trans (h.keys hMem k)
  failed hError := h'.failed (h.failed hError)

theorem nextTransition_le (h : Grows depth u v) : u.nextTransition ≤ v.nextTransition := by
  have hLength := h.transitions.length_le
  simp only [Array.length_toList] at hLength
  unfold nextTransition
  omega

theorem describes [Reals] (h : Grows depth u v) (hid : id < u.states.size) (hne : id ≠ errorId)
    {xs : List Variable} {ν : Environment} :
    (v.state id).Describes xs ν ↔ (u.state id).Describes xs ν :=
  SymbolicState.describes_of_formulas_eq (SymbolicState.formulas_of_bare (h.bare id hid hne))

end Grows

/-- Opening a layer that is empty anyway. -/
theorem layer_opened (h : u.layer depth = {}) (k : Nat) :
    (u.modifyLayer depth fun _ => {}).layer k = u.layer k := by
  rw [layer_modifyLayer]
  split
  · next hk => rw [hk, h]
  · rfl

/-- Opening a depth that is empty. -/
theorem grows_opened (h : u.layer depth = {}) :
    Grows depth u (u.modifyLayer depth fun _ => {}) where
  system := rfl
  started := rfl
  size := Nat.le_refl _
  bare _ _ _ := rfl
  transitions := List.prefix_refl _
  all k := by rw [layer_opened h]; exact List.Subset.refl _
  fresh k := by rw [layer_opened h]; exact List.Subset.refl _
  others k _ := layer_opened h k
  keys hMem k := by
    rw [mem_layers_modifyLayer]
    exact or_iff_right_of_imp fun hk => hk ▸ hMem
  failed h := h

/-- Entering an error. -/
theorem grows_enterError (h : u.WellFormed) : Grows depth u (u.enterError l source depth) where
  system := system_enterError
  started := started_enterError
  size := by rw [size_states_enterError]
  bare _ _ hne := bare_enterError hne
  transitions := by
    rw [transitions_enterError, Array.toList_push]
    exact List.prefix_append _ _
  all k := by
    rw [layer_enterError]
    grind
  fresh k := by
    rw [layer_enterError]
    grind
  others k hk := by rw [layer_enterError, if_neg hk]
  keys hMem k := by
    rw [mem_layers_enterError]
    exact or_iff_right_of_imp fun hk => hk ▸ hMem
  failed _ := incoming_enterError h.nonempty

/-- Entering a successor. -/
theorem grows_enterSuccessor (h : u.WellFormed) (hs : s.id = u.states.size) :
    Grows depth u (u.enterSuccessor l source depth s new) where
  system := rfl
  started := rfl
  size := by rw [size_states_enterSuccessor]; omega
  bare id hid _ := by rw [bare_enterSuccessor, if_neg (Nat.ne_of_lt hid)]
  transitions := by
    rw [transitions_enterSuccessor, Array.toList_push]
    exact List.prefix_append _ _
  all k := by
    rw [layer_enterSuccessor]
    grind
  fresh k := by
    rw [layer_enterSuccessor]
    grind
  others k hk := by rw [layer_enterSuccessor, if_neg hk]
  keys hMem k := by
    rw [mem_layers_enterSuccessor]
    exact or_iff_right_of_imp fun hk => hk ▸ hMem
  failed := by
    simp only [errorState]
    rw [incoming_enterSuccessor hs (Nat.ne_of_lt h.nonempty)]
    exact id

theorem WellFormed.ne_errorId (h : u.WellFormed) (hnoError : (u.state id).isError = false) :
    id ≠ errorId := by
  rintro rfl
  have hError := h.isError
  rw [errorState, hnoError] at hError
  cases hError

/-- Only the states and what is listed matter. -/
theorem WellFormed.congr (h : u.WellFormed) (hStates : v.states = u.states)
    (hAll : ∀ k, (v.layer k).all ⊆ (u.layer k).all)
    (hFresh : ∀ k, (v.layer k).fresh ⊆ (v.layer k).all) : v.WellFormed := by
  have hState : ∀ id, v.state id = u.state id := fun id => by rw [state, state, hStates]
  refine ⟨?_, ?_, ?_, fun k id hid => ?_, hFresh⟩
  · rw [hStates]
    exact h.nonempty
  · rw [errorState, hState]
    exact h.isError
  · simpa only [hState, hStates] using h.noError
  · rw [hStates]
    exact h.listed k id (hAll k hid)

theorem WellFormed.opened (h : u.WellFormed) (depth : Nat) :
    (u.modifyLayer depth fun _ => {}).WellFormed := by
  refine h.congr rfl (fun k => ?_) fun k => ?_ <;> rw [layer_modifyLayer] <;> split
  · exact List.nil_subset _
  · exact List.Subset.refl _
  · exact List.nil_subset _
  · exact h.fresh k

/-- Entering an error keeps the unrolling well formed. -/
theorem WellFormed.enterError (h : u.WellFormed) : (u.enterError l source depth).WellFormed where
  nonempty := by
    rw [size_states_enterError]
    exact h.nonempty
  isError := by
    have hBare := errorState_enterError l source depth h.nonempty
    split at hBare <;> exact (SymbolicState.isError_of_bare hBare).trans h.isError
  noError id hid hne := by
    rw [size_states_enterError] at hid
    exact (SymbolicState.isError_of_bare (bare_enterError hne)).trans (h.noError id hid hne)
  listed k id hid := by
    rw [size_states_enterError]
    rw [layer_enterError] at hid
    have := h.nonempty
    have := h.listed k id
    grind
  fresh k := by
    have := h.fresh k
    rw [layer_enterError]
    grind

/-- Entering a successor keeps the unrolling well formed. -/
theorem WellFormed.enterSuccessor (h : u.WellFormed) (hs : s.id = u.states.size)
    (hError : s.isError = false) : (u.enterSuccessor l source depth s new).WellFormed where
  nonempty := by
    rw [size_states_enterSuccessor]
    exact Nat.lt_succ_of_lt h.nonempty
  isError := by
    have hBare : ((u.enterSuccessor l source depth s new).state errorId).bare =
        (u.state errorId).bare := by
      rw [bare_enterSuccessor, if_neg (Nat.ne_of_lt h.nonempty)]
    exact (SymbolicState.isError_of_bare hBare).trans h.isError
  noError id hid hne := by
    rw [size_states_enterSuccessor] at hid
    have hBare := bare_enterSuccessor u l source depth s new id
    split at hBare
    · exact (SymbolicState.isError_of_bare hBare).trans hError
    · exact (SymbolicState.isError_of_bare hBare).trans (h.noError id (by omega) hne)
  listed k id hid := by
    rw [size_states_enterSuccessor]
    rw [layer_enterSuccessor] at hid
    have := h.listed k id
    grind
  fresh k := by
    have := h.fresh k
    rw [layer_enterSuccessor]
    grind

end Unrolling

end StateSpace
