import StateSpace.Proofs.Exploration.Following
import StateSpace.Proofs.Search.Congruence
import StateSpace.Proofs.Search.Origin
import StateSpace.Proofs.Unrolling.Resumption

/-!
# The first error of a search

A synchronised search tests error labels on the frontier only, while the plain one tests them on
everything reached. As long as no error is found, the states behind the frontier have been tested
before, so both find the same first error, with the same way to it. The synchronised search then
halts, and the plain one goes on and never changes what it knows about its first error
(`synchronised_agrees_on_first_error`).
-/

namespace StateSpace.Search

open Explore

variable {σ S : Type} {env : Surroundings σ} {s s' : Session σ (Work SymbolicState)}
  {system : System} {l : Label}

/-! ## What firing and testing keep -/

section Keeps

variable {Inv : Work SymbolicState → Prop}

/-- What a further successor keeps, expanding a state keeps. -/
theorem ensures_expandSymbolic_keeps {simplify : Bool} {q : SymbolicState}
    (hAdd : ∀ w p, Inv w → Inv { w with issued := w.issued + 1, image := w.image.addPending p })
    (hs : Inv s.work) :
    Ensures s (expandSymbolic env simplify l q) (fun _ t => Inv t.work) (fun _ => True) := by
  refine (ensures_expandSymbolic_cases (fun fs => ensures_simplifyFormulas_keys fs) (fun _ => rfl)
    simplify).mono (fun _ t hCases => ?_) fun _ h => h
  rcases hCases with ⟨-, ht⟩ | ⟨-, fs, -, ht⟩
  · rwa [ht]
  · rw [ht]
    exact hAdd _ _ hs

/-- What further successors and errors keep, firing the labels keeps. -/
theorem ensures_fireLabels_symbolic {simplify : Bool} (Inv : Work SymbolicState → Prop)
    (labels : List Label)
    (hAdd : ∀ w p, Inv w → Inv { w with issued := w.issued + 1, image := w.image.addPending p })
    (hRecord : ∀ w label history, Inv w → Inv { w with image := w.image.recordError label history })
    (hs : Inv s.work) :
    Ensures s (fireLabels (symbolic env simplify) labels) (fun _ t => Inv t.work)
      (fun _ => True) := by
  refine ensures_fireLabels_keeps (fun t => Inv t.work) (fun l _ _ _ t ht => ?_)
    (fun l _ _ _ t ht => ?_) hs
  · refine ensures_image_bind (.forM (fun r => Inv r.work) (fun q _ r hr => ?_) ht)
    exact ensures_expandSymbolic_keeps hAdd hr
  · exact ensures_testReachable_keeps (fun _ _ _ => hRecord _ _ _ ht) ht

/-- Closing a depth of a symbolic search changes the region reached and the frontier only. -/
theorem ensures_closeDepth_symbolic {simplify : Bool} (xs : List Variable) (depth : Nat) :
    Ensures s (closeDepth env (symbolic env simplify) xs depth)
      (fun _ t => ∃ added, t.work = advance s.work added) (fun _ => True) := by
  have hDifference : ∀ t : Session σ (Work SymbolicState),
      Ensures t (Region.difference env (successors (symbolic env simplify) s.work.image)
        s.work.image.reachable xs) (fun _ r => r.work = t.work ∧ True) fun _ => True :=
    fun t => (Region.ensures_difference env _ _ _).mono (fun _ _ h => ⟨h.1, trivial⟩) fun _ h => h
  exact (ensures_closeDepth hDifference depth).mono (fun _ _ ⟨added, _, ht⟩ => ⟨added, ht⟩)
    fun _ h => h

end Keeps

/-! ## The first error -/

/-- The first error label reached, with its depth and the way to it. -/
structure FirstError (depth : Nat) (label : String) (history : List String) (i : Image S) :
    Prop where
  le : depth ≤ i.depth
  reachedErrors : ∃ rest, i.reachedErrors = label :: rest
  message : ∃ rest, i.errorsAtDepth[depth]? = some (s!"{label} reached at depth {depth}" :: rest)
  earlier : ∀ d < depth, i.errorsAtDepth[d]? = none
  counterexample : i.counterexamples[label]? = some history

/-- The only error label reached, with its depth and the way to it. -/
structure OnlyError (depth : Nat) (label : String) (history : List String) (i : Image S) :
    Prop where
  reachedErrors : i.reachedErrors = [label]
  errorsAtDepth : i.errorsAtDepth.toList = [(depth, [s!"{label} reached at depth {depth}"])]
  counterexamples : i.counterexamples.toList = [(label, history)]

section Errors

variable {i : Image S} {depth : Nat} {label : String} {history : List String}

/-- Later errors leave the first one as it is. -/
theorem FirstError.recordError (h : FirstError depth label history i) (label' : String)
    (history' : List String) : FirstError depth label history (i.recordError label' history') := by
  unfold Image.recordError
  split
  · exact h
  next hNew =>
    obtain ⟨others, hOthers⟩ := h.reachedErrors
    obtain ⟨messages, hMessages⟩ := h.message
    have hne : label' ≠ label := by
      rintro rfl
      simp [Image.isReached, hOthers] at hNew
    refine ⟨h.le, ⟨others ++ [label'], by simp [hOthers]⟩, ?_, fun d hd => ?_, ?_⟩
    · rw [Std.TreeMap.getElem?_insert]
      split
      · next hDepth =>
        rw [Std.LawfulEqCmp.compare_eq_iff_eq.mp hDepth]
        rw [Std.TreeMap.getD_eq_getD_getElem?, hMessages]
        exact ⟨_, rfl⟩
      · exact ⟨messages, hMessages⟩
    · have hle := h.le
      have hd' : i.depth ≠ d := by omega
      simpa [Std.TreeMap.getElem?_insert, hd'] using h.earlier d hd
    · simpa [Std.TreeMap.getElem?_insert, hne] using h.counterexample

variable (label history) (hReached : i.reachedErrors = []) (hMessages : i.errorsAtDepth = {})
  (hWays : i.counterexamples = {})

include hReached hMessages hWays

theorem recordError_of_none : i.recordError label history = { i with
    errorsAtDepth := ({} : Std.TreeMap Nat (List String)).insert i.depth
      [s!"{label} reached at depth {i.depth}"]
    reachedErrors := [label]
    counterexamples := ({} : Std.TreeMap String (List String)).insert label history } := by
  simp [Image.recordError, Image.isReached, hReached, hMessages, hWays]

theorem firstError_recordError :
    FirstError i.depth label history (i.recordError label history) := by
  rw [recordError_of_none _ _ hReached hMessages hWays]
  refine ⟨Nat.le_refl _, ⟨[], rfl⟩, ⟨[], by simp⟩, fun d hd => ?_, by simp⟩
  simp [Nat.ne_of_gt hd]

theorem onlyError_recordError : OnlyError i.depth label history (i.recordError label history) := by
  rw [recordError_of_none _ _ hReached hMessages hWays]
  exact ⟨rfl, rfl, rfl⟩

end Errors

/-! ## Before and after the first error -/

/-- None of these labels reports an error on the state. -/
def Refutes (solver : Solver σ) (labels : List Label) (q : SymbolicState) : Prop :=
  ∀ l ∈ labels, l.isConstructor = false → l.isError = true →
    solver.Answers (l.guardOn (RegionState.toExpr q)) .unsat

/-- No error has been reached, and what lies behind the frontier has been tested. -/
structure Unalarmed (solver : Solver σ) (system : System) (reached : Region SymbolicState)
    (w : Work SymbolicState) : Prop where
  system_eq : w.unrolling.system = system
  reachable : w.image.reachable = reached
  reachedErrors : w.image.reachedErrors = []
  errorsAtDepth : w.image.errorsAtDepth = {}
  counterexamples : w.image.counterexamples = {}
  frontier : ∀ (name : String) q, w.image.frontier[name]? = some q → reached[name]? = some q
  tested : ∀ (name : String) q, reached[name]? = some q →
    w.image.frontier[name]? = some q ∨ Refutes solver system.labels q
  pending : ∀ (name : String) q, w.image.pending[name]? = some q →
    ∃ m ≤ w.image.names, name = Region.nameOf m

/-- A search has reached an error and goes on, while another one halted there with `halted`. -/
structure Ahead (depth : Nat) (label : String) (history : List String)
    (halted w : Work SymbolicState) : Prop where
  first : FirstError depth label history w.image
  reachable : w.image.reachable = halted.image.reachable
  pending : ∀ (name : String) q, halted.image.pending[name]? = some q →
    w.image.pending[name]? = some q ∧ ∃ m ≤ w.image.names, name = Region.nameOf m

/-- Both searches have done the same, and their flags are down. -/
structure InStep (s s' : Session σ (Work SymbolicState)) : Prop where
  work : s'.work = s.work
  stop : s.stop = false
  stop' : s'.stop = false

/-- The second search has halted at an error, and the first one may have gone on. -/
def Parted (s s' : Session σ (Work SymbolicState)) : Prop :=
  s'.stop = true ∧ ∃ depth label history, OnlyError depth label history s'.work.image ∧
    Ahead depth label history s'.work s.work

section Entering

variable {solver : Solver σ} {reached : Region SymbolicState} {w halted : Work SymbolicState}
  {depth : Nat} {label : String} {history : List String}

/-- A successor raises no alarm. -/
theorem Unalarmed.addPending (h : Unalarmed solver system reached w) (p : SymbolicState) :
    Unalarmed solver system reached
      { w with issued := w.issued + 1, image := w.image.addPending p } where
  system_eq := h.system_eq
  reachable := h.reachable
  reachedErrors := h.reachedErrors
  errorsAtDepth := h.errorsAtDepth
  counterexamples := h.counterexamples
  frontier := h.frontier
  tested := h.tested
  pending name q hq := by
    show ∃ m ≤ w.image.names + 1, name = Region.nameOf m
    have hGet : (w.image.pending.insert (Region.nameOf (w.image.names + 1)) p)[name]? = some q := hq
    rw [Std.TreeMap.getElem?_insert] at hGet
    split at hGet
    · next hName => exact ⟨_, Nat.le_refl _, (Std.LawfulEqCmp.compare_eq_iff_eq.mp hName).symm⟩
    · obtain ⟨m, hm, hName⟩ := h.pending name q hGet
      exact ⟨m, Nat.le_succ_of_le hm, hName⟩

/-- The next name is a new one, so it replaces nothing that is pending. -/
theorem Ahead.addPending (h : Ahead depth label history halted w) (p : SymbolicState) :
    Ahead depth label history halted
      { w with issued := w.issued + 1, image := w.image.addPending p } where
  first := ⟨h.first.le, h.first.reachedErrors, h.first.message, h.first.earlier,
    h.first.counterexample⟩
  reachable := h.reachable
  pending name q hq := by
    obtain ⟨hPending, m, hm, rfl⟩ := h.pending name q hq
    refine ⟨?_, m, Nat.le_succ_of_le hm, rfl⟩
    show (w.image.pending.insert (Region.nameOf (w.image.names + 1)) p)[Region.nameOf m]? = some q
    have hne : Region.nameOf (w.image.names + 1) ≠ Region.nameOf m := fun heq => by
      have := Region.nameOf_injective heq
      omega
    simpa [Std.TreeMap.getElem?_insert, hne] using hPending

/-- A further error keeps the first one. -/
theorem Ahead.recordError (h : Ahead depth label history halted w) (label' : String)
    (history' : List String) :
    Ahead depth label history halted { w with image := w.image.recordError label' history' } := by
  refine ⟨h.first.recordError label' history', ?_, ?_⟩
  all_goals
    unfold Image.recordError
    split
  · exact h.reachable
  · exact h.reachable
  · exact h.pending
  · exact h.pending

/-- Where the first error is entered, the searches part. -/
theorem Unalarmed.parted (h : Unalarmed solver system reached w) (label : String)
    (history : List String) {t t' : Session σ (Work SymbolicState)} (hStop : t'.stop = true)
    (ht : t.work = { w with image := w.image.recordError label history })
    (ht' : t'.work = { w with image := w.image.recordError label history }) : Parted t t' := by
  have hFirst := firstError_recordError label history h.reachedErrors h.errorsAtDepth
    h.counterexamples
  have hOnly := onlyError_recordError label history h.reachedErrors h.errorsAtDepth
    h.counterexamples
  have hRecord := recordError_of_none label history h.reachedErrors h.errorsAtDepth
    h.counterexamples
  refine ⟨hStop, w.image.depth, label, history, ?_, ?_⟩
  · rw [ht']
    exact hOnly
  · rw [ht, ht']
    refine ⟨hFirst, rfl, fun name q hq => ⟨hq, ?_⟩⟩
    simp only [hRecord] at hq ⊢
    exact h.pending name q hq

end Entering

/-! ## One depth of both searches -/

section Depth

section Binds

variable {α : Type}
  {Q : α → Session σ (Work SymbolicState) → α → Session σ (Work SymbolicState) → Prop}

theorem follows_image_bind {next next' : Image SymbolicState → Step σ SymbolicState α}
    (h : Follows s s' (next s.work.image) (next' s'.work.image) Q) :
    Follows s s' (image >>= next) (image >>= next') Q :=
  h

theorem follows_modifyImage_bind {f f' : Image SymbolicState → Image SymbolicState}
    {next next' : Unit → Step σ SymbolicState α}
    (h : Follows { s with work := { s.work with image := f s.work.image } }
      { s' with work := { s'.work with image := f' s'.work.image } } (next ()) (next' ()) Q) :
    Follows s s' (modifyImage f >>= next) (modifyImage f' >>= next') Q :=
  h

end Binds

/-- Steps are alike where the answers of the solver can be repeated and nobody touches the flag. -/
def likeness (hSolver : env.solver.Repeatable) (hEnv : env.Aloof) : Congruence env env :=
  Alike.congruence (hEnv.peers hSolver)

/-- A step that both searches take keeps them in step. -/
theorem InStep.follows {α : Type} {step step' : Step σ SymbolicState α} (h : InStep s s')
    (hAlike : Alike step step') {P : α → Session σ (Work SymbolicState) → Prop}
    {R : Session σ (Work SymbolicState) → Prop} (hStep : Ensures s step P R) :
    Follows s s' step step' (fun a t a' t' => a' = a ∧ InStep t t' ∧ P a t) :=
  .of_alike hAlike h.stop h.stop' h.work fun _ _ _ hRun hWork hDown hDown' =>
    ⟨rfl, ⟨hWork, hDown, hDown'⟩, hStep.of_eq_ok hRun⟩

/-- The search that goes on keeps its first error, and the other one takes no further step. -/
theorem Parted.follows_fireLabels (h : Parted s s') (labels : List Label) :
    Follows s s' (fireLabels (symbolic env true) labels)
      (fireLabels (synchronised env .shared) labels) (fun _ t _ t' => Parted t t') := by
  obtain ⟨hStop, depth, label, history, hOnly, hAhead⟩ := h
  have hRun : ∃ b, fireLabels (synchronised env .shared) labels s' = .ok b s' := by
    cases labels with
    | nil => exact ⟨false, rfl⟩
    | cons l ls =>
      refine ⟨true, ?_⟩
      unfold fireLabels
      rw [stopped_bind_run, hStop]
      rfl
  obtain ⟨b, hRun⟩ := hRun
  refine .of_eq_ok (ensures_fireLabels_symbolic (Ahead depth label history s'.work) labels
    (fun w p hw => hw.addPending p)
      (fun w label' history' hw => hw.recordError label' history') hAhead)
    hRun fun _ t ht => ⟨hStop, depth, label, history, hOnly, ht⟩

variable {reached : Region SymbolicState} (hSolver : env.solver.Repeatable) (hEnv : env.Aloof)

include hSolver hEnv

/-- A search through some states and a search through a part of them find the same, if the label is
not enabled on the others. -/
theorem follows_firstEnabled (kept : String × SymbolicState → Bool)
    (entries : List (String × SymbolicState))
    (hOthers : ∀ entry ∈ entries, kept entry = false →
      env.solver.Answers (l.guardOn (RegionState.toExpr entry.2)) .unsat) (hs : InStep s s') :
    Follows s s' (firstEnabled env l (entries.map Prod.snd))
      (firstEnabled env l ((entries.filter kept).map Prod.snd))
      (fun found t found' t' => found' = found ∧ InStep t t' ∧ t.work = s.work ∧
        (found = none → ∀ entry ∈ entries,
          env.solver.Answers (l.guardOn (RegionState.toExpr entry.2)) .unsat)) := by
  induction entries generalizing s s' with
  | nil => exact .pure ⟨rfl, hs, rfl, by simp⟩
  | cons entry rest ih =>
    obtain ⟨hEntry, hRest⟩ := List.forall_mem_cons.mp hOthers
    cases hKept : kept entry with
    | true =>
      rw [List.filter_cons_of_pos hKept]
      refine (hs.follows (rel_satisfiesGuard (likeness hSolver hEnv) l entry.2)
        ensures_satisfiesGuard).bind fun enabled t enabled' t' ⟨heq, ht, hAnswer, hWork⟩ => ?_
      rw [heq]
      cases enabled with
      | true => exact .pure ⟨rfl, ht, hWork, by simp⟩
      | false =>
        refine (ih hRest ht).mono fun found r found' r' ⟨hFound, hr, hrWork, hNone⟩ => ?_
        refine ⟨hFound, hr, hrWork.trans hWork, fun h => ?_⟩
        exact List.forall_mem_cons.mpr ⟨hAnswer, hNone h⟩
    | false =>
      rw [List.filter_cons_of_neg (by simp [hKept])]
      refine .bind_left (ensures_image_bind (ensures_holdsDuring _ _ _ _)) fun enabled t ht => ?_
      obtain ⟨hAnswer, hWork, hDown⟩ := ht
      have hUnsat := hEntry hKept
      -- the answer was given before, so the first search goes on as well
      cases enabled with
      | true => cases hSolver.decide.answers_unique hAnswer hUnsat
      | false =>
        have ht : InStep t s' :=
          ⟨hs.work.trans hWork.symm, hDown hEnv.calm.steady hs.stop, hs.stop'⟩
        refine (ih hRest ht).mono fun found r found' r' ⟨hFound, hr, hrWork, hNone⟩ => ?_
        refine ⟨hFound, hr, hrWork.trans hWork, fun h => ?_⟩
        exact List.forall_mem_cons.mpr ⟨hUnsat, hNone h⟩

/-- Both searches find out the same about an error label, until it is reached. -/
theorem follows_testError (hl : l ∈ system.labels) (hnoConstructor : l.isConstructor = false)
    (hError : l.isError = true) (hs : InStep s s')
    (hw : Unalarmed env.solver system reached s.work) :
    Follows s s' (testReachable env l) (testFrontier env .shared l)
      (fun _ t _ t' => (InStep t t' ∧ Unalarmed env.solver system reached t.work ∧
        ∀ q ∈ reached.states, env.solver.Answers (l.guardOn (RegionState.toExpr q)) .unsat) ∨
        Parted t t') := by
  refine follows_image_bind ?_
  rw [hs.work]
  have hNew : s.work.image.isReached l.name = false := by
    simp [Image.isReached, hw.reachedErrors]
  simp only [hNew, Bool.false_eq_true, if_false]
  rw [hw.reachable, Region.states_eq, Region.states_eq, Region.toList_eq_filter hw.frontier]
  refine (follows_firstEnabled hSolver hEnv _ _ (fun entry hEntry hBehind => ?_) hs).bind ?_
  · -- a state that is not on the frontier was tested before
    rcases hw.tested entry.1 entry.2
      (Std.TreeMap.mem_toList_iff_getElem?_eq_some.mp hEntry) with hFrontier | hRefutes
    · simp [Std.TreeMap.contains_eq_isSome_getElem?, hFrontier] at hBehind
    · exact hRefutes l hl hnoConstructor hError
  · rintro found t found' t' ⟨rfl, ht, hWork, hNone⟩
    rw [← hWork] at hw
    cases found' with
    | none =>
      refine .pure (.inl ⟨ht, hw, fun q hq => ?_⟩)
      obtain ⟨entry, hEntry, rfl⟩ := List.mem_map.mp hq
      exact hNone rfl entry hEntry
    | some q =>
      rintro _ _ ⟨⟩
      refine ⟨(), _, rfl, .inr (hw.parted l.name _ rfl rfl ?_)⟩
      simp only [ht.work]

/-- Both searches fire the same labels, until an error is reached. -/
theorem follows_fireLabels (labels : List Label) (hLabels : labels ⊆ system.labels)
    (hs : InStep s s') (hw : Unalarmed env.solver system reached s.work) :
    Follows s s' (fireLabels (symbolic env true) labels)
      (fireLabels (synchronised env .shared) labels)
      (fun b t b' t' => (b = false ∧ b' = false ∧ InStep t t' ∧
        Unalarmed env.solver system reached t.work ∧
        ∀ q ∈ reached.states, Refutes env.solver labels q) ∨ Parted t t') := by
  induction labels generalizing s s' with
  | nil => exact .pure (.inl ⟨rfl, rfl, hs, hw, fun _ _ _ hl => nomatch hl⟩)
  | cons l ls ih =>
    obtain ⟨hl, hls⟩ := List.cons_subset.mp hLabels
    -- whatever `l` does, the labels behind it follow by induction
    have hRest : ∀ t t' : Session σ (Work SymbolicState), InStep t t' →
        Unalarmed env.solver system reached t.work →
        (∀ q ∈ reached.states, l.isConstructor = false → l.isError = true →
          env.solver.Answers (l.guardOn (RegionState.toExpr q)) .unsat) →
        Follows t t' (fireLabels (symbolic env true) ls) (fireLabels (synchronised env .shared) ls)
          (fun b r b' r' => (b = false ∧ b' = false ∧ InStep r r' ∧
            Unalarmed env.solver system reached r.work ∧
            ∀ q ∈ reached.states, Refutes env.solver (l :: ls) q) ∨ Parted r r') := by
      intro t t' ht hwt hRefuted
      refine (ih hls ht hwt).mono fun b r b' r' => Or.imp_left ?_
      rintro ⟨hb, hb', hr, hwr, hRefutes⟩
      exact ⟨hb, hb', hr, hwr, fun q hq =>
        List.forall_mem_cons.mpr ⟨hRefuted q hq, hRefutes q hq⟩⟩
    refine .stopped_bind ?_
    rw [hs.stop, hs.stop']
    simp only [Bool.false_eq_true, if_false]
    by_cases hConstructor : l.isConstructor = true
    · simp only [hConstructor, Bool.not_true, Bool.false_eq_true, if_false]
      exact hRest s s' hs hw fun q hq hno => absurd hno (by simp [hConstructor])
    rw [Bool.not_eq_true] at hConstructor
    simp only [hConstructor, Bool.not_false, if_true]
    by_cases hError : l.isError = true
    · rw [if_pos hError, if_pos hError]
      refine (follows_testError hSolver hEnv hl hConstructor hError hs hw).bind ?_
      rintro _ t _ t' (⟨ht, hwt, hUnsat⟩ | hParted)
      · exact hRest t t' ht hwt fun q hq _ _ => hUnsat q hq
      · -- once parted, the first search only adds to what the second one has stopped with
        exact (hParted.follows_fireLabels ls).mono fun _ _ _ _ h => .inr h
    · rw [if_neg hError, if_neg hError]
      have hExpand : Ensures s ((symbolic env true).expand l)
          (fun _ t => Unalarmed env.solver system reached t.work) (fun _ => True) :=
        ensures_image_bind (.forM (fun t => Unalarmed env.solver system reached t.work)
          (fun q _ t ht => ensures_expandSymbolic_keeps (fun w p hw => hw.addPending p) ht) hw)
      have hSymbolic := related_symbolic (likeness hSolver hEnv) (Alike.keepsSolve hSolver _) true
      refine (hs.follows (hSymbolic.expand l) hExpand).bind ?_
      rintro _ t _ t' ⟨-, ht, hwt⟩
      exact hRest t t' ht hwt fun q hq _ hError' => absurd hError' hError

omit hEnv in
/-- Some states are compared with what is covered, if it was found out about each of them. -/
theorem uncovered_run (covered : Expr) (entries : List (String × SymbolicState))
    (hAnswers : ∀ entry ∈ entries, ∃ b : Bool,
      env.solver.Answers (entry.2.outside covered) (if b then .sat else .unsat))
    (s : Session σ (Work SymbolicState)) :
    ∃ added memory, Region.uncovered env covered entries s =
      .ok added { s with memory := memory } := by
  induction entries generalizing s with
  | nil => exact ⟨{}, s.memory, rfl⟩
  | cons entry rest ih =>
    obtain ⟨⟨b, hAnswer⟩, hRest⟩ := List.forall_mem_cons.mp hAnswers
    obtain ⟨memory, hRun⟩ := holds_run hSolver.decide hAnswer (.novelty entry.2.id) s
    obtain ⟨added, memory', hOthers⟩ := ih hRest { s with memory := memory }
    unfold Region.uncovered isNew
    rw [bind_run_of_ok hRun]
    cases b with
    | true => exact ⟨_, memory', bind_run_of_ok hOthers⟩
    | false => exact ⟨added, memory', hOthers⟩

omit hEnv in
/-- A region can be compared with what is reached, if a larger one was. -/
theorem follows_difference {r r' : Region SymbolicState}
    (hSub : ∀ (name : String) q, r'[name]? = some q → r[name]? = some q)
    (reached : Region SymbolicState) (xs : List Variable) :
    Follows s s' (Region.difference env r reached xs) (Region.difference env r' reached xs)
      (fun _ t _ t' => t.work = s.work ∧ t'.work = s'.work ∧ t'.stop = s'.stop) := by
  intro added t hRun
  obtain ⟨hWork, hFrom, hAll⟩ := (Region.ensures_difference env r reached xs).of_eq_ok hRun
  obtain ⟨added', memory, hRun'⟩ := uncovered_run hSolver (reached.covered xs) r'.toList
    (fun entry hEntry => by
      have hq := hSub _ _ (Std.TreeMap.mem_toList_iff_getElem?_eq_some.mp hEntry)
      rcases hAll _ _ hq with hAdded | hUnsat
      · exact ⟨true, (hFrom _ _ hAdded).2⟩
      · exact ⟨false, hUnsat⟩) s'
  exact ⟨added', _, hRun', hWork, rfl, rfl⟩

/-- The search that halted completes its depth as well, with some of the pending states of the other
one. -/
theorem Parted.follows_closeDepth (h : Parted s s') (xs : List Variable) (depth : Nat) :
    Follows s s' (closeDepth env (symbolic env true) xs depth)
      (closeDepth env (synchronised env .shared) xs depth)
      (fun _ t _ t' => t'.stop = true ∧ ∃ depth label history,
        FirstError depth label history t.work.image ∧
          OnlyError depth label history t'.work.image) := by
  obtain ⟨hStop, d, label, history, hOnly, hAhead⟩ := h
  refine .report_bind hEnv fun w₁ w₁' hw₁ hw₁' _ hs₁ => follows_image_bind (.report_bind hEnv
    fun w₂ w₂' hw₂ hw₂' _ hs₂ => .report_bind hEnv fun w₃ w₃' hw₃ hw₃' _ hs₃ => follows_image_bind
    (follows_modifyImage_bind (.report_bind hEnv fun w₄ w₄' hw₄ hw₄' _ hs₄ => .report_bind hEnv
    fun w₅ w₅' hw₅ hw₅' _ hs₅ => follows_image_bind ?_)))
  have hCleared : w₅.work = { s.work with image := { s.work.image with pending := {} } } := by
    rw [hw₅, hw₄, hw₃, hw₂, hw₁]
  have hCleared' : w₅'.work = { s'.work with image := { s'.work.image with pending := {} } } := by
    rw [hw₅', hw₄', hw₃', hw₂', hw₁']
  rw [hCleared, hCleared', hw₃, hw₂, hw₁, hw₃', hw₂', hw₁']
  simp only [hAhead.reachable]
  refine (follows_difference hSolver ?_ _ _).bind ?_
  · intro name q hq
    obtain ⟨p, hp, rfl⟩ := getElem?_successors.mp hq
    exact getElem?_successors.mpr ⟨p, (hAhead.pending name p hp).1, rfl⟩
  rintro added t added' t' ⟨ht, ht', hs₆⟩
  refine .report_bind hEnv fun r r' hr hr' _ hs₇ => ?_
  rintro _ _ ⟨⟩
  refine ⟨(), _, rfl, ?_, d, label, history, ?_, ?_⟩
  · show r'.stop = true
    rw [hs₇, hs₆, hs₅, hs₄, hs₃, hs₂, hs₁, hStop]
  · simp only [hr, ht, hCleared]
    exact ⟨hAhead.first.le, hAhead.first.reachedErrors, hAhead.first.message, hAhead.first.earlier,
      hAhead.first.counterexample⟩
  · simp only [hr', ht', hCleared']
    exact ⟨hOnly.reachedErrors, hOnly.errorsAtDepth, hOnly.counterexamples⟩

/-- The body of a depth: both do the same up to the first error, where one of them halts. -/
theorem follows_fireDepth (hs : InStep s s') (hw : Unalarmed env.solver system reached s.work) :
    Follows s s' (fireDepth env (symbolic env true)) (fireDepth env (synchronised env .shared))
      (fun b t b' t' => (b = false ∧ b' = false ∧ InStep t t' ∧
        Unalarmed env.solver system reached t.work ∧
        ∀ q ∈ reached.states, Refutes env.solver system.labels q) ∨ Parted t t') := by
  refine .work_bind (follows_modifyImage_bind (follows_image_bind ?_))
  simp only [hs.work]
  refine .report_bind hEnv fun r r' hr hr' hStop hStop' => ?_
  have hStep : InStep r r' := ⟨by rw [hr, hr'], hStop.trans hs.stop, hStop'.trans hs.stop'⟩
  have hwr : Unalarmed env.solver system reached r.work := by
    rw [hr]
    exact ⟨hw.system_eq, hw.reachable, hw.reachedErrors, hw.errorsAtDepth, hw.counterexamples,
      hw.frontier, hw.tested, hw.pending⟩
  rw [hw.system_eq]
  exact follows_fireLabels hSolver hEnv _ (List.Subset.refl _) hStep hwr

/-- A depth without errors is the same in both searches, and leaves all states behind the new
frontier tested; a depth with an error parts them. -/
theorem follows_deepen (hs : InStep s s') (hw : Unalarmed env.solver system reached s.work) :
    Follows s s' (deepen env (symbolic env true)) (deepen env (synchronised env .shared))
      (fun b t b' t' => (b = false ∧ b' = false ∧ InStep t t' ∧
          ∃ reached, Unalarmed env.solver system reached t.work) ∨
        t'.stop = true ∧ ∃ depth label history, FirstError depth label history t.work.image ∧
          OnlyError depth label history t'.work.image) := by
  refine .work_bind ?_
  rw [hs.work]
  refine (follows_fireDepth hSolver hEnv hs hw).bind ?_
  rintro b t b' t' (⟨rfl, rfl, ht, hwt, hRefutes⟩ | hParted)
  · have hClose : ∀ xs depth, Alike (closeDepth env (symbolic env true) xs depth)
        (closeDepth env (synchronised env .shared) xs depth) :=
      rel_closeDepth (likeness hSolver hEnv) rfl fun _ _ _ => Region.rel_uncovered _ _ _
    refine (ht.follows (hClose _ _) (ensures_closeDepth_symbolic _ _)).bind ?_
    rintro _ o _ o' ⟨-, ho, added, hWork⟩
    refine .pure (.inl ⟨rfl, rfl, ho, reached.union added, ?_⟩)
    rw [hWork]
    refine ⟨hwt.system_eq, by rw [advance, hwt.reachable], hwt.reachedErrors, hwt.errorsAtDepth,
      hwt.counterexamples, fun name q hq => ?_, fun name q hq => ?_, fun name q hq => ?_⟩
    · exact Region.getElem?_union.mpr (.inl hq)
    · rcases Region.getElem?_union.mp hq with hAdded | ⟨-, hOld⟩
      · exact .inl hAdded
      · exact .inr (hRefutes q (Region.mem_states.mpr ⟨name, hOld⟩))
    · simp [advance] at hq
  · refine (hParted.follows_closeDepth hSolver hEnv _ _).bind ?_
    rintro _ o _ o' hEnds
    exact .pure (.inr hEnds)

end Depth

/-! ## Runs -/

section Run

variable {depth : Nat} {label : String} {history : List String}

/-- What is known about the first error does not depend on the rest of the image. -/
theorem FirstError.of_eq {i i' : Image S} (h : FirstError depth label history i)
    (hle : i.depth ≤ i'.depth) (hReached : i'.reachedErrors = i.reachedErrors)
    (hMessages : i'.errorsAtDepth = i.errorsAtDepth)
    (hWays : i'.counterexamples = i.counterexamples) : FirstError depth label history i' where
  le := h.le.trans hle
  reachedErrors := hReached ▸ h.reachedErrors
  message := hMessages ▸ h.message
  earlier := hMessages ▸ h.earlier
  counterexample := hWays ▸ h.counterexample

/-- The first error stays the first. -/
theorem ensures_deepen_first (h : FirstError depth label history s.work.image) :
    Ensures s (deepen env (symbolic env true))
      (fun _ t => FirstError depth label history t.work.image) (fun _ => True) := by
  refine (ensures_deepen (fun _ w => FirstError depth label history w.image) (fun _ _ => True)
    (fun r hr => ?_) fun w t => ?_).mono (fun _ t ⟨w, added, hw, _, ht⟩ => ?_) fun _ h => h
  · refine ensures_fireLabels_symbolic (fun w => FirstError depth label history w.image) _
      (fun w p hw => hw.of_eq (Nat.le_refl _) rfl rfl rfl)
      (fun w label' history' hw => hw.recordError label' history') ?_
    rw [hr]
    exact h.of_eq (Nat.le_succ _) rfl rfl rfl
  · exact (Region.ensures_difference env _ _ _).mono (fun _ _ ht => ⟨ht.1, trivial⟩) fun _ h => h
  · rw [ht]
    exact hw.of_eq (Nat.le_refl _) rfl rfl rfl

/-- A search never changes what it knows about its first error. -/
theorem ensures_turn_first (maxDepth : Option Nat)
    (h : FirstError depth label history s.work.image) :
    Ensures s (turn env (symbolic env true) maxDepth)
      (fun next t => next.Satisfies (fun _ => FirstError depth label history t.work.image)
        (FirstError depth label history)) (fun _ => True) := by
  refine ensures_turn (fun _ => .pure rfl) (fun _ => h.of_eq (Nat.le_refl _) rfl rfl rfl)
    (fun _ => h.of_eq (Nat.le_refl _) rfl rfl rfl) fun _ => ?_
  exact (ensures_deepen_first h).mono
    (fun _ t ht => ⟨ht.of_eq (Nat.le_refl _) rfl rfl rfl, fun _ => ht⟩) fun _ h => h

/-- What follows a depth of the plain search keeps its first error. -/
theorem ensures_afterDepth_first (d : Nat) (interrupted : Bool)
    (h : FirstError depth label history s.work.image) :
    Ensures s (afterDepth (symbolic env true) d interrupted)
      (fun next t => next.Satisfies (fun _ => FirstError depth label history t.work.image)
        (FirstError depth label history)) (fun _ => True) := by
  have hEnd : ∀ ending, FirstError depth label history (concluded ending s).work.image :=
    fun _ => h.of_eq (Nat.le_refl _) rfl rfl rfl
  unfold afterDepth
  split
  · exact hEnd _
  · refine .stopped_bind (Ensures.bind (Q := fun _ r => r = s) rfl ?_)
    rintro _ _ rfl
    split
    · exact hEnd _
    · exact .pure h

/-- A search that was stopped at an error ends there. -/
theorem exists_stopped_of_stop (hStop : s.stop = true)
    (hOnly : OnlyError depth label history s.work.image) (strategy : Strategy σ SymbolicState)
    (hGoesOn : ∃ b, strategy.goesOn s = .ok b s) (d : Nat) (interrupted : Bool) :
    ∃ i t, afterDepth strategy d interrupted s = .ok (.done i) t ∧
      OnlyError depth label history i ∧ ∃ k, i.ending = .stopped k := by
  unfold afterDepth
  cases interrupted with
  | true => exact ⟨_, _, rfl, ⟨hOnly.1, hOnly.2, hOnly.3⟩, d, rfl⟩
  | false =>
    obtain ⟨b, hGoesOn⟩ := hGoesOn
    rw [if_neg Bool.false_ne_true, stopped_bind_run, hStop, bind_run_of_ok hGoesOn]
    exact ⟨_, _, rfl, ⟨hOnly.1, hOnly.2, hOnly.3⟩, d + 1, rfl⟩

/-- How the two searches end: in the same way if no error is reached, and else the second one has
the first error of the first one, and was stopped. -/
def AgreeOnFirstError (i i' : Image SymbolicState) : Prop :=
  (i' = i ∧ i.reachedErrors = []) ∨
    ∃ depth label history, FirstError depth label history i ∧ OnlyError depth label history i' ∧
      ∃ k, i'.ending = .stopped k

/-- Both searches go on: they are in step, and no error is reached. -/
def BothGoOn (solver : Solver σ) (_ : Unit) (s : Session σ (Work SymbolicState)) (_ : Unit)
    (s' : Session σ (Work SymbolicState)) : Prop :=
  InStep s s' ∧ ∃ system reached, Unalarmed solver system reached s.work

/-- Only the first search goes on, and the second one was stopped at the first error. -/
def OneGoesOn (_ : Unit) (s : Session σ (Work SymbolicState)) (i' : Image SymbolicState) : Prop :=
  ∃ depth label history, FirstError depth label history s.work.image ∧
    OnlyError depth label history i' ∧ ∃ k, i'.ending = .stopped k

/-- Once one search is stopped, the other one only adds to the first error. -/
theorem ensures_turn_oneGoesOn (maxDepth : Option Nat) {i' : Image SymbolicState}
    (h : OneGoesOn () s i') :
    Ensures s (turn env (symbolic env true) maxDepth)
      (fun next t => next.Satisfies (OneGoesOn · t i') (AgreeOnFirstError · i'))
      (fun _ => True) := by
  obtain ⟨depth, label, history, hFirst, hRest⟩ := h
  refine (ensures_turn_first maxDepth hFirst).mono (fun next t ht => ?_) fun _ h => h
  cases next with
  | again => exact ⟨depth, label, history, ht, hRest⟩
  | done i => exact .inr ⟨depth, label, history, ht, hRest⟩

/-- A turn of the second search follows one of the first search. -/
theorem follows_turn (hSolver : env.solver.Repeatable) (hEnv : env.Aloof) (maxDepth : Option Nat)
    (h : BothGoOn env.solver () s () s') :
    Follows s s' (turn env (symbolic env true) maxDepth)
      (turn env (synchronised env .shared) maxDepth)
      (Turn.Meets (BothGoOn env.solver) OneGoesOn AgreeOnFirstError) := by
  obtain ⟨hs, system, reached, hw⟩ := h
  have hEnd : ∀ ending, Follows s s' (do return Turn.done (← endAs ending))
      (do return Turn.done (← endAs ending))
      (Turn.Meets (BothGoOn env.solver) OneGoesOn AgreeOnFirstError) := by
    rintro ending _ _ ⟨⟩
    refine ⟨_, _, rfl, .inl ⟨?_, hw.reachedErrors⟩⟩
    simp only [hs.work]
  refine follows_image_bind ?_
  rw [hs.work]
  split
  · exact hEnd _
  · split
    · exact hEnd _
    · refine (follows_deepen hSolver hEnv hs hw).bind fun b t b' t' hEnds => ?_
      have hGoesOn : (synchronised env .shared).goesOn t' = .ok (!t'.stop) t' := rfl
      rcases hEnds with ⟨rfl, rfl, ht, reached', hwt⟩ | ⟨hStop, d, label, history, hFirst, hOnly⟩
      · -- both flags are down, so both searches go on
        unfold afterDepth
        rw [if_neg Bool.false_ne_true, if_neg Bool.false_ne_true]
        refine .stopped_bind ?_
        rw [ht.stop, ht.stop']
        rintro next r ⟨⟩
        rw [ht.stop'] at hGoesOn
        refine ⟨.again (), t', bind_run_of_ok hGoesOn, ht, system, reached', hwt⟩
      · -- an error has stopped the second search, whatever the first one does
        obtain ⟨i', r', hRun', hOnly', hStopped⟩ := exists_stopped_of_stop hStop hOnly
          (synchronised env .shared) ⟨_, hGoesOn⟩ s.work.image.depth b'
        refine .of_eq_ok (ensures_afterDepth_first _ b hFirst) hRun' fun next r hr => ?_
        cases next with
        | again => exact ⟨d, label, history, hr, hOnly', hStopped⟩
        | done i => exact .inr ⟨d, label, history, hr, hOnly', hStopped⟩

/-- Both searches begin with the same image, in which everything is on the frontier. -/
theorem follows_seedSymbolic (hSolver : env.solver.Repeatable) (hEnv : env.Aloof)
    (hs : InStep s s') :
    Follows s s' (seedSymbolic env) (seedSymbolic env) (BothGoOn env.solver) := by
  have hStart : Alike (start env : Step σ SymbolicState Unit) (start env) :=
    rel_searchStart (likeness hSolver hEnv) trivial
  refine Follows.bind (Q := fun _ t _ t' => InStep t t') (.of_alike hStart hs.stop hs.stop' hs.work
    fun _ _ _ _ hWork hDown hDown' => ⟨hWork, hDown, hDown'⟩) fun _ t _ t' ht => ?_
  refine .work_bind (.modifyWork_bind ?_)
  rintro _ _ ⟨⟩
  refine ⟨(), _, rfl, ⟨by simp only [ht.work], ht.stop, ht.stop'⟩, _, _, rfl, rfl, rfl, rfl, rfl,
    fun _ _ hq => hq, fun _ _ hq => .inl hq, fun name q hq => ?_⟩
  simp [Image.ofInitial] at hq

end Run

/-- Let the answers of the solver depend on the question alone, and let nobody else touch the stop
flag, which is down at first. If the plain search returns, then so does the synchronised search of
the same system: with the same image if no error is reached, and else with the first error of the
plain search alone, at the same depth and with the same way to it, and stopped. -/
theorem synchronised_agrees_on_first_error {env : Surroundings σ} (hSolver : env.solver.Repeatable)
    (hEnv : env.Aloof) {maxDepth : Option Nat} {s s' t : Session σ (Work SymbolicState)}
    {i : Image SymbolicState} (hStop : s.stop = false) (hStop' : s'.stop = false)
    (hWork : s'.work = s.work)
    (hRun : (searchSymbolic env (symbolic env true) maxDepth).run s = some (.ok i t)) :
    ∃ i' t', (searchSymbolic env (synchronised env .shared) maxDepth).run s' = some (.ok i' t') ∧
      (i'.reachedErrors = [] ↔ i.reachedErrors = []) ∧
      (i.reachedErrors = [] → i' = i) ∧
      (i.reachedErrors ≠ [] → ∃ depth label history, FirstError depth label history i ∧
        OnlyError depth label history i' ∧ ∃ k, i'.ending = .stopped k) := by
  have hFirst : Follows s s' (searchSymbolic env (symbolic env true) maxDepth).first
      (searchSymbolic env (synchronised env .shared) maxDepth).first (BothGoOn env.solver) :=
    follows_seedSymbolic hSolver hEnv ⟨hWork, hStop, hStop'⟩
  obtain ⟨i', t', hRun', hAgree⟩ := Exploration.exists_of_follows
    (fun _ _ _ _ h => follows_turn hSolver hEnv maxDepth h)
    (fun _ _ _ h => ensures_turn_oneGoesOn maxDepth h) hFirst hRun
  refine ⟨i', t', hRun', ?_⟩
  rcases hAgree with ⟨rfl, hNone⟩ | ⟨depth, label, history, hFirst, hOnly, hStopped⟩
  · exact ⟨Iff.rfl, fun _ => rfl, fun hSome => absurd hNone hSome⟩
  · obtain ⟨rest, hReached⟩ := hFirst.reachedErrors
    rw [hReached, hOnly.reachedErrors]
    exact ⟨by simp, by simp, fun _ => ⟨depth, label, history, hFirst, hOnly, hStopped⟩⟩

/-- A variable that is off at first and can be set, and two errors once it is. -/
def relaySystem : System where
  stateVariables := [Unrolling.switch]
  initialValues := [(Unrolling.switch, .not (.var Unrolling.switch))]
  labels := [
    { name := "set", stateVariables := [Unrolling.switch],
      effects := [(Unrolling.switch, .var Unrolling.switch.primed)] },
    { name := "overload", stateVariables := [Unrolling.switch],
      preconditions := [.var Unrolling.switch], isError := true },
    { name := "drain", stateVariables := [Unrolling.switch],
      preconditions := [.var Unrolling.switch], isError := true }]

open scoped Reals

/-- Both errors are reached at the second depth. The synchronised search is interrupted between
them. -/
theorem synchronised_agrees_on_overload :
    let env : Surroundings Unit := { solver := .exhaustive }
    ∃ (i i' : Image SymbolicState) (t t' : Session Unit (Work SymbolicState)),
      (searchSymbolic env (symbolic env true) none).run
        { memory := (), work := { unrolling := { system := relaySystem } } } = some (.ok i t) ∧
      i.reachedErrors = ["overload", "drain"] ∧
      (searchSymbolic env (synchronised env .shared) none).run
        { memory := (), work := { unrolling := { system := relaySystem } } } = some (.ok i' t') ∧
      OnlyError 2 "overload" ["set", "overload"] i' ∧ ∃ k, i'.ending = .stopped k := by
  intro env
  have hCheck : (searchSymbolic env (symbolic env true) none).returns 4
      { memory := (), work := { unrolling := { system := relaySystem } } }
      (fun i _ => i.reachedErrors = ["overload", "drain"] ∧
        i.errorsAtDepth.toList.map Prod.fst = [2] ∧
        i.counterexamples[("overload" : String)]? = some ["set", "overload"]) = true := by
    decide +kernel
  obtain ⟨i, t, hRun, hFound⟩ := Exploration.exists_of_returns hCheck
  obtain ⟨hReached, hDepths, hWay⟩ := of_decide_eq_true hFound
  have hSolver : env.solver.Repeatable := ⟨fun _ _ _ => rfl, fun _ _ _ => rfl⟩
  obtain ⟨i', t', hRun', -, -, hAgree⟩ :=
    synchronised_agrees_on_first_error hSolver (fun _ _ => rfl) rfl rfl rfl hRun
  obtain ⟨depth, label, history, hFirst, hOnly, hStopped⟩ := hAgree (by simp [hReached])
  obtain rfl : label = "overload" := by
    obtain ⟨rest, hLabel⟩ := hFirst.reachedErrors
    rw [hReached] at hLabel
    exact (List.cons.inj hLabel).1.symm
  obtain rfl : history = ["set", "overload"] := by
    rw [hFirst.counterexample] at hWay
    exact Option.some.inj hWay
  obtain rfl : depth = 2 := by
    obtain ⟨rest, hMessage⟩ := hFirst.message
    rw [← Std.TreeMap.mem_toList_iff_getElem?_eq_some] at hMessage
    have hMem := List.mem_map_of_mem (f := Prod.fst) hMessage
    rw [hDepths] at hMem
    exact List.mem_singleton.mp hMem
  exact ⟨i, i', t, t', hRun, hReached, hRun', hOnly, hStopped⟩

end StateSpace.Search
