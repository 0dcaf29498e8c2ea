import StateSpace.Proofs.Exploration.Loop
import StateSpace.Proofs.Search.Strategy
import StateSpace.Search.BreadthFirst

/-!
# The depths of a search

A depth fires all labels and then closes: what its successors add to the region reached is the next
frontier. So whatever every label preserves, the firing of all labels preserves
(`Search.ensures_fireLabels`), and a depth as a whole is described by what its labels leave and what
is then added (`Search.ensures_deepen`). A turn of the search is such a depth, or the end
(`Search.ensures_turn`), and a search that returns has gone through some depths, one after the other
(`Search.exists_deepens`).

Names are given once (`Search.Sprouting`), so that what is added replaces nothing that was reached
(`Search.Resting.advance`).
-/

namespace StateSpace.Search

open Explore

variable {σ S : Type} {env : Surroundings σ} {system : System} {strategy : Strategy σ S}
  {s t : Session σ (Work S)} {w : Work S} {R : Session σ (Work S) → Prop} {initial : List S} {q : S}
  {name : String} {maxDepth : Option Nat}

/-! ## Firing labels -/

/-- What firing or testing each label preserves, firing all of them does. If it is not interrupted,
then every label but the constructors has had its effect. -/
theorem ensures_fireLabels {labels : List Label} (Inv : Session σ (Work S) → Prop)
    (Done : Label → Session σ (Work S) → Prop)
    (hFire : ∀ l ∈ labels, l.isConstructor = false → ∀ s, Inv s →
      Ensures s (if l.isError then strategy.testError l else strategy.expand l)
        (fun _ t => Inv t ∧ Done l t ∧ ∀ l', Done l' s → Done l' t) R)
    (hs : Inv s) :
    Ensures s (fireLabels strategy labels)
      (fun interrupted t => Inv t ∧ (∀ l, Done l s → Done l t) ∧
        (interrupted = false → ∀ l ∈ labels, l.isConstructor = false → Done l t)) R := by
  induction labels generalizing s with
  | nil => exact .pure ⟨hs, fun _ h => h, by simp⟩
  | cons l ls ih =>
    have hRest : ∀ t, Inv t → (∀ l', Done l' s → Done l' t) → (l.isConstructor = false → Done l t) →
        Ensures t (fireLabels strategy ls)
          (fun interrupted r => Inv r ∧ (∀ l', Done l' s → Done l' r) ∧
            (interrupted = false → ∀ l' ∈ l :: ls, l'.isConstructor = false → Done l' r)) R := by
      intro t ht hKept hl
      refine (ih (fun l' hl' => hFire l' (List.mem_cons_of_mem _ hl')) ht).mono
        (fun interrupted r ⟨hr, hKept', hAll⟩ => ?_) fun _ h => h
      refine ⟨hr, fun l' h => hKept' l' (hKept l' h), fun hThrough => ?_⟩
      exact List.forall_mem_cons.mpr ⟨fun hno => hKept' l (hl hno), hAll hThrough⟩
    refine .stopped_bind ?_
    split
    · exact .pure ⟨hs, fun _ h => h, nofun⟩
    · split
      · next hno =>
        have hl := hFire l List.mem_cons_self (by simpa using hno) s hs
        split
        · next hError =>
          rw [if_pos hError] at hl
          exact hl.bind fun _ t ⟨ht, hl, hKept⟩ => hRest t ht hKept fun _ => hl
        · next hError =>
          rw [if_neg hError] at hl
          exact hl.bind fun _ t ⟨ht, hl, hKept⟩ => hRest t ht hKept fun _ => hl
      · next hConstructor =>
        exact hRest s hs (fun _ h => h) fun hno => absurd hno (by simpa using hConstructor)

/-- What firing or testing each label preserves, firing all of them does. -/
theorem ensures_fireLabels_keeps {labels : List Label} (Inv : Session σ (Work S) → Prop)
    (hExpand : ∀ l ∈ labels, l.isConstructor = false → l.isError = false → ∀ s, Inv s →
      Ensures s (strategy.expand l) (fun _ t => Inv t) R)
    (hTest : ∀ l ∈ labels, l.isConstructor = false → l.isError = true → ∀ s, Inv s →
      Ensures s (strategy.testError l) (fun _ t => Inv t) R)
    (hs : Inv s) :
    Ensures s (fireLabels strategy labels) (fun _ t => Inv t) R := by
  refine (ensures_fireLabels Inv (fun _ _ => True) (fun l hl hno s hs => ?_) hs).mono
    (fun _ _ h => h.1) fun _ h => h
  split
  · next hError =>
    exact (hTest l hl hno hError s hs).mono (fun _ _ ht => ⟨ht, trivial, fun _ _ => trivial⟩)
      fun _ h => h
  · next hError =>
    exact (hExpand l hl hno (by simpa using hError) s hs).mono
      (fun _ _ ht => ⟨ht, trivial, fun _ _ => trivial⟩) fun _ h => h

/-! ## One depth -/

/-- The work as a depth begins. -/
def deeper (w : Work S) : Work S :=
  { w with image := { w.image with depth := w.image.depth + 1 } }

/-- The work after a depth: the states added are reached, and they are the frontier. -/
def advance (w : Work S) (added : Region S) : Work S :=
  { w with image := { w.image with
      pending := {}, reachable := w.image.reachable.union added, frontier := added } }

theorem getElem?_successors {i : Image S} :
    (successors strategy i)[name]? = some q ↔
      ∃ p, i.pending[name]? = some p ∧ q = strategy.toCurrent p := by
  rw [successors, Std.TreeMap.getElem?_map, Option.map_eq_some_iff]
  simp only [eq_comm]

theorem ensures_fireDepth {Q : Bool → Session σ (Work S) → Prop}
    (h : ∀ r, r.work = deeper s.work →
      Ensures r (fireLabels strategy s.work.unrolling.system.labels) Q R) :
    Ensures s (fireDepth env strategy) Q R :=
  .work_bind (ensures_modifyImage_bind (ensures_image_bind (.report_bind fun r hr => h r hr)))

/-- What the difference finds to be added is reached afterwards, and it is the frontier. -/
theorem ensures_closeDepth {Adds : Region S → Prop} {xs : List Variable}
    (hDifference : ∀ t : Session σ (Work S),
      Ensures t (strategy.difference (successors strategy s.work.image) s.work.image.reachable xs)
        (fun added r => r.work = t.work ∧ Adds added) R) (depth : Nat) :
    Ensures s (closeDepth env strategy xs depth)
      (fun _ t => ∃ added, Adds added ∧ t.work = advance s.work added) R := by
  refine .report_bind fun w₁ hw₁ => ensures_image_bind (.report_bind fun w₂ hw₂ => .report_bind
    fun w₃ hw₃ => ensures_image_bind (ensures_modifyImage_bind (.report_bind fun w₄ hw₄ =>
    .report_bind fun w₅ hw₅ => ensures_image_bind ?_)))
  have hSame : w₃.work = s.work := hw₃.trans (hw₂.trans hw₁)
  have hCleared : w₅.work = { s.work with image := { s.work.image with pending := {} } } := by
    rw [hw₅, hw₄, hSame]
  rw [hCleared, hSame]
  refine (hDifference w₅).bind fun added o ⟨ho, hAdded⟩ => ?_
  refine .report_bind fun o' ho' => .modifyWork ⟨added, hAdded, ?_⟩
  rw [ho', ho, hCleared]
  rfl

/-- A depth is described by what its labels leave and by what is then added. -/
theorem ensures_deepen (Mid : Bool → Work S → Prop) (Adds : Work S → Region S → Prop)
    (hFire : ∀ r, r.work = deeper s.work →
      Ensures r (fireLabels strategy s.work.unrolling.system.labels)
        (fun interrupted t => Mid interrupted t.work) R)
    (hDifference : ∀ (w : Work S) (t : Session σ (Work S)),
      Ensures t (strategy.difference (successors strategy w.image) w.image.reachable
        s.work.unrolling.system.stateVariables) (fun added r => r.work = t.work ∧ Adds w added) R) :
    Ensures s (deepen env strategy)
      (fun interrupted t => ∃ w added, Mid interrupted w ∧ Adds w added ∧ t.work = advance w added)
      R := by
  refine .work_bind ((ensures_fireDepth hFire).bind fun interrupted r hr => ?_)
  refine (ensures_closeDepth (fun t => hDifference r.work t) _).bind
    fun _ t ⟨added, hAdded, ht⟩ => ?_
  exact .pure ⟨r.work, added, hr, hAdded, ht⟩

/-- A depth that returns has fired its labels and then closed. -/
theorem deepen_cases {interrupted : Bool} (h : deepen env strategy s = .ok interrupted t) :
    ∃ r, fireDepth env strategy s = .ok interrupted r ∧
      closeDepth env strategy s.work.unrolling.system.stateVariables (s.work.image.depth + 1) r =
        .ok () t := by
  rw [deepen, work_bind_run] at h
  obtain ⟨_, r, hFire, hRest⟩ := bind_eq_ok.mp h
  obtain ⟨_, o, hClose, hPure⟩ := bind_eq_ok.mp hRest
  cases hPure
  exact ⟨r, hFire, hClose⟩

/-! ## Names -/

/-- In the middle of a depth: what was reached is as before, and what is pending has names after
`base` and a property. -/
structure Sprouting (P : S → Prop) (system : System) (base : Nat) (reached : Region S)
    (w : Work S) : Prop where
  system_eq : w.unrolling.system = system
  reachable : w.image.reachable = reached
  base_le : base ≤ w.image.names
  pending : ∀ (name : String) q, w.image.pending[name]? = some q →
    (∃ m, base < m ∧ m ≤ w.image.names ∧ name = Region.nameOf m) ∧ P q

section Sprouting

variable {P : S → Prop} {base : Nat} {reached : Region S}

/-- A successor gets the next name. -/
theorem Sprouting.addPending (h : Sprouting P system base reached w) (issued : Nat) {p : S}
    (hp : P p) :
    Sprouting P system base reached { w with issued, image := w.image.addPending p } where
  system_eq := h.system_eq
  reachable := h.reachable
  base_le := Nat.le_succ_of_le h.base_le
  pending name q hq := by
    have hGet : (w.image.pending.insert (Region.nameOf (w.image.names + 1)) p)[name]? = some q := hq
    rw [Std.TreeMap.getElem?_insert] at hGet
    show (∃ m, base < m ∧ m ≤ w.image.names + 1 ∧ _) ∧ P q
    split at hGet
    · next hName =>
      cases hGet
      have := h.base_le
      exact ⟨⟨_, by omega, Nat.le_refl _, (Std.LawfulEqCmp.compare_eq_iff_eq.mp hName).symm⟩, hp⟩
    · obtain ⟨⟨m, hBase, hm, hName⟩, hq⟩ := h.pending name q hGet
      exact ⟨⟨m, hBase, Nat.le_succ_of_le hm, hName⟩, hq⟩

theorem Sprouting.recordError (h : Sprouting P system base reached w) (label : String)
    (history : List String) :
    Sprouting P system base reached { w with image := w.image.recordError label history } := by
  unfold Image.recordError
  split
  · exact h
  · exact ⟨h.system_eq, h.reachable, h.base_le, h.pending⟩

theorem Sprouting.halt (h : Sprouting P system base reached w) :
    Sprouting P system base reached { w with halted := true } :=
  ⟨h.system_eq, h.reachable, h.base_le, h.pending⟩

end Sprouting

/-- Between depths: nothing is pending, and all names were given. -/
structure Resting (system : System) (w : Work S) : Prop where
  system_eq : w.unrolling.system = system
  reachable : ∀ (name : String) q, w.image.reachable[name]? = some q →
    ∃ m ≤ w.image.names, name = Region.nameOf m
  pending : ∀ name : String, w.image.pending[name]? = none

/-- The initial states are reached, under names from 1 on. -/
theorem getElem?_ofInitial :
    (Image.ofInitial initial).reachable[name]? = some q ↔
      ∃ k, initial[k]? = some q ∧ name = Region.nameOf (k + 1) := by
  let named := (initial.zipIdx 1).map fun entry => (Region.nameOf entry.2, entry.1)
  have hNames : (named.map Prod.fst).Nodup := by
    have heq : named.map Prod.fst = (List.range' 1 initial.length).map Region.nameOf := by
      rw [← List.zipIdx_map_snd 1 initial, List.map_map, List.map_map]
      rfl
    rw [heq]
    refine List.pairwise_map.mpr ((List.nodup_range' 1 Nat.one_pos).imp fun hne hName => ?_)
    exact hne (Region.nameOf_injective hName)
  have hGet : (Image.ofInitial initial).reachable[name]? = some q ↔ (name, q) ∈ named ∨ _ :=
    Region.getElem?_foldl_insert hNames {}
  have hMem : (name, q) ∈ named ↔ ∃ k, initial[k]? = some q ∧ name = Region.nameOf (k + 1) := by
    simp only [named, List.mem_map, Prod.exists, Prod.mk.injEq,
      List.mk_mem_zipIdx_iff_le_and_getElem?_sub]
    constructor
    · rintro ⟨q', i, ⟨hi, hq⟩, rfl, rfl⟩
      exact ⟨i - 1, hq, by rw [Nat.sub_add_cancel hi]⟩
    · rintro ⟨k, hk, rfl⟩
      exact ⟨q, k + 1, ⟨Nat.le_add_left 1 k, hk⟩, rfl, rfl⟩
  rw [hGet, hMem]
  simp

theorem mem_states_ofInitial : q ∈ (Image.ofInitial initial).reachable.states ↔ q ∈ initial := by
  rw [Region.mem_states, List.mem_iff_getElem?]
  simp only [getElem?_ofInitial]
  constructor
  · rintro ⟨name, k, hk, -⟩
    exact ⟨k, hk⟩
  · rintro ⟨k, hk⟩
    exact ⟨_, k, hk, rfl⟩

theorem resting_ofInitial (hSystem : w.unrolling.system = system)
    (hImage : w.image = .ofInitial initial) : Resting system w where
  system_eq := hSystem
  reachable name q hq := by
    rw [hImage] at hq ⊢
    obtain ⟨k, hk, rfl⟩ := getElem?_ofInitial.mp hq
    exact ⟨k + 1, (List.getElem?_eq_some_iff.mp hk).1, rfl⟩
  pending name := by simp [hImage, Image.ofInitial]

/-- The names of a search at rest are all given before those of the next depth. -/
theorem Resting.sprouting {P : S → Prop} (h : Resting system w) :
    Sprouting P system w.image.names w.image.reachable (deeper w) where
  system_eq := h.system_eq
  reachable := rfl
  base_le := Nat.le_refl _
  pending name q hq := by
    have hNone : (deeper w).image.pending[name]? = none := h.pending name
    rw [hNone] at hq
    cases hq

section Advance

variable {P : S → Prop} {w' : Work S} {added : Region S} (hw : Resting system w)
  (hw' : Sprouting P system w.image.names w.image.reachable w')
  (hAdded : ∀ (name : String) q,
    added[name]? = some q → (successors strategy w'.image)[name]? = some q)

include hw' hAdded

/-- A state that is added was pending, under a name that was not given before the depth. -/
theorem Sprouting.of_added (hq : added[name]? = some q) :
    (∃ m, w.image.names < m ∧ m ≤ w'.image.names ∧ name = Region.nameOf m) ∧
      ∃ p, P p ∧ q = strategy.toCurrent p := by
  obtain ⟨p, hp, rfl⟩ := getElem?_successors.mp (hAdded name q hq)
  obtain ⟨hName, hp⟩ := hw'.pending name p hp
  exact ⟨hName, p, hp, rfl⟩

include hw

/-- No name of a state that is added is among those reached. -/
theorem Resting.notMem_reachable (hName : name ∈ added) : name ∉ w.image.reachable := by
  intro hReached
  rw [Std.TreeMap.mem_iff_isSome_getElem?, Option.isSome_iff_exists] at hName hReached
  obtain ⟨q, hq⟩ := hReached
  obtain ⟨q', hq'⟩ := hName
  obtain ⟨m, hm, rfl⟩ := hw.reachable name q hq
  obtain ⟨⟨m', hm', -, heq⟩, -⟩ := hw'.of_added hAdded hq'
  have := Region.nameOf_injective heq
  omega

/-- What is added replaces no state that was reached. -/
theorem Resting.getElem?_advance :
    (advance w' added).image.reachable[name]? = some q ↔
      added[name]? = some q ∨ w.image.reachable[name]? = some q := by
  show (w'.image.reachable.union added)[name]? = some q ↔ _
  rw [hw'.reachable, Region.getElem?_union]
  refine or_congr_right (and_iff_right_of_imp fun hq hMem => ?_)
  refine hw.notMem_reachable hw' hAdded hMem ?_
  rw [Std.TreeMap.mem_iff_isSome_getElem?, hq]
  rfl

theorem Resting.mem_states_advance :
    q ∈ (advance w' added).image.reachable.states ↔
      q ∈ added.states ∨ q ∈ w.image.reachable.states := by
  rw [Region.mem_states, Region.mem_states, Region.mem_states, ← exists_or]
  exact exists_congr fun name => hw.getElem?_advance hw' hAdded

/-- After a depth nothing is pending again. -/
theorem Resting.advance : Resting system (advance w' added) where
  system_eq := hw'.system_eq
  reachable name q hq := by
    rcases (hw.getElem?_advance hw' hAdded).mp hq with hq | hq
    · obtain ⟨⟨m, -, hm, hName⟩, -⟩ := hw'.of_added hAdded hq
      exact ⟨m, hm, hName⟩
    · obtain ⟨m, hm, hName⟩ := hw.reachable name q hq
      exact ⟨m, hm.trans hw'.base_le, hName⟩
  pending name := by simp [Search.advance]

end Advance

/-! ## Turns -/

/-- A search that ends: only the image tells how. -/
def concluded (ending : Ending) (s : Session σ (Work S)) : Session σ (Work S) :=
  { s with work := { s.work with image := { s.work.image with ending } } }

theorem endAs_run (ending : Ending) (s : Session σ (Work S)) :
    endAs ending s = .ok (concluded ending s).work.image (concluded ending s) :=
  rfl

/-- What holds after a turn: it ends at a fixpoint or at the bound, or it has searched a depth and
ends or goes on. Whether to go on is looked up and changes nothing. -/
theorem ensures_turn {Inv : Session σ (Work S) → Prop} {Q : Image S → Session σ (Work S) → Prop}
    (hGoesOn : ∀ s, Ensures s strategy.goesOn (fun _ t => t = s) R)
    (hEmpty : s.work.image.frontier.isEmpty = true →
      let t := concluded (.fixpoint (s.work.image.depth - 1)) s
      Q t.work.image t)
    (hBound : maxDepth = some s.work.image.depth →
      let t := concluded .bounded s
      Q t.work.image t)
    (hDeepen : ¬s.work.image.frontier.isEmpty = true → Ensures s (deepen env strategy)
      (fun interrupted r =>
        let t := concluded (.stopped (s.work.image.depth + if interrupted then 0 else 1)) r
        Q t.work.image t ∧ (interrupted = false → Inv r)) R) :
    Ensures s (turn env strategy maxDepth) (fun next t => next.Satisfies (fun _ => Inv t) (Q · t))
      R := by
  refine ensures_image_bind ?_
  split
  · next h => exact hEmpty h
  · next hNonempty =>
    split
    · next h => exact hBound h
    · refine (hDeepen hNonempty).bind fun interrupted r ⟨hEnded, hInv⟩ => ?_
      cases interrupted with
      | true => exact hEnded
      | false =>
        refine .stopped_bind ((hGoesOn r).bind fun goes r' hr' => ?_)
        subst hr'
        split
        · exact hEnded
        · exact .pure (hInv rfl)

theorem turn_of_isEmpty (h : s.work.image.frontier.isEmpty = true) :
    turn env strategy maxDepth s =
      .ok (.done (concluded (.fixpoint (s.work.image.depth - 1)) s).work.image)
        (concluded (.fixpoint (s.work.image.depth - 1)) s) := by
  show (if s.work.image.frontier.isEmpty then _ else _ : Step σ S (Turn Unit (Image S))) s = _
  rw [if_pos h]
  rfl

/-- A turn ends the search before a depth or after one, or it goes on after one, or its depth
fails. -/
theorem turn_cases (env : Surroundings σ) (hGoesOn : strategy.goesOn = pure true)
    (s : Session σ (Work S)) :
    (∃ ending, turn env strategy none s =
      .ok (.done (concluded ending s).work.image) (concluded ending s)) ∨
    (∃ failure t, deepen env strategy s = .error failure t ∧
      turn env strategy none s = .error failure t) ∨
    (∃ interrupted t ending, deepen env strategy s = .ok interrupted t ∧
      turn env strategy none s =
        .ok (.done (concluded ending t).work.image) (concluded ending t)) ∨
    ∃ t, deepen env strategy s = .ok false t ∧ turn env strategy none s = .ok (.again ()) t := by
  have hTurn : turn env strategy none s = (if s.work.image.frontier.isEmpty
      then (do return Turn.done (← endAs (.fixpoint (s.work.image.depth - 1))))
      else if none = some s.work.image.depth then (do return Turn.done (← endAs .bounded))
      else (do
        let interrupted ← deepen env strategy
        afterDepth strategy s.work.image.depth interrupted) : Step σ S (Turn Unit (Image S))) s :=
          rfl
  split at hTurn
  · exact .inl ⟨_, hTurn⟩
  · rw [if_neg (by simp)] at hTurn
    cases hDeepen : deepen env strategy s with
    | error failure t =>
      exact .inr (.inl ⟨failure, t, rfl, hTurn.trans (bind_run_of_error hDeepen)⟩)
    | ok interrupted t =>
      rw [bind_run_of_ok hDeepen, afterDepth] at hTurn
      cases interrupted with
      | true => exact .inr (.inr (.inl ⟨true, t, _, rfl, hTurn⟩))
      | false =>
        rw [if_neg Bool.false_ne_true, stopped_bind_run, hGoesOn, pure_bind] at hTurn
        split at hTurn
        · exact .inr (.inr (.inl ⟨false, t, _, rfl, hTurn⟩))
        · exact .inr (.inr (.inr ⟨t, rfl, hTurn⟩))

/-! ## Depth after depth -/

/-- The depths of a search from `s`, one after the other until one is interrupted: how many there
were, whether the last one was interrupted, and what it left. -/
inductive Deepens (env : Surroundings σ) (strategy : Strategy σ S) (s : Session σ (Work S)) :
    Nat → Bool → Session σ (Work S) → Prop
  | start : Deepens env strategy s 0 false s
  | deepen {k : Nat} {r t : Session σ (Work S)} {interrupted : Bool}
      (h : Deepens env strategy s k false r)
      (hRun : Search.deepen env strategy r = .ok interrupted t) :
      Deepens env strategy s (k + 1) interrupted t

/-- A search goes through its depths in one way only. -/
theorem Deepens.unique {k : Nat} {interrupted interrupted' : Bool} {t t' : Session σ (Work S)}
    (h : Deepens env strategy s k interrupted t) (h' : Deepens env strategy s k interrupted' t') :
    interrupted = interrupted' ∧ t = t' := by
  induction h generalizing interrupted' t' with
  | start =>
    cases h'
    exact ⟨rfl, rfl⟩
  | deepen _ hRun ih =>
    cases h' with
    | deepen h' hRun' =>
      obtain ⟨-, rfl⟩ := ih h'
      rw [hRun] at hRun'
      cases hRun'
      exact ⟨rfl, rfl⟩

/-- A search as it starts: the initial states are reached, and they are the frontier. -/
def begun (initial : List S) (s : Session σ (Work S)) : Session σ (Work S) :=
  { s with work := { s.work with image := .ofInitial initial } }

/-- A search that returns has gone through some depths, and only its image says how it ended. -/
theorem exists_deepens (hGoesOn : ∀ s, Ensures s strategy.goesOn (fun _ t => t = s) fun _ => True)
    {i : Image S} (h : (breadthFirst env strategy maxDepth initial).run s = some (.ok i t)) :
    ∃ n interrupted r ending, Deepens env strategy (begun initial s) n interrupted r ∧
      i = (concluded ending r).work.image ∧ t = concluded ending r := by
  have hTurn : ∀ (_ : Unit) r, (∃ k, Deepens env strategy (begun initial s) k false r) →
      Ensures r (turn env strategy maxDepth)
        (fun next t => next.Satisfies (fun _ => ∃ k,
            Deepens env strategy (begun initial s) k false t)
          fun i => ∃ n interrupted r ending,
            Deepens env strategy (begun initial s) n interrupted r ∧
            i = (concluded ending r).work.image ∧ t = concluded ending r) (fun _ => True) := by
    rintro _ r ⟨k, hr⟩
    refine ensures_turn hGoesOn (fun _ => ⟨k, false, r, _, hr, rfl, rfl⟩)
      (fun _ => ⟨k, false, r, _, hr, rfl, rfl⟩) fun _ => ?_
    refine .of_run (fun interrupted t hRun => ?_) fun _ _ _ => trivial
    refine ⟨⟨k + 1, interrupted, t, _, hr.deepen hRun, rfl, rfl⟩, fun hDone => ?_⟩
    subst hDone
    exact ⟨k + 1, hr.deepen hRun⟩
  have hFirst : Ensures s (seed initial)
      (fun _ r => ∃ k, Deepens env strategy (begun initial s) k false r) (fun _ => True) :=
    .modifyWork ⟨0, .start⟩
  exact Exploration.of_run_eq_ok hTurn hFirst h

end StateSpace.Search
