import Mathlib.Data.List.Nodup
import StateSpace.Proofs.Execution
import StateSpace.Proofs.Record.Expr

/-!
# Reading back systems

A system that was assembled declaration by declaration and whose names and constants are portable is
read back from its written form as it was, in every part (`Record.readSystem_ofSystem`). Variables,
parameters, effects and initial values are kept without repetition, so the reader, which declares
them again one after the other, leaves none out; and an initial value is found by name again,
because the first variable of its name is the one it was given to.
-/

namespace StateSpace

/-! ## Systems as they are assembled -/

/-- Labels that arise from an empty one by adding content and setting flags. -/
inductive Label.Assembled : Label → Prop where
  | new (name : String) (xs : List Variable) : Assembled { name, stateVariables := xs }
  | flag {l : Label} (h : l.Assembled) (isError isConstructor : Bool) :
      Assembled { l with isError, isConstructor }
  | precondition {l : Label} (h : l.Assembled) (e : Expr) : Assembled (l.addPrecondition e)
  | parameter {l : Label} (h : l.Assembled) (x : Variable) : Assembled (l.addParameter x)
  | effect {l l' : Label} (h : l.Assembled) (x : Variable) (e : Expr)
      (hSet : l.addEffect? x e = some l') : Assembled l'

/-- Systems that arise from the empty one by declarations. An initial value is given to the variable
found by a name. -/
inductive System.Assembled : System → Prop where
  | empty : Assembled {}
  | declare {s : System} (h : s.Assembled) (x : Variable) : Assembled (s.addVariable x)
  | initialValue {s : System} {x : Variable} (h : s.Assembled) (name : String)
      (hFind : s.findVariable? name = some x) (e : Expr) : Assembled (s.setInitialValue x e)
  | label {s : System} {l : Label} (h : s.Assembled) (hl : l.Assembled) : Assembled (s.addLabel l)

theorem System.Assembled.addVariables {s : System} (h : s.Assembled) (xs : List Variable) :
    (s.addVariables xs).Assembled := by
  induction xs generalizing s with
  | nil => exact h
  | cons x xs ih => exact ih (h.declare x)

/-- A formula for a new variable goes to the end. -/
theorem Formulas.set_of_notMem {x : Variable} {e : Expr} {fs : Formulas}
    (h : x ∉ fs.map Prod.fst) : set x e fs = fs ++ [(x, e)] := by
  induction fs with
  | nil => rfl
  | cons head rest ih =>
    obtain ⟨y, old⟩ := head
    obtain ⟨hy, hRest⟩ := not_or.mp (mt List.mem_cons.mpr h)
    simp [set, Ne.symm hy, ih hRest]

theorem Formulas.nodup_keys_set {x : Variable} {e : Expr} {fs : Formulas}
    (h : (fs.map Prod.fst).Nodup) : ((set x e fs).map Prod.fst).Nodup := by
  by_cases hx : x ∈ fs.map Prod.fst
  · rwa [keys_set hx]
  · rw [set_of_notMem hx, List.map_append]
    simpa using List.Nodup.concat hx h

theorem Formulas.mem_keys_set {x y : Variable} {e : Expr} {fs : Formulas}
    (h : y ∈ (set x e fs).map Prod.fst) : y ∈ fs.map Prod.fst ∨ y = x := by
  by_cases hx : x ∈ fs.map Prod.fst
  · rw [keys_set hx] at h
    exact .inl h
  · rw [set_of_notMem hx] at h
    simpa using h

/-- Parameters and effects stand once each, and effects are on variables of the label. -/
structure Label.Distinct (l : Label) : Prop where
  parameters : l.parameters.Nodup
  effects : (l.effects.map Prod.fst).Nodup
  declared : ∀ x ∈ l.effects.map Prod.fst, x ∈ l.stateVariables

/-- Assembled labels list nothing twice. -/
theorem Label.Assembled.distinct {l : Label} (h : l.Assembled) : l.Distinct := by
  induction h with
  | new name xs => exact ⟨List.nodup_nil, List.nodup_nil, by simp⟩
  | flag _ _ _ ih => exact ⟨ih.parameters, ih.effects, ih.declared⟩
  | precondition _ _ ih => exact ⟨ih.parameters, ih.effects, ih.declared⟩
  | @parameter l _ x ih =>
    unfold Label.addParameter
    split
    · exact ih
    · rename_i hx
      have hNew : x ∉ l.parameters := by simpa using hx
      exact ⟨by simpa using List.Nodup.concat hNew ih.parameters, ih.effects, ih.declared⟩
  | effect _ _ _ hSet ih =>
    -- an effect on a variable that has one already takes its place
    unfold Label.addEffect? at hSet
    split at hSet
    · rename_i hx
      cases hSet
      refine ⟨ih.parameters, Formulas.nodup_keys_set ih.effects, ?_⟩
      intro y hy
      rcases Formulas.mem_keys_set hy with hOld | rfl
      · exact ih.declared y hOld
      · simpa using hx
    · cases hSet

/-- Variables and initial values stand once each, and an initial value is found by its name. -/
structure System.Distinct (s : System) : Prop where
  declared : s.stateVariables.Nodup
  initialValues : (s.initialValues.map Prod.fst).Nodup
  found : ∀ x ∈ s.initialValues.map Prod.fst, s.findVariable? x.name = some x
  labels : ∀ l ∈ s.labels, l.Distinct

/-- The first variable of a name in any letter case is also the first of its own name. -/
theorem System.findVariable?_name {s : System} {name : String} {x : Variable}
    (h : s.findVariable? name = some x) : s.findVariable? x.name = some x := by
  have hx := List.find?_some h
  have hSame : ∀ y : Variable,
      Text.sameIgnoringCase y.name x.name = Text.sameIgnoringCase y.name name := by
    intro y
    unfold Text.sameIgnoringCase at hx ⊢
    rw [eq_of_beq hx]
  unfold findVariable? at h ⊢
  simp only [hSame, h]

theorem System.findVariable?_addVariable {s : System} {name : String} {x y : Variable}
    (h : s.findVariable? name = some x) : (s.addVariable y).findVariable? name = some x := by
  unfold addVariable
  split
  · exact h
  · unfold findVariable? at h ⊢
    rw [List.find?_append, h]
    rfl

/-- Assembled systems list nothing twice. -/
theorem System.Assembled.distinct {s : System} (h : s.Assembled) : s.Distinct := by
  induction h with
  | empty => exact ⟨List.nodup_nil, List.nodup_nil, by simp, by simp⟩
  | @declare s h x ih =>
    have hRest : (s.addVariable x).initialValues = s.initialValues ∧
        (s.addVariable x).labels = s.labels := by
      unfold System.addVariable
      split <;> exact ⟨rfl, rfl⟩
    refine ⟨?_, hRest.1 ▸ ih.initialValues, ?_, hRest.2 ▸ ih.labels⟩
    · unfold System.addVariable
      split
      · exact ih.declared
      · rename_i hx
        have hNew : x ∉ s.stateVariables := by simpa using hx
        simpa using List.Nodup.concat hNew ih.declared
    · -- variables are added at the end, so the first of a name stays the first
      intro y hy
      rw [hRest.1] at hy
      exact System.findVariable?_addVariable (ih.found y hy)
  | initialValue _ _ hFind e ih =>
    refine ⟨ih.declared, Formulas.nodup_keys_set ih.initialValues, ?_, ih.labels⟩
    intro y hy
    rcases Formulas.mem_keys_set hy with hOld | rfl
    · exact ih.found y hOld
    · exact System.findVariable?_name hFind
  | label _ hl ih =>
    refine ⟨ih.declared, ih.initialValues, ih.found, ?_⟩
    intro l hMem
    rcases List.mem_append.mp hMem with hOld | hNew
    · exact ih.labels l hOld
    · rw [List.mem_singleton.mp hNew]
      exact hl.distinct

/-! ## Portable systems -/

/-- All names of the label are plain, and all its expressions portable. -/
structure Label.Portable (l : Label) : Prop where
  name : Record.Plain l.name
  parameters : ∀ x ∈ l.parameters, Record.Plain x.name
  preconditions : ∀ e ∈ l.preconditions, e.Portable
  effects : ∀ entry ∈ l.effects, Record.Plain entry.1.name ∧ entry.2.Portable

/-- All names of the label are plain, and all its expressions legible. -/
structure Label.Legible (l : Label) : Prop where
  name : Record.Plain l.name
  parameters : ∀ x ∈ l.parameters, Record.Plain x.name
  preconditions : ∀ e ∈ l.preconditions, e.Legible
  effects : ∀ entry ∈ l.effects, Record.Plain entry.1.name ∧ entry.2.Legible

/-- All names of the system are plain and all its expressions portable, and every label ranges over
all its variables. -/
structure System.Portable (s : System) : Prop where
  declared : ∀ x ∈ s.stateVariables, Record.Plain x.name
  initialValues : ∀ entry ∈ s.initialValues, Record.Plain entry.1.name ∧ entry.2.Portable
  labels : ∀ l ∈ s.labels, l.Portable ∧ l.stateVariables = s.stateVariables

/-- All names of the system are plain and all its expressions legible, and every label ranges over
all its variables. -/
structure System.Legible (s : System) : Prop where
  declared : ∀ x ∈ s.stateVariables, Record.Plain x.name
  initialValues : ∀ entry ∈ s.initialValues, Record.Plain entry.1.name ∧ entry.2.Legible
  labels : ∀ l ∈ s.labels, l.Legible ∧ l.stateVariables = s.stateVariables

theorem Label.Portable.legible {l : Label} (h : l.Portable) : l.Legible where
  name := h.name
  parameters := h.parameters
  preconditions := fun e he => (h.preconditions e he).legible
  effects := fun entry hEntry => ⟨(h.effects entry hEntry).1, (h.effects entry hEntry).2.legible⟩

theorem System.Portable.legible {s : System} (h : s.Portable) : s.Legible where
  declared := h.declared
  initialValues := fun entry hEntry =>
    ⟨(h.initialValues entry hEntry).1, (h.initialValues entry hEntry).2.legible⟩
  labels := fun l hl => ⟨(h.labels l hl).1.legible, (h.labels l hl).2⟩

namespace Record

variable {α β ι : Type} {line : Nat} {step : Scan α} {a : α} {b : β} {cs cs' rest : List Char}
  {s : System}

/-! ## Lists of items -/

/-- In front of a semicolon, the step takes exactly the text and gives the value. -/
def ReadsBefore (step : Scan α) (cs : List Char) (a : α) : Prop :=
  ∀ rest, step (cs ++ ';' :: rest) = .ok (a, ';' :: rest)

theorem ReadsBefore.bind {k : α → Scan β} (h : ReadsBefore step cs a)
    (hk : Reads (k a) (';' :: cs') b) : Reads (step >>= k) (cs ++ ';' :: cs') b := by
  intro rest
  rw [List.append_assoc]
  show (step (cs ++ ';' :: (cs' ++ rest))).bind (fun p => k p.1 p.2) = _
  rw [h]
  exact hk rest

/-- In front of a semicolon, the step reads the text if the condition holds, and it refuses the text
otherwise. -/
structure ReadsBeforeIf (c : Prop) (step : Scan α) (cs : List Char) (a : α) : Prop where
  reads : c → ReadsBefore step cs a
  refuses : ¬c → Refuses step cs

theorem ReadsBefore.refuses {k : α → Scan β} (h : ReadsBefore step cs a)
    (hk : Refuses (k a) (';' :: cs')) : Refuses (step >>= k) (cs ++ ';' :: cs') := by
  intro rest
  obtain ⟨failure, hRun⟩ := hk rest
  refine ⟨failure, ?_⟩
  rw [List.append_assoc]
  show (step (cs ++ ';' :: (cs' ++ rest))).bind (fun p => k p.1 p.2) = _
  rw [h]
  exact hRun

/-- The sequence rule for what stands in front of a semicolon. -/
theorem ReadsBeforeIf.bind {c d : Prop} {k : α → Scan β} (h : ReadsBeforeIf c step cs a)
    (hk : ReadsIf d (k a) (';' :: cs') b) : ReadsIf (c ∧ d) (step >>= k) (cs ++ ';' :: cs') b := by
  constructor
  · intro hBoth
    exact (h.reads hBoth.1).bind (hk.reads hBoth.2)
  · intro hNot
    by_cases hc : c
    · exact (h.reads hc).refuses (hk.refuses fun hd => hNot ⟨hc, hd⟩)
    · exact (h.refuses hc).bind _

theorem ReadsBeforeIf.bindReads {c : Prop} {k : α → Scan β} (h : ReadsBeforeIf c step cs a)
    (hk : Reads (k a) (';' :: cs') b) : ReadsIf c (step >>= k) (cs ++ ';' :: cs') b :=
  ⟨fun hc => (h.reads hc).bind hk, fun hNot => (h.refuses hNot).bind _⟩

theorem ReadsBefore.bindIf {c : Prop} {k : α → Scan β} (h : ReadsBefore step cs a)
    (hk : ReadsIf c (k a) (';' :: cs') b) : ReadsIf c (step >>= k) (cs ++ ';' :: cs') b :=
  ⟨fun hc => h.bind (hk.reads hc), fun hNot => h.refuses (hk.refuses hNot)⟩

/-- What does not start with a semicolon is read as one more item. -/
theorem items_succ {item : α → Scan α} {acc : α} {bound : Nat} {c : Char} (hc : c ≠ ';') :
    items item (bound + 1) acc (c :: cs) = (item acc >>= items item bound) (c :: cs) := by
  have hHead : ((c :: cs).head? == some ';') = false := by simpa using hc
  show (if ((c :: cs).head? == some ';') = true then pure acc
    else item acc >>= items item bound : Scan α) (c :: cs) = _
  rw [hHead]
  rfl

/-- Items are read one after the other, where each adds its entry to what was read before it, up to
the first that is refused. -/
theorem readsBeforeIf_items {item : α → Scan α} {state : List ι → α} {write : ι → List Char}
    {good : ι → Prop} {entries : List ι}
    (hStart : ∀ i ∈ entries, ∃ c cs, write i = c :: cs ∧ c ≠ ';')
    (hItem : ∀ done i todo, entries = done ++ i :: todo →
      ReadsIf (good i) (item (state done)) (write i) (state (done ++ [i])))
    {done todo : List ι} (hEntries : entries = done ++ todo) {bound : Nat}
    (hBound : todo.length ≤ bound) :
    ReadsBeforeIf (∀ i ∈ todo, good i) (items item bound (state done)) (todo.flatMap write)
      (state entries) := by
  -- on what is still to be read; what was read already is in the accumulator
  induction todo generalizing done bound with
  | nil =>
    rw [List.append_nil] at hEntries
    subst hEntries
    refine ⟨fun _ rest => ?_, fun hNot => absurd (by simp) hNot⟩
    cases bound <;> rfl
  | cons i todo ih =>
    cases bound with
    | zero => cases hBound
    | succ bound =>
      obtain ⟨c, cs, hWrite, hc⟩ := hStart i (by simp [hEntries])
      have hRead := hItem done i todo hEntries
      have hRest : ReadsBeforeIf (∀ j ∈ todo, good j) (items item bound (state (done ++ [i])))
          (todo.flatMap write) (state entries) := ih (by simp [hEntries]) (by simpa using hBound)
      have hSucc : ∀ rest, items item (bound + 1) (state done) (write i ++ rest) =
          (item (state done) >>= items item bound) (write i ++ rest) := by
        intro rest
        rw [hWrite]
        exact items_succ hc
      rw [List.flatMap_cons]
      constructor
      · intro hGood rest
        obtain ⟨hi, hTodo⟩ := List.forall_mem_cons.mp hGood
        rw [List.append_assoc, hSucc]
        show (item (state done) (write i ++ (todo.flatMap write ++ ';' :: rest))).bind _ = _
        rw [hRead.reads hi]
        exact hRest.reads hTodo rest
      · intro hBad rest
        rw [List.append_assoc, hSucc, ← List.append_assoc]
        by_cases hi : good i
        · have hTodo : ¬∀ j ∈ todo, good j := fun hAll => hBad (List.forall_mem_cons.mpr ⟨hi, hAll⟩)
          exact (hRead.reads hi).refuses (hRest.refuses hTodo) rest
        · exact (hRead.refuses hi).bind _ rest

/-- Every entry takes at least one character. -/
theorem length_le_flatMap {write : ι → List Char} {entries : List ι}
    (h : ∀ i ∈ entries, ∃ c cs, write i = c :: cs ∧ c ≠ ';') :
    entries.length ≤ (entries.flatMap write).length := by
  induction entries with
  | nil => exact Nat.le_refl 0
  | cons i entries ih =>
    obtain ⟨c, cs, hWrite, -⟩ := h i List.mem_cons_self
    have hRest := ih fun j hj => h j (List.mem_cons_of_mem i hj)
    simp only [List.flatMap_cons, hWrite, List.length_append, List.length_cons]
    omega

/-- Items are read one after the other, until the first one that is refused. -/
theorem readsBeforeIf_allItems {item : α → Scan α} (state : List ι → α) {write : ι → List Char}
    (good : ι → Prop) {entries : List ι}
    (hStart : ∀ i ∈ entries, ∃ c cs, write i = c :: cs ∧ c ≠ ';')
    (hItem : ∀ done i todo, entries = done ++ i :: todo →
      ReadsIf (good i) (item (state done)) (write i) (state (done ++ [i]))) :
    ReadsBeforeIf (∀ i ∈ entries, good i) (allItems item (state [])) (entries.flatMap write)
      (state entries) := by
  have hLength := length_le_flatMap hStart
  have hItems : ∀ rest : List Char, ReadsBeforeIf (∀ i ∈ entries, good i)
      (items item (entries.flatMap write ++ rest).length (state [])) (entries.flatMap write)
      (state entries) := by
    intro rest
    refine readsBeforeIf_items hStart hItem (List.nil_append entries).symm ?_
    simp only [List.length_append]
    omega
  exact ⟨fun hGood rest => (hItems _).reads hGood rest, fun hBad rest =>
    (hItems _).refuses hBad rest⟩

/-! ## Labels -/

theorem toList_join_map (write : ι → String) (entries : List ι) :
    (String.join (entries.map write)).toList = entries.flatMap fun i => (write i).toList := by
  simp [List.flatMap_def]
  rfl

theorem exists_toList_ofVariable (x : Variable) :
    ∃ c cs, (ofVariable x).toList = c :: cs ∧ c ≠ ';' :=
  ⟨'v', _, toList_ofVariable x, by decide⟩

/-- In a list without repetition, no entry stands before itself. -/
theorem notMem_of_nodup_append {done todo : List α} (h : (done ++ a :: todo).Nodup) : a ∉ done :=
  fun hMem => (List.nodup_append.mp h).2.2 a hMem a List.mem_cons_self rfl

/-- Reading back parameters. -/
theorem readsBefore_parameters (l : Label) {xs : List Variable}
    (hPlain : ∀ x ∈ xs, Plain x.name) (hxs : xs.Nodup) :
    ReadsBefore (allItems (parameter line) { l with parameters := [] }) (ofVariables xs).toList
      { l with parameters := xs } := by
  rw [ofVariables, toList_join_map]
  refine (readsBeforeIf_allItems (fun done => { l with parameters := done }) (fun _ => True)
    (fun x _ => exists_toList_ofVariable x) ?_).reads fun _ _ => trivial
  intro done x todo heq
  have hNew : x ∉ done := notMem_of_nodup_append (heq ▸ hxs)
  have hAdd : ({ l with parameters := done } : Label).addParameter x =
      { l with parameters := done ++ [x] } := by
    simp [Label.addParameter, hNew]
  rw [← hAdd]
  exact Reads.readsIf ((reads_variableToken (hPlain x (by simp [heq]))).map _) trivial

/-- Reading back preconditions. -/
theorem readsBeforeIf_preconditions (l : Label) {es : List Expr} (hes : ∀ e ∈ es, e.Legible) :
    ReadsBeforeIf (∀ e ∈ es, e.Portable)
      (allItems (precondition line) { l with preconditions := [] })
      (String.join (es.map ofExpr)).toList { l with preconditions := es } := by
  rw [toList_join_map]
  refine readsBeforeIf_allItems (fun done => { l with preconditions := done }) Expr.Portable ?_ ?_
  · intro e _
    obtain ⟨c, cs, hText, hc⟩ := exists_toList_ofExpr e
    exact ⟨c, _, hText, hc⟩
  · intro done e todo heq
    exact (readsIf_expr (hes e (by simp [heq]))).map
      (Label.addPrecondition { l with preconditions := done })

/-- Reading back an effect. -/
theorem readsIf_effect {l l' : Label} {x : Variable} {e : Expr} (hx : Plain x.name) (he : e.Legible)
    (hSet : l.addEffect? x e = some l') :
    ReadsIf e.Portable (effect line l) (ofEffect x e).toList l' := by
  have hText : (ofEffect x e).toList =
      "e:".toList ++ ((ofVariable x).toList ++ ((ofExpr e).toList ++ (";".toList ++ []))) := by
    simp [ofEffect]
  rw [hText]
  refine (reads_expect "e:").bindIf ((reads_variableToken hx).bindIf
    ((readsIf_expr he).bindReads ((reads_expect ";").bind ?_)))
  rw [hSet]
  exact reads_pure l'

/-- Reading back effects. -/
theorem readsBeforeIf_effects (l : Label) {fs : Formulas}
    (hfs : ∀ entry ∈ fs, Plain entry.1.name ∧ entry.2.Legible) (hKeys : (fs.map Prod.fst).Nodup)
    (hDeclared : ∀ x ∈ fs.map Prod.fst, x ∈ l.stateVariables) :
    ReadsBeforeIf (∀ entry ∈ fs, entry.2.Portable) (allItems (effect line) { l with effects := [] })
      (String.join (fs.map fun entry => ofEffect entry.1 entry.2)).toList
      { l with effects := fs } := by
  rw [toList_join_map]
  refine readsBeforeIf_allItems (fun done => { l with effects := done })
    (fun entry => entry.2.Portable) ?_ ?_
  · intro entry _
    exact ⟨'e', _, by simp [ofEffect]; rfl, by decide⟩
  · intro done entry todo heq
    have hEntry : entry ∈ fs := by simp [heq]
    have hNew : entry.1 ∉ done.map Prod.fst := by
      rw [heq, List.map_append, List.map_cons] at hKeys
      exact notMem_of_nodup_append hKeys
    refine readsIf_effect (hfs entry hEntry).1 (hfs entry hEntry).2 ?_
    have hMem : entry.1 ∈ l.stateVariables := hDeclared _ (List.mem_map_of_mem hEntry)
    simp [Label.addEffect?, hMem, Formulas.set_of_notMem hNew]

theorem kindOfName?_kindName (isConstructor isError : Bool) :
    kindOfName? (kindName isConstructor isError) = some (isConstructor, isError) := by
  cases isConstructor <;> cases isError <;> rfl

/-- The record of a label behind its tag. -/
def labelBody (l : Label) : List Char :=
  l.name.toList ++ [':'] ++ ((kindName l.isConstructor l.isError).toList ++ [';'] ++
    ("P:".toList ++ ((ofVariables l.parameters).toList ++ ';' ::
      ("G:".toList ++ ((String.join (l.preconditions.map ofExpr)).toList ++ ';' ::
        ("F:".toList ++
          ((String.join (l.effects.map fun entry => ofEffect entry.1 entry.2)).toList ++
            ';' :: [])))))))

theorem toList_ofLabel (l : Label) : (ofLabel l).toList = ['L', ':'] ++ labelBody l := by
  simp [ofLabel, labelBody]

/-- The record of a legible label is read if its expressions are portable. -/
theorem readsIf_label {l : Label} (hLegible : l.Legible) (hDistinct : l.Distinct)
    (hVars : l.stateVariables = s.stateVariables) :
    ReadsIf ((∀ e ∈ l.preconditions, e.Portable) ∧ ∀ entry ∈ l.effects, entry.2.Portable)
      (label line s) (labelBody l) l := by
  have hKind : ';' ∉ (kindName l.isConstructor l.isError).toList := by
    cases l.isConstructor <;> cases l.isError <;> decide
  have hBase : ({ s.newLabel l.name with isConstructor := l.isConstructor, isError := l.isError }
      : Label) = { l with parameters := [], preconditions := [], effects := [] } := by
    simp [System.newLabel, hVars]
  refine (reads_upTo hLegible.name.1).bindIf ((reads_upTo hKind).bindIf ?_)
  rw [kindOfName?_kindName]
  simp only [hBase]
  refine (reads_expect "P:").bindIf ((readsBefore_parameters
    { l with preconditions := [], effects := [] } hLegible.parameters hDistinct.parameters).bindIf
      ?_)
  refine (reads_expect ";G:").bindIf ((readsBeforeIf_preconditions { l with effects := [] }
    hLegible.preconditions).bind ?_)
  refine (reads_expect ";F:").bindIf ((readsBeforeIf_effects l hLegible.effects hDistinct.effects
    hDistinct.declared).bindReads ?_)
  exact (reads_expect ";").map fun _ => l

theorem reads_label {l : Label} (hPortable : l.Portable) (hDistinct : l.Distinct)
    (hVars : l.stateVariables = s.stateVariables) : Reads (label line s) (labelBody l) l :=
  (readsIf_label hPortable.legible hDistinct hVars).reads
    ⟨hPortable.preconditions, fun entry hEntry => (hPortable.effects entry hEntry).2⟩

/-! ## Records -/

/-- The step takes exactly the text, with nothing behind it, and gives the value. -/
theorem Reads.bind_end {k : α → Scan β} (h : Reads step cs a) (hk : k a cs' = .ok (b, [])) :
    (step >>= k) (cs ++ cs') = .ok (b, []) := by
  show (step (cs ++ cs')).bind (fun p => k p.1 p.2) = _
  rw [h]
  exact hk

/-- Reading back declarations. -/
theorem declarations_eq {xs : List Variable} (h : ∀ x ∈ xs, Plain x.name) {bound : Nat}
    (hBound : xs.length ≤ bound) :
    declarations line bound (ofVariables xs).toList = .ok (xs, []) := by
  induction xs generalizing bound with
  | nil => cases bound <;> rfl
  | cons x xs ih =>
    cases bound with
    | zero => cases hBound
    | succ bound =>
      have hRest := ih (fun y hy => h y (List.mem_cons_of_mem x hy)) (by simpa using hBound)
      have hx : Reads (variableToken line) (ofVariable x).toList x :=
        reads_variableToken (h x List.mem_cons_self)
      have hSome : (ofVariables (x :: xs)).toList.isEmpty = false := by
        simp [toList_ofVariables_cons, toList_ofVariable]
      show (if (ofVariables (x :: xs)).toList.isEmpty = true then pure []
        else do
          let x ← variableToken line
          let xs ← declarations line bound
          return x :: xs : Scan (List Variable)) _ = _
      rw [hSome, toList_ofVariables_cons]
      refine hx.bind_end ?_
      show (declarations line bound _).bind _ = _
      rw [hRest]
      rfl

/-- Declaring new variables puts them behind the others. -/
theorem addVariables_eq {xs : List Variable} (h : (s.stateVariables ++ xs).Nodup) :
    s.addVariables xs = { s with stateVariables := s.stateVariables ++ xs } := by
  induction xs generalizing s with
  | nil => simp [System.addVariables]
  | cons x xs ih =>
    have hAdd : s.addVariable x = { s with stateVariables := s.stateVariables ++ [x] } := by
      simp [System.addVariable, notMem_of_nodup_append h]
    have hRest := ih (s := s.addVariable x) (by simpa [hAdd] using h)
    rw [System.addVariables, List.foldl_cons, ← System.addVariables, hRest, hAdd]
    simp

/-- Reading back the record of the variables. -/
theorem record_variables {xs : List Variable} (h : ∀ x ∈ xs, Plain x.name) (hxs : xs.Nodup) :
    record line {} ("D:" ++ ofVariables xs).toList = .ok ({ stateVariables := xs }, []) := by
  have hText : ("D:" ++ ofVariables xs).toList = ['D', ':'] ++ (ofVariables xs).toList := by simp
  have hLength : xs.length ≤ (ofVariables xs).toList.length := by
    rw [ofVariables, toList_join_map]
    exact length_le_flatMap fun x _ => exists_toList_ofVariable x
  rw [hText]
  refine (reads_tag 'D').bind_end ?_
  show (declarations line _ _).bind _ = _
  rw [declarations_eq h hLength]
  show Except.ok (System.addVariables {} xs, []) = _
  rw [addVariables_eq (by simpa using hxs)]
  rfl

theorem record_initialValue {x : Variable} {e : Expr} (hx : Plain x.name) (he : e.Portable)
    (hFind : s.findVariable? x.name = some x) :
    record line s ("I:" ++ ofVariable x ++ ofExpr e).toList = .ok (s.setInitialValue x e, []) := by
  have hText : ("I:" ++ ofVariable x ++ ofExpr e).toList =
      ['I', ':'] ++ ((ofVariable x).toList ++ ((ofExpr e).toList ++ [])) := by simp
  rw [hText]
  refine (reads_tag 'I').bind_end ((reads_variableToken hx).bind_end ((reads_expr he).bind_end ?_))
  rw [hFind]
  rfl

theorem record_label {l : Label} (hPortable : l.Portable) (hDistinct : l.Distinct)
    (hVars : l.stateVariables = s.stateVariables) :
    record line s (ofLabel l).toList = .ok (s.addLabel l, []) := by
  have hText : (ofLabel l).toList = ['L', ':'] ++ (labelBody l ++ []) := by
    rw [toList_ofLabel, List.append_nil]
  rw [hText]
  exact (reads_tag 'L').bind_end ((reads_label hPortable hDistinct hVars).bind_end rfl)

/-! ## Lines -/

/-- Reading the lines one after the other takes the first system to the second, whatever the numbers
of the lines are. -/
inductive ReadsLines : System → List (List Char) → System → Prop where
  | nil (s : System) : ReadsLines s [] s
  | cons {s s' s'' : System} {cs : List Char} {rest : List (List Char)}
      (hLine : ∀ line, readLine s line cs = .ok s') (hRest : ReadsLines s' rest s'') :
      ReadsLines s (cs :: rest) s''

theorem ReadsLines.append {s s' s'' : System} {front back : List (List Char)}
    (h : ReadsLines s front s') (hBack : ReadsLines s' back s'') :
    ReadsLines s (front ++ back) s'' := by
  induction h with
  | nil _ => exact hBack
  | cons hLine _ ih => exact .cons hLine (ih hBack)

/-- Lines that each add an entry to what was read before. -/
theorem readsLines_map (state : List ι → System) {write : ι → List Char} {entries : List ι}
    (hEntry : ∀ done i todo, entries = done ++ i :: todo →
      ∀ line, readLine (state done) line (write i) = .ok (state (done ++ [i])))
    {done todo : List ι} (hEntries : entries = done ++ todo) :
    ReadsLines (state done) (todo.map write) (state entries) := by
  induction todo generalizing done with
  | nil =>
    rw [List.append_nil] at hEntries
    exact hEntries ▸ .nil _
  | cons i todo ih =>
    exact .cons (hEntry done i todo hEntries) (ih (by simp [hEntries]))

/-- A text is read line by line. -/
theorem ReadsLines.readSystem_eq {text : String} {s : System}
    (h : ReadsLines {} (Text.lines text) s) : readSystem text = .ok s := by
  have hFold : ∀ {s s' : System} {cs : List (List Char)}, ReadsLines s cs s' → ∀ k,
      ((cs.zipIdx k).map fun entry => (entry.2, entry.1)).foldlM
        (fun s entry => readLine s entry.1 entry.2) s = .ok s' := by
    intro s s' cs h
    induction h with
    | nil s => exact fun _ => rfl
    | cons hLine _ ih =>
      intro k
      rw [List.zipIdx_cons, List.map_cons, List.foldlM_cons, hLine]
      exact ih (k + 1)
  exact hFold h 1

/-- Lines without line feeds inside, each ended by one, are read as they were written. -/
theorem lines_join {text : String} {rs : List (List Char)}
    (hText : text.toList = rs.flatMap (· ++ ['\n']))
    (hrs : ∀ cs ∈ rs, '\n' ∉ cs ∧ Text.EndsVisibly cs) : Text.lines text = rs := by
  rw [Text.lines, hText]
  clear hText
  induction rs with
  | nil => rfl
  | cons cs rs ih =>
    obtain ⟨hFeed, hEnd⟩ := hrs cs List.mem_cons_self
    have hText : (cs :: rs).flatMap (· ++ ['\n']) = cs ++ '\n' :: rs.flatMap (· ++ ['\n']) := by
      simp
    rw [hText, Text.linesFrom_line hFeed hEnd, ih fun r hr => hrs r (List.mem_cons_of_mem cs hr)]

/-- A line that ends visibly is read as its record. -/
theorem readLine_eq {s' : System} (hEnd : Text.EndsVisibly cs)
    (h : record line s cs = .ok (s', [])) : readLine s line cs = .ok s' := by
  have hne : cs ≠ [] := by
    obtain ⟨front, last, rfl, -⟩ := hEnd
    simp
  unfold readLine
  rw [hEnd.trimEnd_eq]
  split
  · contradiction
  · show (record line s cs).map Prod.fst = _
    rw [h]
    rfl

/-! ## Systems -/

/-- The lines of a written system. -/
def linesOf (s : System) : List (List Char) :=
  [("D:" ++ ofVariables s.stateVariables).toList] ++
    (s.initialValues.map fun entry => ("I:" ++ ofVariable entry.1 ++ ofExpr entry.2).toList) ++
    s.labels.map fun l => (ofLabel l).toList

/-- The text of a system is its lines, each with a line feed. -/
theorem toList_ofSystem (s : System) :
    (ofSystem s).toList = (linesOf s).flatMap (· ++ ['\n']) := by
  have hInitial : (String.join (s.initialValues.map fun entry =>
      "I:" ++ ofVariable entry.1 ++ ofExpr entry.2 ++ "\n")).toList =
      (s.initialValues.map fun entry =>
        ("I:" ++ ofVariable entry.1 ++ ofExpr entry.2).toList).flatMap (· ++ ['\n']) := by
    rw [toList_join_map, List.flatMap_map]
    simp
  have hLabels : (String.join (s.labels.map fun l => ofLabel l ++ "\n")).toList =
      (s.labels.map fun l => (ofLabel l).toList).flatMap (· ++ ['\n']) := by
    rw [toList_join_map, List.flatMap_map]
    simp
  rw [linesOf, List.flatMap_append, List.flatMap_append, ← hInitial, ← hLabels]
  simp [ofSystem]

/-- The record of a label is on one line. -/
theorem lineFeed_notMem_labelBody {l : Label} (h : l.Legible) : '\n' ∉ labelBody l := by
  have hKind : '\n' ∉ (kindName l.isConstructor l.isError).toList := by
    cases l.isConstructor <;> cases l.isError <;> decide
  have hEffect : ∀ x e, (x, e) ∈ l.effects → '\n' ∉ (ofEffect x e).toList := by
    intro x e hEntry
    obtain ⟨hx, he⟩ := h.effects (x, e) hEntry
    simp [ofEffect, lineFeed_notMem_ofVariable hx, lineFeed_notMem_ofExpr he]
  have hPrecondition : ∀ e ∈ l.preconditions, '\n' ∉ (ofExpr e).toList :=
    fun e he => lineFeed_notMem_ofExpr (h.preconditions e he)
  simp [labelBody, h.name.2, hKind, lineFeed_notMem_ofVariables h.parameters]
  exact ⟨hPrecondition, hEffect⟩

theorem endsVisibly_declarations (xs : List Variable) :
    Text.EndsVisibly ("D:" ++ ofVariables xs).toList := by
  rcases xs.eq_nil_or_concat with rfl | ⟨front, x, rfl⟩
  · exact ⟨['D'], ':', rfl, by decide⟩
  · have hText : ("D:" ++ ofVariables (front.concat x)).toList =
        ("D:" ++ ofVariables front).toList ++ (ofVariable x).toList := by
      simp [ofVariables]
    rw [hText]
    exact (endsVisibly_ofVariable x).append _

theorem endsVisibly_initialValue (x : Variable) (e : Expr) :
    Text.EndsVisibly ("I:" ++ ofVariable x ++ ofExpr e).toList := by
  rw [String.toList_append]
  exact (endsVisibly_ofExpr e).append _

theorem endsVisibly_ofLabel (l : Label) : Text.EndsVisibly (ofLabel l).toList :=
  ⟨_, ';', String.toList_append .., by decide⟩

/-- A written system has one line for its variables, one for each initial value and one for each
label. -/
theorem lines_ofLegible (h : s.Legible) : Text.lines (ofSystem s) = linesOf s := by
  refine lines_join (toList_ofSystem s) ?_
  intro cs hcs
  simp only [linesOf, List.mem_append, List.mem_singleton, List.mem_map] at hcs
  rcases hcs with (rfl | ⟨entry, hEntry, rfl⟩) | ⟨l, hl, rfl⟩
  · exact ⟨by simp [lineFeed_notMem_ofVariables h.declared], endsVisibly_declarations _⟩
  · obtain ⟨hx, he⟩ := h.initialValues entry hEntry
    exact ⟨by simp [lineFeed_notMem_ofVariable hx, lineFeed_notMem_ofExpr he],
      endsVisibly_initialValue _ _⟩
  · exact ⟨by simp [toList_ofLabel, lineFeed_notMem_labelBody (h.labels l hl).1],
      endsVisibly_ofLabel l⟩

theorem lines_ofSystem (h : s.Portable) : Text.lines (ofSystem s) = linesOf s :=
  lines_ofLegible h.legible

/-- The line of an initial value sets it, where the ones before it are set already. -/
theorem readLine_initialValue (hDistinct : s.Distinct) {done todo : Formulas}
    {entry : Variable × Expr} (heq : s.initialValues = done ++ entry :: todo)
    (hx : Plain entry.1.name) (he : entry.2.Portable) (line : Nat) :
    readLine { stateVariables := s.stateVariables, initialValues := done } line
      ("I:" ++ ofVariable entry.1 ++ ofExpr entry.2).toList =
      .ok { stateVariables := s.stateVariables, initialValues := done ++ [entry] } := by
  have hEntry : entry ∈ s.initialValues := by simp [heq]
  have hNew : entry.1 ∉ done.map Prod.fst := by
    have hKeys := hDistinct.initialValues
    rw [heq, List.map_append, List.map_cons] at hKeys
    exact notMem_of_nodup_append hKeys
  have hFind := hDistinct.found entry.1 (List.mem_map_of_mem hEntry)
  rw [← Formulas.set_of_notMem hNew]
  exact readLine_eq (endsVisibly_initialValue _ _) (record_initialValue hx he hFind)

/-- Reading back the records of the initial values. -/
theorem readsLines_initialValues (hDistinct : s.Distinct)
    (hPortable : ∀ entry ∈ s.initialValues, Plain entry.1.name ∧ entry.2.Portable) :
    ReadsLines { stateVariables := s.stateVariables }
      (s.initialValues.map fun entry => ("I:" ++ ofVariable entry.1 ++ ofExpr entry.2).toList)
      { stateVariables := s.stateVariables, initialValues := s.initialValues } := by
  refine readsLines_map
    (fun done => { stateVariables := s.stateVariables, initialValues := done }) ?_
    (List.nil_append _).symm
  intro done entry todo heq line
  obtain ⟨hx, he⟩ := hPortable entry (by simp [heq])
  exact readLine_initialValue hDistinct heq hx he line

/-- The line of a label adds it to the labels read before. -/
theorem readLine_label (hDistinct : s.Distinct) {l : Label} (hl : l ∈ s.labels)
    (hPortable : l.Portable) (hVars : l.stateVariables = s.stateVariables) (done : List Label)
    (line : Nat) :
    readLine { s with labels := done } line (ofLabel l).toList =
      .ok { s with labels := done ++ [l] } :=
  readLine_eq (endsVisibly_ofLabel l) (record_label hPortable (hDistinct.labels l hl) hVars)

/-- Reading back the records of the labels. -/
theorem readsLines_labels (hDistinct : s.Distinct) (hPortable : s.Portable) :
    ReadsLines { stateVariables := s.stateVariables, initialValues := s.initialValues }
      (s.labels.map fun l => (ofLabel l).toList) s := by
  refine readsLines_map (fun done => { s with labels := done }) ?_ (List.nil_append _).symm
  intro done l todo heq line
  have hl : l ∈ s.labels := by simp [heq]
  obtain ⟨hPlain, hVars⟩ := hPortable.labels l hl
  exact readLine_label hDistinct hl hPlain hVars done line

theorem readsLines_declarations (hDistinct : s.Distinct)
    (hPlain : ∀ x ∈ s.stateVariables, Plain x.name) :
    ReadsLines {} [("D:" ++ ofVariables s.stateVariables).toList]
      { stateVariables := s.stateVariables } :=
  .cons (fun _ => readLine_eq (endsVisibly_declarations _)
    (record_variables hPlain hDistinct.declared)) (.nil _)

/-- Reading the lines of a written system declares everything again, in the same order. -/
theorem readsLines_linesOf (hDistinct : s.Distinct) (hPortable : s.Portable) :
    ReadsLines {} (linesOf s) s := by
  have hDeclared := readsLines_declarations hDistinct hPortable.declared
  have hInitial := readsLines_initialValues hDistinct hPortable.initialValues
  exact (hDeclared.append hInitial).append (readsLines_labels hDistinct hPortable)

/-- **Round trip.** A portable system is read back from its written form as it was, and a portable
expression is read back from its written form in front of any characters, which are left. -/
theorem readSystem_ofSystem :
    (∀ s : System, s.Assembled → s.Portable → readSystem (ofSystem s) = .ok s) ∧
      ∀ e : Expr, e.Portable → ∀ (line : Nat) (suffix : List Char),
        (expr line).run ((ofExpr e).toList ++ suffix) = .ok (e, suffix) := by
  constructor
  · intro s hs hPortable
    refine ReadsLines.readSystem_eq ?_
    rw [lines_ofSystem hPortable]
    exact readsLines_linesOf hs.distinct hPortable
  · intro e he line suffix
    exact reads_expr he suffix

/-- The variables of a meter. -/
def meterVariables : List Variable :=
  [⟨"level", .signed .w8⟩, ⟨"total; sum", .unsigned .w64⟩, ⟨"rate", .real .double⟩]

/-- A quantified formula over a parameter. -/
def meterHeld : Expr :=
  .quantified .existential [⟨"b", .bool⟩, ⟨"c d", .signed .w8⟩]
    (.logical .implies (.not (.var ⟨"b", .bool⟩)) (.var ⟨"hold", .bool⟩))

/-- The level falls by the greatest step. -/
def meterStep : Expr :=
  .compare .eq (.var (Variable.primed ⟨"level", .signed .w8⟩))
    (.arith .add (.var ⟨"level", .signed .w8⟩) (.const (.int (-128) (.signed .w8))))

/-- A meter whose names hold blanks and semicolons and whose total starts at the greatest number of
its type. -/
def meterSystem : System where
  stateVariables := meterVariables
  initialValues := [
    (⟨"total; sum", .unsigned .w64⟩, .equal (.var ⟨"total; sum", .unsigned .w64⟩)
      (.const (.int 18446744073709551615 (.unsigned .w64)))),
    (⟨"rate", .real .double⟩, .equal (.var ⟨"rate", .real .double⟩)
      (.const (.real "-1.5e3" (.real .double))))]
  labels := [
    { name := "fall; fast"
      stateVariables := meterVariables
      parameters := [⟨"hold", .bool⟩]
      preconditions := [meterHeld]
      effects := [(⟨"level", .signed .w8⟩, meterStep)] },
    { name := "fail", stateVariables := meterVariables, isError := true, isConstructor := true }]

theorem assembled_meterSystem : meterSystem.Assembled := by
  have hFall : Label.Assembled _ :=
    (((Label.Assembled.new "fall; fast" meterVariables).parameter ⟨"hold", .bool⟩).precondition
      meterHeld).effect ⟨"level", .signed .w8⟩ meterStep rfl
  have hFail := (Label.Assembled.new "fail" meterVariables).flag true true
  have hVariables := System.Assembled.empty.addVariables meterVariables
  -- The variables of the initial values are found in any letter case.
  exact (((hVariables.initialValue "Total; SUM" rfl _).initialValue "RATE" rfl _).label hFall).label
    hFail

theorem portable_meterSystem : meterSystem.Portable where
  declared := by decide +kernel
  initialValues := by decide +kernel
  labels := by
    intro l hl
    rcases List.mem_cons.mp hl with rfl | hl
    · exact ⟨⟨by decide, by decide, by decide, by decide⟩, rfl⟩
    · rcases List.mem_singleton.mp hl with rfl
      exact ⟨⟨by decide, by decide, by decide, by decide⟩, rfl⟩

/-- The meter is read back, and so is its quantified formula in front of another record's text. -/
theorem readSystem_ofSystem_meterSystem :
    readSystem (ofSystem meterSystem) = .ok meterSystem ∧
      (expr 1).run ((ofExpr meterHeld).toList ++ ";F:;".toList) = .ok (meterHeld, ";F:;".toList) :=
  ⟨readSystem_ofSystem.1 meterSystem assembled_meterSystem portable_meterSystem,
    readSystem_ofSystem.2 meterHeld (by decide) 1 ";F:;".toList⟩

end Record

end StateSpace
