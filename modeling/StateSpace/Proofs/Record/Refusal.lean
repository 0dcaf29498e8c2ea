import StateSpace.Proofs.Record.Normalisation

/-!
# Written systems that are refused

The reader accepts a real constant only if its text is a numeral. A system whose names are plain and
whose constants are legible is therefore read back exactly if its real constants are numerals
(`Record.readSystem_ofSystem_iff`): all in front of the first constant that is none is read as it
was written, and there the reader stops.
-/

namespace StateSpace

/-! ## Constants -/

/-- Reals are numerals. -/
def Value.Numeric : Value → Prop
  | .real text _ => Text.isReal text.toList = true
  | .bool _ | .int _ _ => True

instance Value.decidableNumeric : (v : Value) → Decidable v.Numeric
  | .real text _ => inferInstanceAs (Decidable (Text.isReal text.toList = true))
  | .bool _ | .int _ _ => isTrue trivial

/-- The constants of an expression. -/
def Expr.constants : Expr → List Value
  | .const v => [v]
  | .var _ => []
  | .not e | .negate e | .complement e | .cast _ e => e.constants
  | .logical _ l r | .compare _ l r | .arith _ l r | .bitwise _ l r => l.constants ++ r.constants
  | .quantified _ _ body => body.constants

/-- The expressions of a label. -/
def Label.expressions (l : Label) : List Expr :=
  l.preconditions ++ l.effects.map Prod.snd

namespace System

/-- The expressions of a system. -/
def expressions (s : System) : List Expr :=
  s.initialValues.map Prod.snd ++ s.labels.flatMap Label.expressions

/-- The constants of a system. -/
def constants (s : System) : List Value :=
  s.expressions.flatMap Expr.constants

end System

theorem Value.Legible.portable_iff {v : Value} (h : v.Legible) : v.Portable ↔ v.Numeric := by
  match v, h with
  | .bool _, _ => exact Iff.rfl
  | .int _ _, h => exact iff_of_true h trivial
  | .real _ _, h => exact ⟨fun hp => hp.2.2, fun hn => ⟨h.1, Text.trim_of_isReal hn, hn⟩⟩

/-- A legible expression is portable if its real constants are numerals. -/
theorem Expr.Legible.portable_iff {e : Expr} (h : e.Legible) :
    e.Portable ↔ ∀ v ∈ e.constants, v.Numeric := by
  induction e with
  | const v => simpa [Portable, constants] using Value.Legible.portable_iff h
  | var x => exact iff_of_true h (by simp [constants])
  | not e ih | negate e ih | complement e ih | cast t e ih => exact ih h
  | logical op l r ihl ihr | compare op l r ihl ihr | arith op l r ihl ihr
  | bitwise op l r ihl ihr =>
    simp only [Portable, constants, List.forall_mem_append, ihl h.1, ihr h.2]
  | quantified q xs body ih =>
    simp only [Portable, constants, ih h.2.2, h.1, true_and, and_iff_right_iff_imp]
    exact fun _ => h.2.1

namespace System.MadeOf

variable {E E' : Expr → Prop} {s : System}

/-- The property of the expressions may be replaced by another one that they have. -/
theorem of_expressions (h : s.MadeOf E) (hE : ∀ e ∈ s.expressions, E' e) : s.MadeOf E' := by
  obtain ⟨hInitial, hLabels⟩ := List.forall_mem_append.mp hE
  refine ⟨h.assembled, h.declared, ?_, ?_⟩
  · intro entry hEntry
    exact ⟨(h.initialValues entry hEntry).1, hInitial _ (List.mem_map_of_mem hEntry)⟩
  · intro l hl
    have hl' : ∀ e ∈ l.expressions, E' e := fun e he => hLabels e (List.mem_flatMap.mpr ⟨l, hl, he⟩)
    obtain ⟨hPreconditions, hEffects⟩ := List.forall_mem_append.mp hl'
    refine { h.labels l hl with preconditions := hPreconditions, effects := ?_ }
    intro entry hEntry
    exact ⟨((h.labels l hl).effects entry hEntry).1, hEffects _ (List.mem_map_of_mem hEntry)⟩

/-- Every expression of the system has the property. -/
theorem mem_expressions (h : s.MadeOf E) {e : Expr} (he : e ∈ s.expressions) : E e := by
  rcases List.mem_append.mp he with hInitial | hLabel
  · obtain ⟨entry, hEntry, rfl⟩ := List.mem_map.mp hInitial
    exact (h.initialValues entry hEntry).2
  · obtain ⟨l, hl, hExpr⟩ := List.mem_flatMap.mp hLabel
    rcases List.mem_append.mp hExpr with hPrecondition | hEffect
    · exact (h.labels l hl).preconditions e hPrecondition
    · obtain ⟨entry, hEntry, rfl⟩ := List.mem_map.mp hEffect
      exact ((h.labels l hl).effects entry hEntry).2

theorem legible_widened (h : s.MadeOf Expr.Legible) : s.widened.Legible := by
  refine ⟨h.declared, h.initialValues, ?_⟩
  intro l hl
  obtain ⟨m, hm, rfl⟩ := List.mem_map.mp hl
  obtain ⟨-, -, hName, hParameters, hPreconditions, hEffects⟩ := h.labels m hm
  exact ⟨⟨hName, hParameters, hPreconditions, hEffects⟩, rfl⟩

end System.MadeOf

namespace Record

variable {ι : Type} {line : Nat} {cs : List Char} {s : System}

/-! ## Records -/

theorem record_initialValue_error {x : Variable} {e : Expr} (hx : Plain x.name) (he : e.Legible)
    (hBad : ¬e.Portable) :
    ∃ failure, record line s ("I:" ++ ofVariable x ++ ofExpr e).toList = .error failure := by
  have hText : ("I:" ++ ofVariable x ++ ofExpr e).toList =
      ['I', ':'] ++ ((ofVariable x).toList ++ ((ofExpr e).toList ++ [])) ++ [] := by simp
  rw [hText]
  exact (reads_tag 'I').refuses ((reads_variableToken hx).refuses
    (((readsIf_expr he).refuses hBad).bind [])) []

/-- The record of a label with an expression that is not portable is refused. -/
theorem record_label_error {l : Label} (hLegible : l.Legible) (hDistinct : l.Distinct)
    (hVars : l.stateVariables = s.stateVariables) (hBad : ¬∀ e ∈ l.expressions, e.Portable) :
    ∃ failure, record line s (ofLabel l).toList = .error failure := by
  have hText : (ofLabel l).toList = ['L', ':'] ++ (labelBody l ++ []) ++ [] := by
    rw [toList_ofLabel, List.append_nil, List.append_nil]
  have hParts : ¬((∀ e ∈ l.preconditions, e.Portable) ∧ ∀ entry ∈ l.effects, entry.2.Portable) := by
    rintro ⟨hPreconditions, hEffects⟩
    exact hBad (List.forall_mem_append.mpr ⟨hPreconditions, List.forall_mem_map.mpr hEffects⟩)
  rw [hText]
  exact (reads_tag 'L').refuses
    (((readsIf_label hLegible hDistinct hVars).refuses hParts).bind []) []

/-- A line is refused if its record is. -/
theorem readLine_error (hEnd : Text.EndsVisibly cs)
    (h : ∃ failure, record line s cs = .error failure) :
    ∃ failure, readLine s line cs = .error failure := by
  obtain ⟨failure, hRun⟩ := h
  refine ⟨failure, ?_⟩
  have hne : cs ≠ [] := by
    obtain ⟨front, last, rfl, -⟩ := hEnd
    simp
  unfold readLine
  rw [hEnd.trimEnd_eq]
  split
  · contradiction
  · show (record line s cs).map Prod.fst = _
    rw [hRun]
    rfl

/-! ## Lines -/

/-- One of the lines is refused, and the lines before it are read. -/
inductive RefusesLines : System → List (List Char) → Prop where
  | here {s : System} {cs : List Char} {rest : List (List Char)}
      (hLine : ∀ line, ∃ failure, readLine s line cs = .error failure) : RefusesLines s (cs :: rest)
  | later {s s' : System} {cs : List Char} {rest : List (List Char)}
      (hLine : ∀ line, readLine s line cs = .ok s') (hRest : RefusesLines s' rest) :
      RefusesLines s (cs :: rest)

theorem RefusesLines.append {front : List (List Char)} (h : RefusesLines s front)
    (back : List (List Char)) : RefusesLines s (front ++ back) := by
  induction h with
  | here hLine => exact .here hLine
  | later hLine _ ih => exact .later hLine ih

theorem ReadsLines.refuses {s s' : System} {front back : List (List Char)}
    (h : ReadsLines s front s') (hBack : RefusesLines s' back) :
    RefusesLines s (front ++ back) := by
  induction h with
  | nil _ => exact hBack
  | cons hLine _ ih => exact .later hLine (ih hBack)

/-- Lines that each add an entry to what was read before, up to the first that is refused. -/
theorem refusesLines_map (state : List ι → System) {write : ι → List Char} {good : ι → Prop}
    {entries : List ι}
    (hGood : ∀ done i todo, entries = done ++ i :: todo → good i →
      ∀ line, readLine (state done) line (write i) = .ok (state (done ++ [i])))
    (hBad : ∀ done i todo, entries = done ++ i :: todo → ¬good i →
      ∀ line, ∃ failure, readLine (state done) line (write i) = .error failure)
    {done todo : List ι} (hEntries : entries = done ++ todo) (hSome : ¬∀ i ∈ todo, good i) :
    RefusesLines (state done) (todo.map write) := by
  induction todo generalizing done with
  | nil => exact absurd (by simp) hSome
  | cons i todo ih =>
    by_cases hi : good i
    · have hRest : ¬∀ j ∈ todo, good j := fun hAll => hSome (List.forall_mem_cons.mpr ⟨hi, hAll⟩)
      exact .later (hGood done i todo hEntries hi) (ih (by simp [hEntries]) hRest)
    · exact .here (hBad done i todo hEntries hi)

/-- A text is refused if one of its lines is. -/
theorem RefusesLines.readSystem_error {text : String} (h : RefusesLines {} (Text.lines text)) :
    ∃ failure, readSystem text = .error failure := by
  have hFold : ∀ {s : System} {cs : List (List Char)}, RefusesLines s cs → ∀ k, ∃ failure,
      ((cs.zipIdx k).map fun entry => (entry.2, entry.1)).foldlM
        (fun s entry => readLine s entry.1 entry.2) s = .error failure := by
    intro s cs h
    induction h with
    | here hLine =>
      intro k
      obtain ⟨failure, hRun⟩ := hLine k
      refine ⟨failure, ?_⟩
      rw [List.zipIdx_cons, List.map_cons, List.foldlM_cons, hRun]
      rfl
    | later hLine _ ih =>
      intro k
      obtain ⟨failure, hRun⟩ := ih (k + 1)
      refine ⟨failure, ?_⟩
      rw [List.zipIdx_cons, List.map_cons, List.foldlM_cons, hLine]
      exact hRun
  exact hFold h 1

/-! ## Systems -/

/-- Initial values that are not portable are refused. -/
theorem refusesLines_initialValues (hDistinct : s.Distinct) (hLegible : s.Legible)
    (hBad : ¬∀ entry ∈ s.initialValues, entry.2.Portable) :
    RefusesLines { stateVariables := s.stateVariables }
      (s.initialValues.map fun entry => ("I:" ++ ofVariable entry.1 ++ ofExpr entry.2).toList) := by
  refine refusesLines_map
    (fun done => { stateVariables := s.stateVariables, initialValues := done }) ?_ ?_
    (List.nil_append _).symm hBad
  · intro done entry todo heq he line
    exact readLine_initialValue hDistinct heq (hLegible.initialValues entry (by simp [heq])).1 he
      line
  · intro done entry todo heq he line
    obtain ⟨hx, hLegible⟩ := hLegible.initialValues entry (by simp [heq])
    exact readLine_error (endsVisibly_initialValue _ _) (record_initialValue_error hx hLegible he)

/-- Labels with expressions that are not portable are refused. -/
theorem refusesLines_labels (hDistinct : s.Distinct) (hLegible : s.Legible)
    (hBad : ¬∀ l ∈ s.labels, ∀ e ∈ l.expressions, e.Portable) :
    RefusesLines { stateVariables := s.stateVariables, initialValues := s.initialValues }
      (s.labels.map fun l => (ofLabel l).toList) := by
  refine refusesLines_map (fun done => { s with labels := done }) ?_ ?_ (List.nil_append _).symm
    hBad
  · intro done l todo heq hGood line
    have hl : l ∈ s.labels := by simp [heq]
    obtain ⟨⟨hName, hParameters, -, hEffects⟩, hVars⟩ := hLegible.labels l hl
    obtain ⟨hPreconditions, hBodies⟩ := List.forall_mem_append.mp hGood
    have hPortable : l.Portable := ⟨hName, hParameters, hPreconditions, fun entry hEntry =>
      ⟨(hEffects entry hEntry).1, hBodies _ (List.mem_map_of_mem hEntry)⟩⟩
    exact readLine_label hDistinct hl hPortable hVars done line
  · intro done l todo heq hNot line
    have hl : l ∈ s.labels := by simp [heq]
    obtain ⟨hLegible, hVars⟩ := hLegible.labels l hl
    exact readLine_error (endsVisibly_ofLabel l)
      (record_label_error hLegible (hDistinct.labels l hl) hVars hNot)

/-- One of the lines of a legible system is refused if one of its expressions is not portable. -/
theorem refusesLines_linesOf (hDistinct : s.Distinct) (hLegible : s.Legible)
    (hBad : ¬∀ e ∈ s.expressions, e.Portable) : RefusesLines {} (linesOf s) := by
  have hDeclared := readsLines_declarations hDistinct hLegible.declared
  by_cases hInitial : ∀ entry ∈ s.initialValues, entry.2.Portable
  · have hLabels : ¬∀ l ∈ s.labels, ∀ e ∈ l.expressions, e.Portable := by
      intro hAll
      refine hBad (List.forall_mem_append.mpr ⟨List.forall_mem_map.mpr hInitial, ?_⟩)
      intro e he
      obtain ⟨l, hl, hExpr⟩ := List.mem_flatMap.mp he
      exact hAll l hl e hExpr
    have hRead := readsLines_initialValues hDistinct fun entry hEntry =>
      ⟨(hLegible.initialValues entry hEntry).1, hInitial entry hEntry⟩
    exact (hDeclared.append hRead).refuses (refusesLines_labels hDistinct hLegible hLabels)
  · exact (hDeclared.refuses (refusesLines_initialValues hDistinct hLegible hInitial)).append _

/-- What is written of a legible system is read back exactly if its real constants are numerals. -/
theorem readSystem_ofSystem_iff (h : s.MadeOf Expr.Legible) (s' : System) :
    readSystem (ofSystem s) = .ok s' ↔ (∀ v ∈ s.constants, v.Numeric) ∧ s' = s.widened := by
  have hNumeric : (∀ v ∈ s.constants, v.Numeric) ↔ ∀ e ∈ s.expressions, e.Portable := by
    unfold System.constants
    rw [List.forall_mem_flatMap]
    exact forall₂_congr fun e he => (h.mem_expressions he).portable_iff.symm
  rw [hNumeric]
  by_cases hPortable : ∀ e ∈ s.expressions, e.Portable
  · rw [readSystem_ofSystem_eq (h.of_expressions hPortable), Except.ok.injEq]
    exact ⟨fun heq => ⟨hPortable, heq.symm⟩, fun hBoth => hBoth.2.symm⟩
  · have hExpressions : s.widened.expressions = s.expressions := by
      rw [System.expressions, System.expressions, System.widened, List.flatMap_map]
      rfl
    have hRefused : RefusesLines {} (Text.lines (ofSystem s)) := by
      rw [← ofSystem_widened, lines_ofLegible h.legible_widened]
      exact refusesLines_linesOf h.distinct_widened h.legible_widened (hExpressions ▸ hPortable)
    obtain ⟨failure, hRun⟩ := hRefused.readSystem_error
    rw [hRun]
    constructor
    · intro heq
      cases heq
    · intro hBoth
      exact absurd hBoth.1 hPortable

end Record

end StateSpace
