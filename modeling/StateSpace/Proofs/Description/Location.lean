import StateSpace.Proofs.Description.Scope

/-!
# Where reading fails

A description is read line by line, so a failure belongs to a line: the lines before it are accepted
as a description, and with it no longer (`Description.parseSystem_fails_at_line`). The failure names
the line, with one exception. A label ranges over the variables declared before it; an effect on a
variable that is declared behind the header of its label is refused without a line.

A step is a line (`Draft.readLine_failsWith`), and a run stops at the first one that fails
(`Draft.exists_of_readLines_eq_error`).
-/

namespace StateSpace

/-! ## The first lines of a text -/

namespace Text

/-- The characters of the first lines, with the line feeds that end them. -/
def takeLines : Nat → List Char → List Char
  | 0, _ => []
  | _ + 1, [] => []
  | k + 1, '\n' :: rest => '\n' :: takeLines k rest
  | k + 1, c :: rest => c :: takeLines (k + 1) rest

/-- The first lines of a text, as a text. -/
def firstLines (k : Nat) (s : String) : String :=
  String.ofList (takeLines k s.toList)

/-- The first lines of a text are the lines of its beginning. -/
theorem linesFrom_takeLines (cs current : List Char) (k : Nat) :
    linesFrom (takeLines (k + 1) cs) current = (linesFrom cs current).take (k + 1) := by
  induction cs generalizing current k with
  | nil => cases current <;> simp [takeLines, linesFrom]
  | cons c rest ih =>
    by_cases hc : c = '\n'
    · subst hc
      rw [takeLines, linesFrom, linesFrom, List.take_succ_cons]
      cases k with
      | zero => simp [takeLines, linesFrom]
      | succ k => rw [ih]
    · rw [takeLines, linesFrom, linesFrom, ih] <;> exact hc

theorem lines_firstLines (k : Nat) (s : String) : lines (firstLines k s) = (lines s).take k := by
  rw [lines, lines, firstLines, String.toList_ofList]
  cases k with
  | zero => simp [takeLines, linesFrom]
  | succ k => exact linesFrom_takeLines _ _ k

theorem getElem?_numberedLines (s : String) (i : Nat) :
    (numberedLines s)[i]? = (lines s)[i]?.map fun line => (i + 1, line) := by
  simp [numberedLines, List.getElem?_zipIdx, Nat.add_comm, Function.comp_def]

theorem numberedLines_firstLines (k : Nat) (s : String) :
    numberedLines (firstLines k s) = (numberedLines s).take k := by
  ext1 i
  rw [getElem?_numberedLines, lines_firstLines, List.getElem?_take, List.getElem?_take,
    getElem?_numberedLines]
  split <;> rfl

end Text

/-! ## Failures of what may fail -/

/-- Whatever a computation fails with, if it fails at all, has a property. -/
def FailsWith {ε α : Type} (P : ε → Prop) (r : Except ε α) : Prop :=
  ∀ e, r = .error e → P e

namespace FailsWith

variable {ε ε' α β : Type} {P Q : ε → Prop}

theorem ok (a : α) : FailsWith P (.ok a : Except ε α) := by
  intro e he
  cases he

theorem error {e : ε} (h : P e) : FailsWith P (.error e : Except ε α) := by
  intro e' he
  cases he
  exact h

/-- A sequence fails as its first computation does, or as the second one on what the first
returned. -/
theorem bind {r : Except ε α} {f : α → Except ε β} (hr : FailsWith P r)
    (hf : ∀ a, r = .ok a → FailsWith P (f a)) : FailsWith P (r >>= f) := by
  cases r with
  | error e => exact error (hr e rfl)
  | ok a => exact hf a rfl

theorem mapError {P : ε' → Prop} {f : ε → ε'} (h : ∀ e, P (f e)) (r : Except ε α) :
    FailsWith P (r.mapError f) := by
  cases r with
  | error e => exact error (h e)
  | ok a => exact ok a

theorem mono {r : Except ε α} (h : FailsWith P r) (hImp : ∀ e, P e → Q e) : FailsWith Q r :=
  fun e he => hImp e (h e he)

end FailsWith

namespace Description

namespace Draft

variable {d : Draft} {line : Nat} {text : List Char} {failure : Failure}

/-- The failure names the line. -/
def NamesLine (line : Nat) (failure : Failure) : Prop :=
  ∃ fault, failure = .description line fault

/-- The failure is an effect on a variable that the label opened last does not range over. -/
def OutOfRange (d : Draft) (failure : Failure) : Prop :=
  ∃ l x, d.current = some l ∧ x ∈ d.system.stateVariables ∧ x ∉ l.stateVariables ∧
    failure = .undeclared x.name

theorem currentLabel_failsWith (d : Draft) (line : Nat) :
    FailsWith (NamesLine line) (d.currentLabel line) := by
  unfold currentLabel
  split
  · exact .ok _
  · exact .error ⟨_, rfl⟩

theorem readDeclaration_failsWith (line : Nat) (text : List Char) :
    FailsWith (NamesLine line) (readDeclaration line text) :=
  .mapError (fun _ => ⟨_, rfl⟩) _

theorem readFormula_failsWith (line : Nat) (text : List Char) (scope : List Variable) :
    FailsWith (NamesLine line) (readFormula line text scope) :=
  .mapError (fun _ => ⟨_, rfl⟩) _

/-! ## Headers -/

/-- Opening a label fails at the line of its header. -/
theorem openLabel_failsWith (d : Draft) (line : Nat) (isConstructor : Bool) (rest : List Char) :
    FailsWith (NamesLine line) (d.openLabel line isConstructor rest) := by
  refine .bind ?_ fun _ _ => .ok _
  unfold labelName
  split
  · exact .ok _
  · simp only
    split
    · exact .ok _
    · exact .error ⟨_, rfl⟩

theorem openLabelPart_failsWith (d : Draft) (line : Nat) (part : Part) :
    FailsWith (NamesLine line) (d.openLabelPart line part) :=
  .bind (d.currentLabel_failsWith line) fun _ _ => .ok _

theorem openSection_failsWith (d : Draft) (line : Nat) (keyword : Keyword) (rest : List Char) :
    FailsWith (NamesLine line) (d.openSection line keyword rest) := by
  cases keyword with
  | declarations | init => exact .ok _
  | transition | constructor => exact d.openLabel_failsWith line _ rest
  | parameter | precondition | effect => exact d.openLabelPart_failsWith line _

/-- A header that opens no label changes the part and nothing else. -/
theorem openSection_eq_ok {keyword : Keyword} {rest : List Char} {d' : Draft}
    (h : d.openSection line keyword rest = .ok d') (hKeyword : keyword.opensLabel = false) :
    d'.system = d.system ∧ d'.current = d.current := by
  have hLabelPart : ∀ part, d.openLabelPart line part = .ok d' →
      d'.system = d.system ∧ d'.current = d.current := by
    intro part hPart
    unfold openLabelPart at hPart
    cases hl : d.currentLabel line with
    | error e =>
      rw [hl] at hPart
      cases hPart
    | ok l =>
      rw [hl] at hPart
      cases hPart
      exact ⟨rfl, rfl⟩
  cases keyword with
  | declarations | init =>
    cases h
    exact ⟨rfl, rfl⟩
  | transition | constructor => cases hKeyword
  | parameter | precondition | effect => exact hLabelPart _ h

/-! ## Lines -/

/-- What reading a line can fail with. -/
def FailsAt (d : Draft) (line : Nat) (failure : Failure) : Prop :=
  NamesLine line failure ∨ d.OutOfRange failure

/-- Reading an effect fails at its own line. -/
theorem readEffect_failsWith (d : Draft) (line : Nat) (text : List Char) :
    FailsWith (d.FailsAt line) (d.readEffect line text) := by
  have hLabel : FailsWith (d.FailsAt line) (d.currentLabel line) :=
    (d.currentLabel_failsWith line).mono fun _ => .inl
  unfold readEffect
  split
  · split
    · exact hLabel.bind fun _ _ => .ok _
    · exact .error (.inl ⟨_, rfl⟩)
  · simp only
    split
    · exact .error (.inl ⟨_, rfl⟩)
    · next x hx =>
      refine .bind ((readFormula_failsWith _ _ _).mono fun _ => .inl) fun effect _ => ?_
      refine hLabel.bind fun l hl => ?_
      cases hAdd : l.addEffect? x effect with
      | some l' => exact .ok _
      | none =>
        refine .error (.inr ⟨l, x, currentLabel_eq_ok hl, mem_of_findVariable? hx, ?_, rfl⟩)
        simpa [Label.addEffect?] using hAdd

theorem readInitialValue_failsWith (d : Draft) (line : Nat) (text : List Char) :
    FailsWith (NamesLine line) (d.readInitialValue line text) := by
  unfold readInitialValue
  split
  · exact .error ⟨_, rfl⟩
  · simp only
    split
    · exact .error ⟨_, rfl⟩
    · exact .bind (readFormula_failsWith _ _ _) fun _ _ => .ok _

/-- Reading a line of content fails at that line. -/
theorem readContent_failsWith (d : Draft) (line : Nat) (text : List Char) :
    FailsWith (d.FailsAt line) (d.readContent line text) := by
  unfold readContent
  split
  · exact .error (.inl ⟨_, rfl⟩)
  · exact .ok _
  · exact .mono (.bind (readDeclaration_failsWith _ _) fun _ _ => .ok _) fun _ => .inl
  · refine .mono (.bind (readDeclaration_failsWith _ _) fun _ _ => ?_) fun _ => .inl
    exact .bind (d.currentLabel_failsWith line) fun _ _ => .ok _
  · refine .mono (.bind (readFormula_failsWith _ _ _) fun _ _ => ?_) fun _ => .inl
    exact .bind (d.currentLabel_failsWith line) fun _ _ => .ok _
  · exact d.readEffect_failsWith line text
  · exact (d.readInitialValue_failsWith line text).mono fun _ => .inl

/-- A line fails with its number, or with an effect on a variable out of the range of the label that
was open before the line: the headers in front of an effect on one line open no label. -/
theorem readLine_failsWith (d : Draft) (line bound : Nat) (text : List Char) :
    FailsWith (d.FailsAt line) (readLine line bound text d) := by
  induction bound generalizing text d with
  | zero => exact .ok _
  | succ bound ih =>
    unfold readLine
    simp only
    split
    · exact .ok _
    · split
      · exact d.readContent_failsWith line _
      · next keyword rest _ =>
        refine .bind ((d.openSection_failsWith line keyword rest).mono fun _ => .inl)
          fun d' hd' => ?_
        split
        · exact .ok _
        · next hLast =>
          rw [Bool.or_eq_true, not_or, Bool.not_eq_true] at hLast
          obtain ⟨hSystem, hCurrent⟩ := openSection_eq_ok hd' hLast.1
          have hat : d'.FailsAt line = d.FailsAt line := by
            funext failure
            simp only [FailsAt, OutOfRange, hSystem, hCurrent]
          exact hat ▸ ih d' rest

/-! ## Sequences of lines -/

variable {front lines : List (Nat × List Char)}

theorem readLines_cons (d : Draft) (line : Nat) (text : List Char)
    (lines : List (Nat × List Char)) : d.readLines ((line, text) :: lines) =
      readLine line (text.length + 1) text d >>= fun d' => d'.readLines lines := by
  rw [readLines, List.foldlM_cons]
  rfl

theorem readLines_append (d : Draft) (front back : List (Nat × List Char)) :
    d.readLines (front ++ back) = d.readLines front >>= fun d' => d'.readLines back :=
  List.foldlM_append

/-- What follows a line that fails is not read. -/
theorem readLines_eq_error_of_front (hFront : front <+: lines)
    (h : d.readLines front = .error failure) : d.readLines lines = .error failure := by
  obtain ⟨back, rfl⟩ := hFront
  rw [readLines_append, h]
  rfl

theorem exists_readLines_front {d' : Draft} (hFront : front <+: lines)
    (h : d.readLines lines = .ok d') : ∃ d'', d.readLines front = .ok d'' := by
  cases hRun : d.readLines front with
  | ok d'' => exact ⟨d'', rfl⟩
  | error failure =>
    rw [readLines_eq_error_of_front hFront hRun] at h
    cases h

/-- If reading fails then at one line, behind lines that are read. -/
theorem exists_of_readLines_eq_error (h : d.readLines lines = .error failure) :
    ∃ i line text d', lines[i]? = some (line, text) ∧ d.readLines (lines.take i) = .ok d' ∧
      d.readLines (lines.take (i + 1)) = .error failure ∧ d'.FailsAt line failure := by
  induction lines generalizing d with
  | nil => cases h
  | cons head rest ih =>
    obtain ⟨line, text⟩ := head
    rw [readLines_cons] at h
    cases hRun : readLine line (text.length + 1) text d with
    | error e =>
      rw [hRun] at h
      cases h
      refine ⟨0, line, text, d, rfl, rfl, ?_, d.readLine_failsWith line _ text _ hRun⟩
      rw [List.take_succ_cons, readLines_cons, hRun]
      rfl
    | ok d₁ =>
      rw [hRun] at h
      obtain ⟨i, line', text', d', hGet, hRead, hFails, hat⟩ := ih h
      refine ⟨i + 1, line', text', d', hGet, ?_, ?_, hat⟩
      · rw [List.take_succ_cons, readLines_cons, hRun]
        exact hRead
      · rw [List.take_succ_cons, readLines_cons, hRun]
        exact hFails

/-- The headers met in the first lines come first. -/
theorem headersOfLines_front (hFront : front <+: lines) (d : Draft) :
    headersOfLines front d <+: headersOfLines lines d := by
  obtain ⟨back, rfl⟩ := hFront
  induction front generalizing d with
  | nil => exact List.nil_prefix
  | cons head rest ih =>
    obtain ⟨line, text⟩ := head
    rw [List.cons_append, headersOfLines, headersOfLines, List.prefix_append_right_inj]
    split
    · exact List.prefix_rfl
    · exact ih _

theorem finish_of_current {l : Label} (h : d.current = some l) :
    d.finish.labels.getLast? = some l ∧ d.finish.stateVariables = d.system.stateVariables := by
  simp [finish, closeLabel, h, System.addLabel]

end Draft

/-! ## Descriptions -/

section

variable {text : String} {failure : Failure}

theorem parseSystem_of_readLines {d : Draft}
    (h : Draft.readLines {} (Text.numberedLines text) = .ok d) :
    parseSystem text = .ok d.finish := by
  rw [parseSystem, h]
  rfl

/-- A description is refused exactly if one of its lines is. -/
theorem parseSystem_eq_error_iff :
    parseSystem text = .error failure ↔
      Draft.readLines {} (Text.numberedLines text) = .error failure := by
  unfold parseSystem
  cases Draft.readLines {} (Text.numberedLines text) with
  | ok d => exact iff_of_false nofun nofun
  | error e =>
    constructor <;> intro h
    · cases h
      rfl
    · cases h
      rfl

theorem DeclaresFirst.firstLines (h : DeclaresFirst text) (k : Nat) :
    DeclaresFirst (Text.firstLines k text) := by
  unfold DeclaresFirst at h ⊢
  rw [Text.numberedLines_firstLines]
  have hFront := List.take_prefix k (Text.numberedLines text)
  exact h.sublist (Draft.headersOfLines_front hFront _).sublist

/-- If the description read so far declares its variables first, then no variable is out of the
range of its last label. -/
theorem DeclaresFirst.mem_stateVariables {s : System} {l : Label} {x : Variable}
    (hFirst : DeclaresFirst text) (h : parseSystem text = .ok s) (hl : s.labels.getLast? = some l)
    (hx : x ∈ s.stateVariables) : x ∈ l.stateVariables := by
  have hScoped := wellScoped_of_declaresFirst h hFirst
  rw [(hScoped.labels l (List.mem_of_getLast? hl)).ranges]
  exact hx

/-- Reading a description fails at one of its lines: the lines before it are accepted, and with it
the same failure comes back however many lines follow. The failure names this line, unless it is an
effect of the last label on a variable that was declared behind it; and it does name it if all
variables are declared before the first label. -/
theorem parseSystem_fails_at_line (h : parseSystem text = .error failure) :
    ∃ k, 1 ≤ k ∧ k ≤ (Text.lines text).length ∧
      (∀ j < k, ∃ s, parseSystem (Text.firstLines j text) = .ok s) ∧
      (∀ j, k ≤ j → parseSystem (Text.firstLines j text) = .error failure) ∧
      ((∃ fault, failure = .description k fault) ∨
        ∃ s l x, parseSystem (Text.firstLines (k - 1) text) = .ok s ∧ s.labels.getLast? = some l ∧
          x ∈ s.stateVariables ∧ x ∉ l.stateVariables ∧ failure = .undeclared x.name) ∧
      (DeclaresFirst text → ∃ fault, failure = .description k fault) := by
  obtain ⟨i, line, content, d, hGet, hRead, hFails, hat⟩ :=
    Draft.exists_of_readLines_eq_error (parseSystem_eq_error_iff.mp h)
  rw [Text.getElem?_numberedLines, Option.map_eq_some_iff] at hGet
  obtain ⟨_, hGet, hLine⟩ := hGet
  cases hLine
  have hAccepted : parseSystem (Text.firstLines i text) = .ok d.finish :=
    parseSystem_of_readLines (by rw [Text.numberedLines_firstLines, hRead])
  refine ⟨i + 1, by omega, (List.getElem?_eq_some_iff.mp hGet).1, fun j hj => ?_, fun j hj => ?_,
    ?_⟩
  · have hFront := List.take_prefix_take_left (l := Text.numberedLines text) (Nat.le_of_lt_succ hj)
    obtain ⟨d', hd'⟩ := Draft.exists_readLines_front hFront hRead
    exact ⟨_, parseSystem_of_readLines (by rw [Text.numberedLines_firstLines, hd'])⟩
  · have hFront := List.take_prefix_take_left (l := Text.numberedLines text) hj
    rw [parseSystem_eq_error_iff, Text.numberedLines_firstLines]
    exact Draft.readLines_eq_error_of_front hFront hFails
  · rcases hat with hNames | ⟨l, x, hl, hx, hOut, hUndeclared⟩
    · exact ⟨.inl hNames, fun _ => hNames⟩
    · obtain ⟨hLast, hVars⟩ := Draft.finish_of_current hl
      rw [← hVars] at hx
      refine ⟨.inr ⟨d.finish, l, x, hAccepted, hLast, hx, hOut, hUndeclared⟩, fun hFirst => ?_⟩
      exact absurd ((hFirst.firstLines i).mem_stateVariables hAccepted hLast hx) hOut

/-- A description of a single label with a precondition on a variable that nothing declares. -/
def unknownName : String :=
  "VARIABLES:\ndeclare x:sint32\nTRANSITION t:\nPRECONDITION:\ny > 0\nEFFECT:\nx: x' = x\n"

/-- A failure at the fifth of seven lines names it. -/
theorem parseSystem_fails_at_line_unknownName :
    ∃ failure, parseSystem unknownName = .error failure ∧ DeclaresFirst unknownName ∧
      (∃ fault, failure = .description 5 fault) ∧
      (∃ s, parseSystem (Text.firstLines 4 unknownName) = .ok s) ∧
      parseSystem (Text.firstLines 5 unknownName) = .error failure := by
  have hFirst : DeclaresFirst unknownName := by decide +kernel
  have hFails : parseSystem unknownName =
      .error (.description 5 (.formula (.undeclared "y"))) := by decide +kernel
  obtain ⟨k, -, -, hBefore, hFrom, -, hNames⟩ := parseSystem_fails_at_line hFails
  obtain ⟨fault, hFault⟩ := hNames hFirst
  cases hFault
  exact ⟨_, hFails, hFirst, ⟨_, rfl⟩, hBefore 4 (by omega), hFrom 5 le_rfl⟩

/-- A label whose only variable is declared behind its header. -/
def declaredLate : String :=
  "TRANSITION t:\nVARIABLES:\ndeclare x:bool\nEFFECT:\nx: x'\n"

/-- The effect on it fails, and no line is named. -/
theorem parseSystem_declaredLate :
    ∃ failure, parseSystem declaredLate = .error failure ∧
      ∀ line fault, failure ≠ .description line fault := by
  have hFails : parseSystem declaredLate = .error (.undeclared "x") := by decide +kernel
  exact ⟨_, hFails, nofun⟩

end

end Description

end StateSpace
