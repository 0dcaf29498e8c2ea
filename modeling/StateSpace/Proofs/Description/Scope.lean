import StateSpace.Description.Parser
import StateSpace.Proofs.Formula.Scope
import StateSpace.Proofs.Label.Scope

/-!
# Descriptions that declare first

A label ranges over the variables declared before it. If all variables are declared before the first
label, then every label ranges over all of them, and the system read is well scoped
(`Description.wellScoped_of_declaresFirst`).

What counts are the headers in the order in which reading opens them: several may stand on one line,
and within effects and initial values an assignment is not a header.
-/

namespace StateSpace

namespace Description

namespace Draft

/-- The headers that reading a line opens. -/
def headersOfLine (line : Nat) : Nat → List Char → Draft → List Keyword
  | 0, _, _ => []
  | bound + 1, text, d =>
    let text := Text.trim text
    if text.isEmpty || "//".toList.isPrefixOf text then []
    else
      match if d.isAssignment text then none else Keyword.split? text with
      | none => []
      | some (keyword, rest) =>
        keyword ::
          match d.openSection line keyword rest with
          | .error _ => []
          | .ok d =>
            if keyword.opensLabel || rest.isEmpty then [] else headersOfLine line bound rest d

/-- The headers that reading some lines opens. -/
def headersOfLines : List (Nat × List Char) → Draft → List Keyword
  | [], _ => []
  | (line, text) :: rest, d =>
    headersOfLine line (text.length + 1) text d ++
      match readLine line (text.length + 1) text d with
      | .error _ => []
      | .ok d => headersOfLines rest d

end Draft

/-- No variables are declared behind the header of a label. -/
def DeclaresFirst (text : String) : Prop :=
  (Draft.headersOfLines (Text.numberedLines text) {}).Pairwise fun before after =>
    before.opensLabel = true → after ≠ .declarations

instance (text : String) : Decidable (DeclaresFirst text) :=
  inferInstanceAs (Decidable (List.Pairwise _ _))

/-! ## Declarations -/

/-- Declared variables are named. -/
theorem named_parseItem (item : List Char) :
    Yields Variable.Named (Declaration.parseItem item) := by
  unfold Declaration.parseItem
  split
  · exact .error _
  · next name type _ =>
    by_cases hName : Text.isName (Text.trim name) = true
    · simp only [hName, Bool.not_true, Bool.false_eq_true, if_false]
      split
      · exact .error _
      · exact .ok (by simpa [Variable.Named] using hName)
    · simp only [hName, Bool.not_false, if_true]
      exact .error _

theorem named_readDeclaration (line : Nat) (text : List Char) :
    Yields (fun xs => ∀ x ∈ xs, x.Named) (Draft.readDeclaration line text) :=
  .mapError _ (.mapM named_parseItem _)

theorem within_readFormula (line : Nat) (text : List Char) (scope : List Variable) :
    Yields (Expr.Within scope) (Draft.readFormula line text scope) :=
  .mapError _ (Formula.within_parseFormula _)

/-! ## Drafts -/

/-- Declaring variables before the labels keeps the system well scoped. -/
theorem wellScoped_addVariables {s : System} {xs : List Variable} (h : s.WellScoped)
    (hLabels : s.labels = []) (hxs : ∀ x ∈ xs, x.Named) :
    (s.addVariables xs).WellScoped ∧ (s.addVariables xs).labels = [] := by
  induction xs generalizing s with
  | nil => exact ⟨h, hLabels⟩
  | cons x xs ih =>
    obtain ⟨hx, hxs⟩ := List.forall_mem_cons.mp hxs
    refine ih (s := s.addVariable x) ?_ ?_ hxs <;> unfold System.addVariable <;> split
    · exact h
    · next hNew =>
      rw [List.contains_iff_mem] at hNew
      refine ⟨?_, ?_, ?_, ?_⟩
      · refine List.nodup_append.mpr ⟨h.nodup, by simp, fun a ha b hb heq => hNew ?_⟩
        rwa [← List.mem_singleton.mp hb, ← heq]
      · simpa [or_imp, forall_and] using And.intro h.named hx
      · intro entry hEntry
        obtain ⟨hMem, hWithin⟩ := h.initialValues entry hEntry
        exact ⟨List.mem_append_left _ hMem, hWithin.mono (List.subset_append_left _ _)⟩
      · simp [hLabels]
    · exact hLabels
    · exact hLabels

section

variable {l : Label} {xs : List Variable}

/-- Adding parameters keeps a label well scoped. -/
theorem wellScoped_addParameters {ys : List Variable} (h : l.WellScoped xs)
    (hys : ∀ y ∈ ys, y.Named) : (ys.foldl Label.addParameter l).WellScoped xs := by
  induction ys generalizing l with
  | nil => exact h
  | cons y ys ih =>
    obtain ⟨hy, hys⟩ := List.forall_mem_cons.mp hys
    refine ih ?_ hys
    unfold Label.addParameter
    split
    · exact h
    · refine ⟨h.ranges, ?_, fun e he => ?_, fun entry hEntry => ?_⟩
      · intro x hx
        rw [← List.append_assoc, List.mem_append, List.mem_singleton] at hx
        exact hx.elim (h.named x) fun heq => heq ▸ hy
      · exact (h.preconditions e he).mono fun x hx => by simp at hx ⊢; tauto
      · obtain ⟨hMem, hWithin⟩ := h.effects entry hEntry
        exact ⟨hMem, hWithin.mono fun x hx => by simp at hx ⊢; tauto⟩

theorem wellScoped_addPrecondition {e : Expr} (h : l.WellScoped xs)
    (he : e.Within (xs ++ l.parameters)) : (l.addPrecondition e).WellScoped xs where
  ranges := h.ranges
  named := h.named
  preconditions e' he' := by
    rcases List.mem_append.mp he' with hOld | hNew
    · exact h.preconditions e' hOld
    · rwa [List.mem_singleton.mp hNew]
  effects := h.effects

/-- Adding an effect over its scope keeps a label well scoped. -/
theorem wellScoped_addEffect {l' : Label} {x : Variable} {e : Expr} (h : l.WellScoped xs)
    (hx : x ∈ xs)
    (he : e.Within (xs ++ l.parameters ++ [x.primed])) (hAdd : l.addEffect? x e = some l') :
    l'.WellScoped xs := by
  obtain ⟨-, hSome⟩ := Option.ite_none_right_eq_some.mp hAdd
  cases hSome
  refine ⟨h.ranges, h.named, h.preconditions, fun entry hEntry => ?_⟩
  rcases Formulas.mem_set hEntry with rfl | hOld
  · exact ⟨hx, he⟩
  · exact h.effects entry hOld

end

namespace Draft

variable {d : Draft} {line : Nat} {text : List Char}

/-- Whether a label has been opened. -/
def HasLabel (d : Draft) : Prop :=
  d.system.labels ≠ [] ∨ d.current ≠ none

/-- What is read so far is well scoped, and variables are being declared only before any label. -/
structure Sound (d : Draft) : Prop where
  system : d.system.WellScoped
  current : ∀ l ∈ d.current, l.WellScoped d.system.stateVariables
  declaring : d.part = .declarations → ¬d.HasLabel

/-- The draft stays sound and has labels if it had. -/
def Keeps (d d' : Draft) : Prop :=
  d'.Sound ∧ (d'.HasLabel ↔ d.HasLabel)

/-- Closing the open label gives a well-scoped system. -/
theorem Sound.closeLabel (h : d.Sound) : d.closeLabel.system.WellScoped := by
  unfold Draft.closeLabel
  split
  · exact h.system
  · next l hl =>
    refine ⟨h.system.nodup, h.system.named, h.system.initialValues, fun l' hl' => ?_⟩
    rcases List.mem_append.mp hl' with hOld | hNew
    · exact h.system.labels l' hOld
    · rw [List.mem_singleton.mp hNew]
      exact h.current l hl

theorem wellScoped_newLabel {s : System} (h : s.WellScoped) (name : String) (isConstructor : Bool) :
    Label.WellScoped s.stateVariables { s.newLabel name with isConstructor } where
  ranges := rfl
  named := by simpa [System.newLabel] using h.named
  preconditions := by simp [System.newLabel]
  effects := by simp [System.newLabel]

theorem Sound.openLabel (h : d.Sound) (isConstructor : Bool) (rest : List Char) :
    Yields Sound (d.openLabel line isConstructor rest) := by
  refine Yields.bind (P := fun _ => True) (fun _ _ => trivial) fun (name, anonymous) _ => .ok ?_
  refine ⟨h.closeLabel, fun l hl => ?_, fun hPart => by cases hPart⟩
  cases hl
  exact wellScoped_newLabel h.closeLabel name isConstructor

/-- Opening a section keeps a draft sound, if declarations come before the labels. -/
theorem Sound.openSection (h : d.Sound) {keyword : Keyword} (line : Nat) (rest : List Char)
    (hFirst : keyword = .declarations → ¬d.HasLabel) :
    Yields (fun d' => d'.Sound ∧ (d'.HasLabel → d.HasLabel ∨ keyword.opensLabel = true))
      (d.openSection line keyword rest) := by
  have hPart : ∀ part, part ≠ .declarations → Sound { d with part } :=
    fun part hne => ⟨h.system, h.current, fun heq => absurd heq hne⟩
  have hLabelPart : ∀ part, part ≠ .declarations →
      Yields (fun d' => d'.Sound ∧ (d'.HasLabel → d.HasLabel ∨ keyword.opensLabel = true))
        (d.openLabelPart line part) := by
    intro part hne
    refine Yields.bind (P := fun _ => True) (fun _ _ => trivial) fun _ _ =>
      .ok ⟨hPart part hne, .inl⟩
  cases keyword with
  | declarations => exact .ok ⟨⟨h.system, h.current, fun _ => hFirst rfl⟩, .inl⟩
  | init => exact .ok ⟨hPart _ (by decide), .inl⟩
  | transition => exact fun d' hd' => ⟨h.openLabel false rest d' hd', fun _ => .inr rfl⟩
  | constructor => exact fun d' hd' => ⟨h.openLabel true rest d' hd', fun _ => .inr rfl⟩
  | parameter => exact hLabelPart _ (by decide)
  | precondition => exact hLabelPart _ (by decide)
  | effect => exact hLabelPart _ (by decide)

/-- Changing the label opened last to another well-scoped one. -/
theorem Sound.setCurrent (h : d.Sound) {l l' : Label} (hl : d.current = some l)
    (hl' : l'.WellScoped d.system.stateVariables) : d.Keeps { d with current := some l' } := by
  have hLabel : d.HasLabel := .inr (by simp [hl])
  refine ⟨⟨h.system, fun m hm => ?_, fun hPart => absurd hLabel (h.declaring hPart)⟩, ?_⟩
  · cases hm
    exact hl'
  · exact iff_of_true (.inr (by simp)) hLabel

theorem currentLabel_eq_ok {l : Label} (h : d.currentLabel line = .ok l) : d.current = some l := by
  unfold currentLabel at h
  split at h
  · next hl =>
    cases h
    exact hl
  · cases h

theorem mem_of_findVariable? {s : System} {name : String} {x : Variable}
    (h : s.findVariable? name = some x) : x ∈ s.stateVariables :=
  List.mem_of_find?_eq_some h

theorem scope_eq {l : Label} (h : d.current = some l) :
    d.scope = d.system.stateVariables ++ l.parameters := by
  simp [scope, h]

/-- Reading for the label opened last: it has to be there, and what it becomes is well scoped. -/
theorem Sound.bindCurrent (h : d.Sound) {f : Label → Except Failure Draft}
    (hf : ∀ l, d.current = some l → l.WellScoped d.system.stateVariables → Yields d.Keeps (f l)) :
    Yields d.Keeps (d.currentLabel line >>= f) :=
  Yields.bind (P := fun l => d.current = some l) (fun _ hl => currentLabel_eq_ok hl)
    fun l hl => hf l hl (h.current l hl)

/-- Reading an effect keeps a draft sound. -/
theorem Sound.readEffect (h : d.Sound) : Yields d.Keeps (d.readEffect line text) := by
  unfold Draft.readEffect
  split
  · split
    · refine h.bindCurrent fun l hl hScoped => .ok (h.setCurrent hl ?_)
      exact ⟨hScoped.ranges, hScoped.named, hScoped.preconditions, hScoped.effects⟩
    · exact .error _
  · next name body _ =>
    simp only
    split
    · exact .error _
    · next x hx =>
      refine (within_readFormula _ _ _).bind fun effect hEffect => ?_
      refine h.bindCurrent fun l hl hScoped => ?_
      rw [scope_eq hl] at hEffect
      cases hAdd : l.addEffect? x effect with
      | none => exact .error _
      | some l' =>
        have hMem := mem_of_findVariable? hx
        exact .ok (h.setCurrent hl (wellScoped_addEffect hScoped hMem hEffect hAdd))

/-- Reading an initial value keeps a draft sound. -/
theorem Sound.readInitialValue (h : d.Sound) : Yields d.Keeps (d.readInitialValue line text) := by
  unfold Draft.readInitialValue
  split
  · exact .error _
  · simp only
    split
    · exact .error _
    · next x hx =>
      refine (within_readFormula _ _ _).bind fun value hValue => .ok ?_
      refine ⟨⟨⟨h.system.nodup, h.system.named, fun entry hEntry => ?_, h.system.labels⟩, h.current,
        h.declaring⟩, Iff.rfl⟩
      rcases Formulas.mem_set hEntry with rfl | hOld
      · exact ⟨mem_of_findVariable? hx, hValue⟩
      · exact h.system.initialValues entry hOld

/-- Reading a line of content keeps a draft sound. -/
theorem Sound.readContent (h : d.Sound) : Yields d.Keeps (d.readContent line text) := by
  unfold Draft.readContent
  split
  · exact .error _
  · exact .ok ⟨h, Iff.rfl⟩
  · next hPart =>
    refine (named_readDeclaration _ _).bind fun xs hxs => .ok ?_
    have hNone := h.declaring hPart
    simp only [HasLabel, not_or, not_not] at hNone
    obtain ⟨hScoped, hLabels⟩ := wellScoped_addVariables h.system hNone.1 hxs
    have hNot : ¬HasLabel { d with system := d.system.addVariables xs } := by
      simp [HasLabel, hLabels, hNone.2]
    exact ⟨⟨hScoped, by simp [hNone.2], fun _ => hNot⟩, iff_of_false hNot (h.declaring hPart)⟩
  · refine (named_readDeclaration _ _).bind fun xs hxs => ?_
    exact h.bindCurrent fun l hl hScoped =>
      .ok (h.setCurrent hl (wellScoped_addParameters hScoped hxs))
  · refine (within_readFormula _ _ _).bind fun e he => ?_
    refine h.bindCurrent fun l hl hScoped => .ok (h.setCurrent hl ?_)
    rw [scope_eq hl] at he
    exact wellScoped_addPrecondition hScoped he
  · exact h.readEffect
  · exact h.readInitialValue

/-! ## Lines -/

/-- The headers still to come declare no variables behind a label. -/
structure Admits (d : Draft) (headers : List Keyword) : Prop where
  first : headers.Pairwise fun before after => before.opensLabel = true → after ≠ .declarations
  none : d.HasLabel → .declarations ∉ headers

/-- A line keeps a draft sound; `later` are the headers behind the line. -/
theorem Sound.readLine (h : d.Sound) {later : List Keyword} (bound : Nat)
    (hAdmits : d.Admits (headersOfLine line bound text d ++ later)) :
    Yields (fun d' => d'.Sound ∧ d'.Admits later) (readLine line bound text d) := by
  induction bound generalizing text d with
  | zero => exact .ok ⟨h, hAdmits⟩
  | succ bound ih =>
    unfold headersOfLine at hAdmits
    unfold Draft.readLine
    simp only at hAdmits ⊢
    split
    · next hBlank =>
      rw [if_pos hBlank] at hAdmits
      exact .ok ⟨h, hAdmits⟩
    · next hBlank =>
      rw [if_neg hBlank] at hAdmits
      split
      · next hSplit =>
        simp only [hSplit, List.nil_append] at hAdmits
        intro d' hd'
        obtain ⟨hSound, hLabel⟩ := h.readContent d' hd'
        exact ⟨hSound, hAdmits.first, fun hHas => hAdmits.none (hLabel.mp hHas)⟩
      · next keyword rest hSplit =>
        simp only [hSplit] at hAdmits
        have hOpen := h.openSection line rest fun (heq : keyword = .declarations) hHas =>
          hAdmits.none hHas (by simp [heq])
        refine Yields.bind (P := fun d' => d.openSection line keyword rest = .ok d')
          (fun _ hRun => hRun) fun d' hRun => ?_
        obtain ⟨hSound, hLabel⟩ := hOpen d' hRun
        simp only [hRun, List.cons_append] at hAdmits
        obtain ⟨hBehind, hFirst⟩ := List.pairwise_cons.mp hAdmits.first
        -- a header that opens a label has no declarations behind it
        have hAdmits' : d'.Admits _ := ⟨hFirst, fun hHas hMem => (hLabel hHas).elim
          (fun hOld => hAdmits.none hOld (List.mem_cons_of_mem _ hMem))
          (fun hOpens => hBehind _ hMem hOpens rfl)⟩
        split
        · next hLast =>
          rw [if_pos hLast] at hAdmits'
          exact .ok ⟨hSound, hAdmits'⟩
        · next hLast =>
          rw [if_neg hLast] at hAdmits'
          exact ih hSound hAdmits'

/-- Reading lines keeps a draft sound, if they admit no late declarations. -/
theorem Sound.readLines (h : d.Sound) {lines : List (Nat × List Char)}
    (hAdmits : d.Admits (headersOfLines lines d)) : Yields Sound (d.readLines lines) := by
  induction lines generalizing d with
  | nil => exact .ok h
  | cons head rest ih =>
    obtain ⟨line, text⟩ := head
    rw [Draft.readLines, List.foldlM_cons]
    refine Yields.bind (P := fun d' => Draft.readLine line (text.length + 1) text d = .ok d')
      (fun _ hRun => hRun) fun d' hRun => ?_
    simp only [headersOfLines, hRun] at hAdmits
    obtain ⟨hSound, hAdmits'⟩ := h.readLine _ hAdmits d' hRun
    exact ih hSound hAdmits'

end Draft

/-- A system read from a description that declares its variables first is well scoped. -/
theorem wellScoped_of_declaresFirst {text : String} {s : System} (h : parseSystem text = .ok s)
    (hFirst : DeclaresFirst text) : s.WellScoped := by
  have hSound : Draft.Sound {} :=
    ⟨⟨by simp, by simp, by simp, by simp⟩, by simp, fun hPart => by cases hPart⟩
  have hAdmits : Draft.Admits {} (Draft.headersOfLines (Text.numberedLines text) {}) :=
    ⟨hFirst, fun hHas => by simp [Draft.HasLabel] at hHas⟩
  have hYields : Yields System.WellScoped (parseSystem text) :=
    (hSound.readLines hAdmits).bind fun d hd => .ok hd.closeLabel
  exact hYields s h

end Description

end StateSpace
