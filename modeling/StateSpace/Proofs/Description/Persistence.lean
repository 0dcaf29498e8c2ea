import StateSpace.Proofs.Description.Scope
import StateSpace.Proofs.Record.Refusal

/-!
# Descriptions that can be written as records

Whatever is read from a description has plain names and legible constants, so its written form is
read back exactly if its real constants are numerals (`Description.readSystem_parseSystem`). They
need not be: unary minus puts a sign in front of a real literal, and two signs are no numeral.

A label ranges over the variables declared before it, which the written form does not tell; read
back, it ranges over all. If the description declares its variables first, the system is read back
as it was.
-/

namespace StateSpace

open Record (Plain)

/-! ## Names -/

/-- Names of the grammar have no characters that mean anything in records. -/
theorem Text.plain_of_isName {cs : List Char} (h : isName cs = true) :
    Plain (String.ofList cs) := by
  have hAll : ∀ c ∈ cs, isNameChar c = true := by
    simp only [isName, Bool.and_eq_true, List.all_eq_true] at h
    exact h.2
  have hNot : ∀ mark, isNameChar mark = false → mark ∉ (String.ofList cs).toList := by
    intro mark hMark hMem
    rw [String.toList_ofList] at hMem
    rw [hAll mark hMem] at hMark
    cases hMark
  exact ⟨hNot ':' (by decide), hNot '\n' (by decide)⟩

theorem Variable.Named.plain {x : Variable} (h : x.Named) : Plain x.name := by
  have hPlain := Text.plain_of_isName h
  rwa [String.ofList_toList] at hPlain

theorem Variable.plain_primed {x : Variable} (h : Plain x.name) : Plain x.primed.name := by
  simpa [Plain, primed, primeMark] using h

/-! ## Formulas -/

/-- Formulas over plain names are legible, however many signs stand in front of a real literal. -/
def Formula.Invariant.legible {scope : List Variable} (h : ∀ x ∈ scope, Plain x.name) :
    Invariant scope where
  Numeral text := ∀ c ∈ text.toList, Text.isBlank c = false ∧ c ≠ ':'
  Admitted _ := True
  Formed := Expr.Legible
  literal cs hReal := by
    intro c hc
    rw [String.toList_ofList] at hc
    refine ⟨Text.isBlank_of_isReal hReal hc, ?_⟩
    rintro rfl
    exact Text.Foreign.notMem_of_isReal (by decide) hReal hc
  whole n := by
    intro c hc
    rcases Text.isDigit_or_eq_minus_of_mem_toString hc with hDigit | rfl
    · refine ⟨Text.isBlank_of_isDigit hDigit, ?_⟩
      rintro rfl
      cases hDigit
    · decide
  minus text hText := by
    intro c hc
    rw [String.toList_append, List.mem_append] at hc
    rcases hc with hSign | hOld
    · rw [List.mem_singleton.mp hSign]
      decide
    · exact hText c hOld
  truth _ := trivial
  int n t ht := ⟨ht, t.fits_wrap n⟩
  real _ _ hText := ⟨rfl, hText⟩
  var x hx := h x hx
  not _ he _ := he
  negate _ he := he
  complement _ he := he
  cast _ _ he := he
  logical _ _ _ hl hr _ _ := ⟨hl, hr⟩
  equality _ _ _ hl hr _ := ⟨hl, hr⟩
  inequality _ _ _ hl hr _ := ⟨hl, hr⟩
  compare _ _ _ hl hr := ⟨hl, hr⟩
  arith _ _ _ hl hr := ⟨hl, hr⟩
  bitwise _ _ _ hl hr := ⟨hl, hr⟩

namespace Description

/-! ## Drafts -/

theorem legible_readFormula {scope : List Variable} (h : ∀ x ∈ scope, Plain x.name) (line : Nat)
    (text : List Char) : Yields Expr.Legible (Draft.readFormula line text scope) :=
  .mapError _ ((Formula.Invariant.legible h).parseFormula (fun _ => trivial) _)

theorem plain_readDeclaration (line : Nat) (text : List Char) :
    Yields (fun xs => ∀ x ∈ xs, Plain x.name) (Draft.readDeclaration line text) :=
  fun xs hxs x hx => (named_readDeclaration line text xs hxs x hx).plain

namespace Draft

variable {d : Draft} {line : Nat} {text rest : List Char}

/-- What is read so far has plain names and legible expressions. -/
structure Legible (d : Draft) : Prop where
  system : d.system.MadeOf Expr.Legible
  current : ∀ l ∈ d.current, l.MadeOf Expr.Legible d.system.stateVariables

theorem Legible.plain_scope (h : d.Legible) : ∀ x ∈ d.scope, Plain x.name := by
  intro x hx
  rcases List.mem_append.mp hx with hState | hParameter
  · exact h.system.declared x hState
  · cases hCurrent : d.current with
    | none => simp [hCurrent] at hParameter
    | some l =>
      rw [hCurrent] at hParameter
      exact (h.current l hCurrent).parameters x hParameter

theorem Legible.closeLabel (h : d.Legible) : d.closeLabel.Legible := by
  unfold Draft.closeLabel
  split
  · exact h
  · next l hl => exact ⟨h.system.addLabel (h.current l hl), by simp⟩

/-- The names given to labels can be written to records. -/
theorem plain_labelName : Yields (fun named => Plain named.1) (d.labelName line rest) := by
  unfold labelName
  split
  · have hForeign : ∀ mark : Char, Text.Foreign mark → mark ∉ "t_".toList →
        mark ∉ ("t_" ++ toString d.anonymous).toList := by
      intro mark hMark hFront hMem
      rcases List.mem_append.mp (String.toList_append ▸ hMem) with hOld | hDigits
      · exact hFront hOld
      · exact hMark.notMem_toString (d.anonymous : Int) hDigits
    exact .ok ⟨hForeign ':' (by decide) (by decide), hForeign '\n' (by decide) (by decide)⟩
  · simp only
    split
    · next hName => exact .ok (Text.plain_of_isName hName)
    · exact .error _

theorem Legible.openLabel (h : d.Legible) (isConstructor : Bool) :
    Yields Legible (d.openLabel line isConstructor rest) := by
  refine plain_labelName.bind fun (name, anonymous) hName => .ok ⟨h.closeLabel.system, ?_⟩
  intro l hl
  cases hl
  exact (Label.MadeOf.new hName).flag false isConstructor

/-- Opening a section keeps everything legible. -/
theorem Legible.openSection (h : d.Legible) (keyword : Keyword) :
    Yields Legible (d.openSection line keyword rest) := by
  have hPart : ∀ part, Yields Legible (d.openLabelPart line part) := fun part =>
    Yields.bind (P := fun _ => True) (fun _ _ => trivial) fun _ _ => .ok ⟨h.system, h.current⟩
  cases keyword with
  | declarations | init => exact .ok ⟨h.system, h.current⟩
  | transition | constructor => exact h.openLabel _
  | parameter | precondition | effect => exact hPart _

/-- Reading for the label opened last: it has to be there, and what it becomes is made of the
same. -/
theorem Legible.bindCurrent (h : d.Legible) {f : Label → Except Failure Draft}
    (hf : ∀ l, l.MadeOf Expr.Legible d.system.stateVariables → Yields Legible (f l)) :
    Yields Legible (d.currentLabel line >>= f) :=
  Yields.bind (P := fun l => d.current = some l) (fun _ hl => currentLabel_eq_ok hl)
    fun l hl => hf l (h.current l hl)

theorem Legible.setCurrent (h : d.Legible) {l : Label}
    (hl : l.MadeOf Expr.Legible d.system.stateVariables) :
    Legible { d with current := some l } := by
  refine ⟨h.system, ?_⟩
  intro m hm
  cases hm
  exact hl

/-- Reading an effect keeps everything legible. -/
theorem Legible.readEffect (h : d.Legible) : Yields Legible (d.readEffect line text) := by
  unfold Draft.readEffect
  split
  · split
    · exact h.bindCurrent fun l hl => .ok (h.setCurrent (hl.flag true l.isConstructor))
    · exact .error _
  · simp only
    split
    · exact .error _
    · next x hx =>
      have hPlain : Plain x.name := h.system.declared x (mem_of_findVariable? hx)
      have hScope : ∀ y ∈ d.scope ++ [x.primed], Plain y.name := by
        intro y hy
        rcases List.mem_append.mp hy with hOld | hPrimed
        · exact h.plain_scope y hOld
        · rw [List.mem_singleton.mp hPrimed]
          exact Variable.plain_primed hPlain
      refine (legible_readFormula hScope _ _).bind fun effect hEffect => ?_
      refine h.bindCurrent fun l hl => ?_
      cases hAdd : l.addEffect? x effect with
      | none => exact .error _
      | some l' => exact .ok (h.setCurrent (hl.addEffect hPlain hEffect hAdd))

/-- Reading an initial value keeps everything legible. -/
theorem Legible.readInitialValue (h : d.Legible) :
    Yields Legible (d.readInitialValue line text) := by
  unfold Draft.readInitialValue
  split
  · exact .error _
  · simp only
    split
    · exact .error _
    · next x hx =>
      refine (legible_readFormula h.system.declared _ _).bind fun value hValue => .ok ?_
      exact ⟨h.system.setInitialValue hx hValue, h.current⟩

/-- Reading a line of content keeps everything legible. -/
theorem Legible.readContent (h : d.Legible) : Yields Legible (d.readContent line text) := by
  unfold Draft.readContent
  split
  · exact .error _
  · exact .ok h
  · refine (plain_readDeclaration _ _).bind fun xs hxs => .ok ⟨h.system.addVariables hxs, ?_⟩
    intro l hl
    exact (h.current l hl).mono (System.subset_addVariables d.system xs)
  · refine (plain_readDeclaration _ _).bind fun xs hxs => ?_
    exact h.bindCurrent fun l hl => .ok (h.setCurrent (hl.addParameters hxs))
  · refine (legible_readFormula h.plain_scope _ _).bind fun e he => ?_
    exact h.bindCurrent fun l hl => .ok (h.setCurrent (hl.addPrecondition he))
  · exact h.readEffect
  · exact h.readInitialValue

/-! ## Lines -/

/-- Reading a line keeps everything legible. -/
theorem Legible.readLine (h : d.Legible) (bound : Nat) :
    Yields Legible (readLine line bound text d) := by
  induction bound generalizing text d with
  | zero => exact .ok h
  | succ bound ih =>
    unfold Draft.readLine
    simp only
    split
    · exact .ok h
    · split
      · exact h.readContent
      · next keyword rest _ =>
        refine (h.openSection keyword).bind fun d' hd' => ?_
        split
        · exact .ok hd'
        · exact ih hd'

theorem Legible.readLines (h : d.Legible) (lines : List (Nat × List Char)) :
    Yields Legible (d.readLines lines) := by
  induction lines generalizing d with
  | nil => exact .ok h
  | cons head rest ih =>
    rw [Draft.readLines, List.foldlM_cons]
    exact (h.readLine _).bind fun d' hd' => ih hd'

end Draft

/-- Whatever is read from a description has plain names and legible expressions. -/
theorem legible_parseSystem (text : String) :
    Yields (System.MadeOf Expr.Legible) (parseSystem text) := by
  have hEmpty : Draft.Legible {} := ⟨.empty, by simp⟩
  exact (hEmpty.readLines _).bind fun d hd => .ok hd.closeLabel.system

/-- **Persisting a description.** What is written of a system read from a description is read back
exactly if its real constants are numerals, and then as the system with every label over all its
variables. This has the same text and the same written form, and it is the system itself if the
description declares its variables first. -/
theorem readSystem_parseSystem {text : String} {s : System} (h : parseSystem text = .ok s) :
    (∀ s', Record.readSystem (Record.ofSystem s) = .ok s' ↔
      (∀ v ∈ s.constants, v.Numeric) ∧ s' = s.widened) ∧
    s.widened.text = s.text ∧ Record.ofSystem s.widened = Record.ofSystem s ∧
    (DeclaresFirst text → s.widened = s) := by
  refine ⟨Record.readSystem_ofSystem_iff (legible_parseSystem text s h), s.text_widened,
    Record.ofSystem_widened s, ?_⟩
  intro hFirst
  have hScoped := wellScoped_of_declaresFirst h hFirst
  exact System.widened_eq_self fun l hl => (hScoped.labels l hl).ranges

/-- A description with a signed real literal and a variable declared behind a label. -/
def gaugeText : String :=
  "VARIABLES:\ndeclare level:sint8\n\nTRANSITION fall:\nPARAMETER: declare hold:bool\n" ++
    "PRECONDITION:\n!hold && level > 200\nEFFECT:\nlevel: level' == level - 1\n\n" ++
    "VARIABLES:\ndeclare rate:double\n\nINIT:\nRate: rate == -1.5\n"

/-- What is read from the description; the label ranges over one of the two variables. -/
def gaugeSystem : System where
  stateVariables := [⟨"level", .signed .w8⟩, ⟨"rate", .real .double⟩]
  labels := [
    { name := "fall"
      stateVariables := [⟨"level", .signed .w8⟩]
      parameters := [⟨"hold", .bool⟩]
      preconditions := [.and (.not (.var ⟨"hold", .bool⟩))
        (.compare .gt (.var ⟨"level", .signed .w8⟩) (.const (.int (-56) (.signed .w8))))]
      effects := [(⟨"level", .signed .w8⟩, .compare .eq (.var ⟨"level'", .signed .w8⟩)
        (.arith .sub (.var ⟨"level", .signed .w8⟩) (.const (.int 1 (.signed .w8)))))] }]
  initialValues := [(⟨"rate", .real .double⟩, .compare .eq (.var ⟨"rate", .real .double⟩)
    (.const (.real "-1.5" (.real .double))))]

theorem parseSystem_gaugeText : parseSystem gaugeText = .ok gaugeSystem :=
  eq_ok_of_toOption (by decide +kernel)

/-- The gauge is read back; its label ranges over both variables then, which its text does not
show. -/
theorem readSystem_parseSystem_gauge :
    parseSystem gaugeText = .ok gaugeSystem ∧ gaugeSystem.widened ≠ gaugeSystem ∧
      Record.readSystem (Record.ofSystem gaugeSystem) = .ok gaugeSystem.widened ∧
      gaugeSystem.widened.text = gaugeSystem.text := by
  have hPersisted := readSystem_parseSystem parseSystem_gaugeText
  exact ⟨parseSystem_gaugeText, by decide, (hPersisted.1 _).mpr ⟨by decide, rfl⟩, hPersisted.2.1⟩

/-- A real literal with two signs is accepted in a description and refused in a record. -/
theorem twice_negated_literal_is_refused :
    ((parseSystem "VARIABLES:\ndeclare d:double\n\nINIT:\nd: d == - -1.5\n").toOption.map fun s =>
      (s.text, (Record.readSystem (Record.ofSystem s)).toOption)) =
      some ("VARIABLES d:double\nINIT d: (d == --1.5)\n", none) := by
  decide +kernel

end Description

end StateSpace
