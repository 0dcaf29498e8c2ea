import StateSpace.Proofs.Formula.Scope
import StateSpace.Proofs.Record.System

/-!
# Writing what was read

A written system names its variables once, in front of its labels, so it does not tell over which of
them a label ranges. Reading it back gives every label all of them, and everything else as it was
(`Record.readSystem_ofSystem_eq`): the system read is the one written, `widened`. Widening changes
neither the text of a system nor its written form, so whatever text a system was read from, its
written form is stable from then on (`Record.readSystem_normalises`).

What the reader accepts can always be written: between two marks it finds neither of them, within a
line it finds no line feed, and the constants that it accepts are portable (`Record.Gives`).
-/

namespace StateSpace

/-! ## Widened systems -/

/-- The system with every label over all its variables. -/
def System.widened (s : System) : System :=
  { s with labels := s.labels.map fun l => { l with stateVariables := s.stateVariables } }

namespace System

variable {s : System}

theorem text_widened (s : System) : s.widened.text = s.text := by
  rw [text, text, widened, List.map_map]
  rfl

theorem widened_eq_self (h : ∀ l ∈ s.labels, l.stateVariables = s.stateVariables) :
    s.widened = s := by
  have hLabel : ∀ l ∈ s.labels, { l with stateVariables := s.stateVariables } = l := by
    intro l hl
    rw [← h l hl]
  rw [widened, List.map_congr_left hLabel, List.map_id']

/-- Declaring variables keeps those that are there. -/
theorem subset_addVariables (s : System) (xs : List Variable) :
    s.stateVariables ⊆ (s.addVariables xs).stateVariables := by
  induction xs generalizing s with
  | nil => exact fun _ hx => hx
  | cons x xs ih =>
    intro y hy
    refine ih (s.addVariable x) ?_
    unfold addVariable
    split
    · exact hy
    · exact List.mem_append_left _ hy

end System

/-! ## Systems made of certain expressions -/

/-- The label was assembled over some of the given variables, its names are plain, and all its
expressions have a property. -/
structure Label.MadeOf (E : Expr → Prop) (xs : List Variable) (l : Label) : Prop where
  assembled : l.Assembled
  ranges : l.stateVariables ⊆ xs
  name : Record.Plain l.name
  parameters : ∀ x ∈ l.parameters, Record.Plain x.name
  preconditions : ∀ e ∈ l.preconditions, E e
  effects : ∀ entry ∈ l.effects, Record.Plain entry.1.name ∧ E entry.2

/-- The system was assembled, its names are plain, and all its expressions have a property. -/
structure System.MadeOf (E : Expr → Prop) (s : System) : Prop where
  assembled : s.Assembled
  declared : ∀ x ∈ s.stateVariables, Record.Plain x.name
  initialValues : ∀ entry ∈ s.initialValues, Record.Plain entry.1.name ∧ E entry.2
  labels : ∀ l ∈ s.labels, l.MadeOf E s.stateVariables

namespace Label.MadeOf

variable {E : Expr → Prop} {xs ys : List Variable} {l l' : Label}

theorem mono (h : l.MadeOf E xs) (hSub : xs ⊆ ys) : l.MadeOf E ys :=
  { h with ranges := fun _ hx => hSub (h.ranges hx) }

theorem new {name : String} (hName : Record.Plain name) :
    MadeOf E xs { name, stateVariables := xs } where
  assembled := .new name xs
  ranges := fun _ hx => hx
  name := hName
  parameters := by simp
  preconditions := by simp
  effects := by simp

theorem flag (h : l.MadeOf E xs) (isError isConstructor : Bool) :
    MadeOf E xs { l with isError, isConstructor } :=
  { h with assembled := h.assembled.flag isError isConstructor }

/-- Adding a parameter with a plain name. -/
theorem addParameter {x : Variable} (h : l.MadeOf E xs) (hx : Record.Plain x.name) :
    (l.addParameter x).MadeOf E xs := by
  have hAssembled := h.assembled.parameter x
  unfold Label.addParameter at hAssembled ⊢
  split
  · exact h
  · next hNew =>
    rw [if_neg hNew] at hAssembled
    refine { h with assembled := hAssembled, parameters := ?_ }
    intro y hy
    rcases List.mem_append.mp hy with hOld | hLast
    · exact h.parameters y hOld
    · exact List.mem_singleton.mp hLast ▸ hx

theorem addParameters {ys : List Variable} (h : l.MadeOf E xs)
    (hys : ∀ y ∈ ys, Record.Plain y.name) : (ys.foldl Label.addParameter l).MadeOf E xs := by
  induction ys generalizing l with
  | nil => exact h
  | cons y ys ih =>
    obtain ⟨hy, hRest⟩ := List.forall_mem_cons.mp hys
    exact ih (h.addParameter hy) hRest

theorem addPrecondition {e : Expr} (h : l.MadeOf E xs) (he : E e) :
    (l.addPrecondition e).MadeOf E xs := by
  refine { h with assembled := h.assembled.precondition e, preconditions := ?_ }
  intro e' he'
  rcases List.mem_append.mp he' with hOld | hLast
  · exact h.preconditions e' hOld
  · exact List.mem_singleton.mp hLast ▸ he

/-- Adding an effect with the property. -/
theorem addEffect {x : Variable} {e : Expr} (h : l.MadeOf E xs) (hx : Record.Plain x.name)
    (he : E e) (hAdd : l.addEffect? x e = some l') : l'.MadeOf E xs := by
  have hAssembled := h.assembled.effect x e hAdd
  obtain ⟨-, hSome⟩ := Option.ite_none_right_eq_some.mp hAdd
  cases hSome
  refine { h with assembled := hAssembled, effects := ?_ }
  intro entry hEntry
  rcases Formulas.mem_set hEntry with rfl | hOld
  · exact ⟨hx, he⟩
  · exact h.effects entry hOld

theorem portable (h : l.MadeOf Expr.Portable xs) : l.Portable :=
  ⟨h.name, h.parameters, h.preconditions, h.effects⟩

end Label.MadeOf

namespace System.MadeOf

variable {E : Expr → Prop} {s : System}

theorem empty : MadeOf E {} :=
  ⟨.empty, by simp, by simp, by simp⟩

/-- Declaring a variable with a plain name. -/
theorem addVariable {x : Variable} (h : s.MadeOf E) (hx : Record.Plain x.name) :
    (s.addVariable x).MadeOf E := by
  have hAssembled := h.assembled.declare x
  unfold System.addVariable at hAssembled ⊢
  split
  · exact h
  · next hNew =>
    rw [if_neg hNew] at hAssembled
    refine ⟨hAssembled, ?_, h.initialValues, ?_⟩
    · intro y hy
      rcases List.mem_append.mp hy with hOld | hLast
      · exact h.declared y hOld
      · exact List.mem_singleton.mp hLast ▸ hx
    · intro l hl
      exact (h.labels l hl).mono (List.subset_append_left _ _)

theorem addVariables {xs : List Variable} (h : s.MadeOf E) (hxs : ∀ x ∈ xs, Record.Plain x.name) :
    (s.addVariables xs).MadeOf E := by
  induction xs generalizing s with
  | nil => exact h
  | cons x xs ih =>
    obtain ⟨hx, hRest⟩ := List.forall_mem_cons.mp hxs
    exact ih (h.addVariable hx) hRest

theorem setInitialValue {x : Variable} {name : String} {e : Expr} (h : s.MadeOf E)
    (hFind : s.findVariable? name = some x) (he : E e) : (s.setInitialValue x e).MadeOf E := by
  have hx : x ∈ s.stateVariables := List.mem_of_find?_eq_some hFind
  refine ⟨h.assembled.initialValue name hFind e, h.declared, ?_, h.labels⟩
  intro entry hEntry
  rcases Formulas.mem_set hEntry with rfl | hOld
  · exact ⟨h.declared x hx, he⟩
  · exact h.initialValues entry hOld

theorem addLabel {l : Label} (h : s.MadeOf E) (hl : l.MadeOf E s.stateVariables) :
    (s.addLabel l).MadeOf E := by
  refine ⟨h.assembled.label hl.assembled, h.declared, h.initialValues, ?_⟩
  intro m hm
  rcases List.mem_append.mp hm with hOld | hLast
  · exact h.labels m hOld
  · exact List.mem_singleton.mp hLast ▸ hl

/-- The label over all variables of the system still has its effects on variables it ranges over. -/
theorem distinct_widened (h : s.MadeOf E) : s.widened.Distinct := by
  have hDistinct := h.assembled.distinct
  refine ⟨hDistinct.declared, hDistinct.initialValues, hDistinct.found, ?_⟩
  intro l hl
  obtain ⟨m, hm, rfl⟩ := List.mem_map.mp hl
  obtain ⟨hParameters, hEffects, hDeclared⟩ := hDistinct.labels m hm
  exact ⟨hParameters, hEffects, fun x hx => (h.labels m hm).ranges (hDeclared x hx)⟩

theorem portable_widened (h : s.MadeOf Expr.Portable) : s.widened.Portable := by
  refine ⟨h.declared, h.initialValues, ?_⟩
  intro l hl
  obtain ⟨m, hm, rfl⟩ := List.mem_map.mp hl
  obtain ⟨hName, hParameters, hPreconditions, hEffects⟩ := (h.labels m hm).portable
  exact ⟨⟨hName, hParameters, hPreconditions, hEffects⟩, rfl⟩

end System.MadeOf

namespace Record

variable {α β : Type} {P : α → Prop} {Q : β → Prop} {line : Nat} {step : Scan α} {s : System}

theorem ofSystem_widened (s : System) : ofSystem s.widened = ofSystem s := by
  rw [ofSystem, ofSystem, System.widened, List.map_map]
  rfl

/-- What is written of a system is read back with every label over all variables. -/
theorem readSystem_ofSystem_eq (h : s.MadeOf Expr.Portable) :
    readSystem (ofSystem s) = .ok s.widened := by
  rw [← ofSystem_widened]
  refine ReadsLines.readSystem_eq ?_
  rw [lines_ofSystem h.portable_widened]
  exact readsLines_linesOf h.distinct_widened h.portable_widened

/-! ## What the reader accepts -/

/-- From characters without a line feed, whatever the step returns has the property, and no line
feed is left. -/
def Gives (P : α → Prop) (step : Scan α) : Prop :=
  ∀ cs, '\n' ∉ cs → Yields (fun r => P r.1 ∧ '\n' ∉ r.2) (step cs)

theorem Gives.pure {a : α} (h : P a) : Gives P (pure a) :=
  fun _ hcs => .ok ⟨h, hcs⟩

theorem Gives.throw (failure : Failure) : Gives P (throw failure) :=
  fun _ _ => .error failure

theorem Gives.bind {k : α → Scan β} (h : Gives P step) (hk : ∀ a, P a → Gives Q (k a)) :
    Gives Q (step >>= k) :=
  fun cs hcs => Yields.bind (h cs hcs) fun r hr => hk r.1 hr.1 r.2 hr.2

theorem Gives.get_bind {k : List Char → Scan β} (h : ∀ cs, Gives Q (k cs)) : Gives Q (get >>= k) :=
  fun cs hcs => h cs cs hcs

theorem Gives.fail (fault : Fault) : Gives P (fail line fault) :=
  .throw _

theorem Gives.failAt (fault : String → Fault) : Gives P (failAt line fault) :=
  .get_bind fun _ => .fail _

theorem Gives.mono {P' : α → Prop} (h : Gives P step) (hP : ∀ a, P a → P' a) : Gives P' step := by
  intro cs hcs r hr
  obtain ⟨hGiven, hLeft⟩ := h cs hcs r hr
  exact ⟨hP r.1 hGiven, hLeft⟩

theorem Gives.map (f : α → β) (h : Gives P step) (hf : ∀ a, P a → Q (f a)) :
    Gives Q (step >>= fun a => Pure.pure (f a)) :=
  h.bind fun a ha => .pure (hf a ha)

theorem gives_tag : Gives (fun _ => True) (tag line) := by
  intro cs hcs
  have hFail : Gives (fun _ => True) (failAt line .expectedTag : Scan Char) := .failAt _
  unfold tag
  rw [get_bind_run]
  split
  · refine .ok ⟨trivial, ?_⟩
    exact fun hMem => hcs (List.mem_cons_of_mem _ (List.mem_cons_of_mem _ hMem))
  · exact hFail cs hcs

theorem gives_expect (token : String) : Gives (fun _ => True) (expect line token) := by
  intro cs hcs
  have hFail : Gives (fun _ => True) (failAt line (.expected token) : Scan Unit) := .failAt _
  unfold expect
  rw [get_bind_run]
  split
  · exact .ok ⟨trivial, fun hMem => hcs (List.mem_of_mem_drop hMem)⟩
  · exact hFail cs hcs

/-- The text in front of a mark does not hold the mark. -/
theorem gives_upTo (mark : Char) :
    Gives (fun text => mark ∉ text.toList ∧ '\n' ∉ text.toList) (upTo line mark) := by
  intro cs hcs
  rw [upTo, get_bind_run]
  cases hSplit : Text.splitOnce mark cs with
  | none => exact .error _
  | some parts =>
    obtain ⟨text, rest⟩ := parts
    obtain ⟨rfl, hMark⟩ := Text.splitOnce_eq_some hSplit
    obtain ⟨hText, hRest⟩ := not_or.mp (mt List.mem_append.mpr hcs)
    refine .ok ⟨?_, fun hMem => hRest (List.mem_cons_of_mem _ hMem)⟩
    simpa using ⟨hMark, hText⟩

theorem gives_name : Gives Plain (upTo line ':') :=
  gives_upTo ':'

theorem gives_type : Gives (fun _ => True) (type line) := by
  refine (gives_upTo ';').bind fun token _ => ?_
  unfold ValueType.read
  split
  · exact .pure trivial
  · exact .throw _

theorem gives_operator (ofName? : String → Option α) :
    Gives (fun _ => True) (operator line ofName?) := by
  refine (gives_expect "o:").bind fun _ _ => (gives_upTo ';').bind fun name _ => ?_
  split
  · exact .pure trivial
  · exact .fail _

theorem gives_variableBody : Gives (fun x => Plain x.name) (variableBody line) := by
  refine gives_name.bind fun name hName => ?_
  exact gives_type.map (Variable.mk name) fun _ _ => hName

theorem gives_variableToken : Gives (fun x => Plain x.name) (variableToken line) := by
  refine gives_tag.bind fun c _ => ?_
  split
  · exact (Gives.fail (P := fun _ => True) _).bind fun _ _ => gives_variableBody
  · exact gives_variableBody

theorem gives_variableTokens (count : Nat) :
    Gives (fun xs => xs.length = count ∧ ∀ x ∈ xs, Plain x.name) (variableTokens line count) := by
  induction count with
  | zero => exact .pure ⟨rfl, by simp⟩
  | succ count ih =>
    refine gives_variableToken.bind fun x hx => ih.map (x :: ·) fun xs hxs => ?_
    exact ⟨by rw [List.length_cons, hxs.1], List.forall_mem_cons.mpr ⟨hx, hxs.2⟩⟩

/-- Constants that are read are portable: whole numbers are wrapped, and reals are numerals. -/
theorem portable_of_parse? {text : String} {t : ValueType} {v : Value}
    (h : Value.parse? text t = some v) : v.Portable := by
  have hInt : ∀ t : ValueType, t.isInteger = true →
      (Text.signed128? (Text.trim text.toList)).map (Value.ofInt · t) = some v → v.Portable := by
    intro t ht hRead
    obtain ⟨n, -, rfl⟩ := Option.map_eq_some_iff.mp hRead
    exact ⟨ht, t.fits_wrap n⟩
  match t with
  | .signed w => exact hInt (.signed w) rfl h
  | .unsigned w => exact hInt (.unsigned w) rfl h
  | .bool =>
    unfold Value.parse? at h
    simp only at h
    split at h
    · cases h
      trivial
    · cases h
      trivial
    · cases h
  | .real p =>
    obtain ⟨hReal, hSome⟩ := Option.ite_none_right_eq_some.mp h
    cases hSome
    refine ⟨rfl, ?_, ?_⟩ <;> rw [String.toList_ofList]
    · exact Text.trim_of_isReal hReal
    · exact hReal

theorem gives_constantBody : Gives Expr.Portable (constantBody line) := by
  refine (gives_upTo ':').bind fun text _ => gives_type.bind fun t _ => ?_
  split
  · next v hv => exact .pure (portable_of_parse? hv)
  · exact .fail _

/-- Quantified variables have plain names, and their number fits a word. -/
theorem gives_boundVariables :
    Gives (fun xs => xs.length < Nat.pow 2 64 ∧ ∀ x ∈ xs, Plain x.name) (boundVariables line) := by
  refine (gives_upTo ';').bind fun text _ => ?_
  split
  · next count hCount =>
    obtain ⟨-, hlt⟩ := Option.filter_eq_some_iff.mp hCount
    refine (gives_variableTokens count).mono fun xs hxs => ⟨?_, hxs.2⟩
    rw [hxs.1]
    simpa using hlt
  · exact .fail _

/-- An operator and two operands. -/
theorem gives_binary {operand : Scan Expr} (ofName? : String → Option α)
    (node : α → Expr → Expr → Expr) (hOperand : Gives Expr.Portable operand)
    (hNode : ∀ op l r, l.Portable → r.Portable → (node op l r).Portable) :
    Gives Expr.Portable (do
      let op ← operator line ofName?
      let l ← operand
      return node op l (← operand)) := by
  refine (gives_operator ofName?).bind fun op _ => hOperand.bind fun l hl => ?_
  exact hOperand.map (node op l) fun r hr => hNode op l r hl hr

/-- Expressions that are read can be written and read again. -/
theorem gives_exprUpTo (depth : Nat) : Gives Expr.Portable (exprUpTo line depth) := by
  induction depth with
  | zero => exact .failAt _
  | succ depth ih =>
    unfold exprUpTo
    refine gives_tag.bind fun c _ => ?_
    split
    · exact gives_variableBody.map Expr.var fun x hx => hx
    · exact gives_constantBody
    · exact ih.map Expr.not fun e he => he
    · exact ih.map Expr.negate fun e he => he
    · exact ih.map Expr.complement fun e he => he
    · exact gives_type.bind fun t _ => ih.map (Expr.cast t) fun e he => he
    · exact gives_binary _ Expr.logical ih fun _ _ _ hl hr => ⟨hl, hr⟩
    · exact gives_binary _ Expr.compare ih fun _ _ _ hl hr => ⟨hl, hr⟩
    · exact gives_binary _ Expr.arith ih fun _ _ _ hl hr => ⟨hl, hr⟩
    · exact gives_binary _ Expr.bitwise ih fun _ _ _ hl hr => ⟨hl, hr⟩
    · refine (gives_operator _).bind fun q _ => gives_boundVariables.bind fun xs hxs => ?_
      exact ih.map (Expr.quantified q xs) fun body hBody => ⟨hxs.1, hxs.2, hBody⟩
    · exact .fail _

theorem gives_expr : Gives Expr.Portable (expr line) :=
  .get_bind fun cs => gives_exprUpTo cs.length

/-! ## Labels and records -/

theorem gives_atSemicolon : Gives (fun _ => True) atSemicolon :=
  .get_bind fun _ => .pure trivial

/-- Items keep what each of them keeps. -/
theorem gives_allItems {item : α → Scan α} (hItem : ∀ acc, P acc → Gives P (item acc)) {acc : α}
    (hAcc : P acc) : Gives P (allItems item acc) := by
  have hItems : ∀ bound acc, P acc → Gives P (items item bound acc) := by
    intro bound
    induction bound with
    | zero =>
      intro acc hAcc
      refine gives_atSemicolon.bind fun last _ => ?_
      split
      · exact .pure hAcc
      · exact hItem acc hAcc
    | succ bound ih =>
      intro acc hAcc
      refine gives_atSemicolon.bind fun last _ => ?_
      split
      · exact .pure hAcc
      · exact (hItem acc hAcc).bind ih
  exact .get_bind fun cs => hItems cs.length acc hAcc

theorem gives_effect {xs : List Variable} {l : Label} (hl : l.MadeOf Expr.Portable xs) :
    Gives (Label.MadeOf Expr.Portable xs) (effect line l) := by
  refine (gives_expect "e:").bind fun _ _ => gives_variableToken.bind fun x hx => ?_
  refine gives_expr.bind fun e he => (gives_expect ";").bind fun _ _ => ?_
  cases hAdd : l.addEffect? x e with
  | none => exact .throw _
  | some l' => exact .pure (hl.addEffect hx he hAdd)

/-- Labels that are read are made of portable expressions. -/
theorem gives_label (s : System) :
    Gives (Label.MadeOf Expr.Portable s.stateVariables) (label line s) := by
  refine gives_name.bind fun name hName => (gives_upTo ';').bind fun kind _ => ?_
  split
  · exact .fail _
  · next isConstructor isError _ =>
    refine (gives_expect "P:").bind fun _ _ => ?_
    refine (gives_allItems (P := Label.MadeOf Expr.Portable s.stateVariables) (fun l hl => ?_)
      ((Label.MadeOf.new hName).flag isError isConstructor)).bind fun l hl => ?_
    · exact gives_variableToken.map l.addParameter fun x hx => hl.addParameter hx
    refine (gives_expect ";G:").bind fun _ _ =>
      (gives_allItems (fun l hl => ?_) hl).bind fun l hl => ?_
    · exact gives_expr.map l.addPrecondition fun e he => hl.addPrecondition he
    refine (gives_expect ";F:").bind fun _ _ =>
      (gives_allItems (fun l hl => ?_) hl).bind fun l hl => ?_
    · exact gives_effect hl
    exact (gives_expect ";").bind fun _ _ => .pure hl

theorem gives_finish : Gives (fun _ => True) (finish line) := by
  refine .get_bind fun cs => ?_
  split
  · exact .failAt _
  · exact .pure trivial

/-- Declared variables have plain names. -/
theorem gives_declarations (bound : Nat) :
    Gives (fun xs => ∀ x ∈ xs, Plain x.name) (declarations line bound) := by
  induction bound with
  | zero => exact .pure (by simp)
  | succ bound ih =>
    refine .get_bind fun cs => ?_
    split
    · exact .pure (by simp)
    · refine gives_variableToken.bind fun x hx => ih.map (x :: ·) fun xs hxs => ?_
      exact List.forall_mem_cons.mpr ⟨hx, hxs⟩

/-- A record keeps a system writable. -/
theorem gives_record (hs : s.MadeOf Expr.Portable) :
    Gives (System.MadeOf Expr.Portable) (record line s) := by
  refine gives_tag.bind fun c _ => ?_
  split
  · refine .get_bind fun cs => (gives_declarations cs.length).map s.addVariables fun xs hxs => ?_
    exact hs.addVariables hxs
  · refine gives_variableToken.bind fun x _ => gives_expr.bind fun e he => ?_
    refine gives_finish.bind fun _ _ => ?_
    split
    · next y hFind => exact .pure (hs.setInitialValue hFind he)
    · exact .throw _
  · refine (gives_label s).bind fun l hl => gives_finish.bind fun _ _ => ?_
    exact .pure (hs.addLabel hl)
  · exact .fail _

/-- Reading a line keeps the system made of portable expressions. -/
theorem yields_readLine (hs : s.MadeOf Expr.Portable) {cs : List Char} (hcs : '\n' ∉ cs) :
    Yields (System.MadeOf Expr.Portable) (readLine s line cs) := by
  have hTrim : '\n' ∉ Text.trimEnd cs := fun hMem => hcs (Text.mem_of_mem_trimEnd hMem)
  unfold readLine
  split
  · exact .ok hs
  · show Yields _ ((record line s (Text.trimEnd cs)).map Prod.fst)
    cases hRun : record line s (Text.trimEnd cs) with
    | error failure => exact .error failure
    | ok r => exact .ok (gives_record hs _ hTrim r hRun).1

/-- Whatever is read from a text can be written. -/
theorem madeOf_readSystem (text : String) :
    Yields (System.MadeOf Expr.Portable) (readSystem text) := by
  have hFold : ∀ (entries : List (Nat × List Char)), (∀ entry ∈ entries, '\n' ∉ entry.2) →
      ∀ s : System, s.MadeOf Expr.Portable →
        Yields (System.MadeOf Expr.Portable)
          (entries.foldlM (fun s entry => readLine s entry.1 entry.2) s) := by
    intro entries
    induction entries with
    | nil => exact fun _ s hs => .ok hs
    | cons entry rest ih =>
      intro hFeed s hs
      obtain ⟨hEntry, hRest⟩ := List.forall_mem_cons.mp hFeed
      rw [List.foldlM_cons]
      exact (yields_readLine hs hEntry).bind fun s' hs' => ih hRest s' hs'
  refine hFold (Text.numberedLines text) ?_ {} .empty
  intro entry hEntry
  obtain ⟨numbered, hMem, rfl⟩ := List.mem_map.mp hEntry
  exact Text.lineFeed_notMem_lines (List.fst_mem_of_mem_zipIdx hMem)

/-- **Writing what was read normalises it.** Whatever text a system was read from, what is written
of it is read again, as the system with every label over all its variables; this system has the same
text and is written in the same way, and from then on nothing changes. -/
theorem readSystem_normalises {text : String} {s : System} (h : readSystem text = .ok s) :
    readSystem (ofSystem s) = .ok s.widened ∧ ofSystem s.widened = ofSystem s ∧
      s.widened.text = s.text ∧ readSystem (ofSystem s.widened) = .ok s.widened := by
  have hRead := readSystem_ofSystem_eq (madeOf_readSystem text s h)
  refine ⟨hRead, ofSystem_widened s, s.text_widened, ?_⟩
  rw [ofSystem_widened]
  exact hRead

/-- Records that no system is written as: the label stands before a variable, a type name is in
capital letters, an initial value names its variable in another letter case and at another type, one
constant has blanks around it and is out of the range of its type, and another one has a plus
sign. -/
def looseText : String :=
  "D:v:level:SINT8;\n\n" ++
    "L:fall:ok;P:;G:;F:e:v:level:sint8;r:o:EQ;v:level':sint8;c: 200 :sint8;;;  \n" ++
    "D:v:rate:double;\nI:v:LEVEL:bool;r:o:EQ;v:level:sint8;c:+7:sint8;"

/-- What is read from the loose records; the label ranges over one of the two variables. -/
def looseSystem : System where
  stateVariables := [⟨"level", .signed .w8⟩, ⟨"rate", .real .double⟩]
  labels := [
    { name := "fall"
      stateVariables := [⟨"level", .signed .w8⟩]
      effects := [(⟨"level", .signed .w8⟩, .compare .eq (.var ⟨"level'", .signed .w8⟩)
        (.const (.int (-56) (.signed .w8))))] }]
  initialValues := [(⟨"level", .signed .w8⟩, .compare .eq (.var ⟨"level", .signed .w8⟩)
    (.const (.int 7 (.signed .w8))))]

theorem readSystem_looseText : readSystem looseText = .ok looseSystem :=
  eq_ok_of_toOption (by decide +kernel)

/-- The loose records are normalised, and the label ranges over both variables afterwards. -/
theorem readSystem_normalises_looseText :
    readSystem looseText = .ok looseSystem ∧ looseSystem.widened ≠ looseSystem ∧
      readSystem (ofSystem looseSystem) = .ok looseSystem.widened ∧
      ofSystem looseSystem.widened = ofSystem looseSystem ∧
      looseSystem.widened.text = looseSystem.text ∧
      readSystem (ofSystem looseSystem.widened) = .ok looseSystem.widened :=
  ⟨readSystem_looseText, by decide, readSystem_normalises readSystem_looseText⟩

end Record

end StateSpace
