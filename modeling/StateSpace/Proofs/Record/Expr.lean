import StateSpace.Proofs.Text
import StateSpace.Proofs.ValueType
import StateSpace.Record.Reader
import StateSpace.Record.Writer

/-!
# Reading back expressions

The written forms of expressions are a prefix code: in front of any characters, the reader takes the
written form of an expression and nothing else (`Record.reads_expr`). This holds for expressions
that are `Portable`. Their names hold no colon, which ends a name in a record, and no line feed,
which ends the record; their constants are in the range of their types.
-/

namespace StateSpace

/-! ## Portable expressions -/

/-- The text holds neither a colon nor a line feed. -/
def Record.Plain (text : String) : Prop :=
  ':' ∉ text.toList ∧ '\n' ∉ text.toList

instance (text : String) : Decidable (Record.Plain text) :=
  inferInstanceAs (Decidable (_ ∧ _))

/-- Whole numbers are in the range of an integer type, and reals are numerals without blanks around
them. -/
def Value.Portable : Value → Prop
  | .bool _ => True
  | .int n t => t.isInteger = true ∧ t.Fits n
  | .real text t =>
    t.isReal = true ∧ Text.trim text.toList = text.toList ∧ Text.isReal text.toList = true

/-- All names are plain and all constants portable, and the variables of a quantifier can be counted
in a machine word. -/
def Expr.Portable : Expr → Prop
  | .const v => v.Portable
  | .var x => Record.Plain x.name
  | .not e => e.Portable
  | .logical _ l r => l.Portable ∧ r.Portable
  | .compare _ l r => l.Portable ∧ r.Portable
  | .arith _ l r => l.Portable ∧ r.Portable
  | .bitwise _ l r => l.Portable ∧ r.Portable
  | .negate e => e.Portable
  | .complement e => e.Portable
  | .cast _ e => e.Portable
  | .quantified _ xs body =>
    xs.length < Nat.pow 2 64 ∧ (∀ x ∈ xs, Record.Plain x.name) ∧ body.Portable

instance Value.decidablePortable : (v : Value) → Decidable v.Portable
  | .bool _ => isTrue trivial
  | .int _ _ => inferInstanceAs (Decidable (_ ∧ _))
  | .real _ _ => inferInstanceAs (Decidable (_ ∧ _ ∧ _))

instance Expr.decidablePortable : (e : Expr) → Decidable e.Portable
  | .const v => v.decidablePortable
  | .var x => inferInstanceAs (Decidable (Record.Plain x.name))
  | .not e => e.decidablePortable
  | .logical _ l r => @instDecidableAnd _ _ l.decidablePortable r.decidablePortable
  | .compare _ l r => @instDecidableAnd _ _ l.decidablePortable r.decidablePortable
  | .arith _ l r => @instDecidableAnd _ _ l.decidablePortable r.decidablePortable
  | .bitwise _ l r => @instDecidableAnd _ _ l.decidablePortable r.decidablePortable
  | .negate e => e.decidablePortable
  | .complement e => e.decidablePortable
  | .cast _ e => e.decidablePortable
  | .quantified _ xs body =>
    have := body.decidablePortable
    inferInstanceAs (Decidable (xs.length < Nat.pow 2 64 ∧ _ ∧ body.Portable))

/-- Portable but for reals, whose texts need not be numerals and hold only neither blanks nor
colons. -/
def Value.Legible : Value → Prop
  | .bool _ => True
  | .int n t => t.isInteger = true ∧ t.Fits n
  | .real text t => t.isReal = true ∧ ∀ c ∈ text.toList, Text.isBlank c = false ∧ c ≠ ':'

/-- All names are plain and all constants legible, and the variables of a quantifier can be counted
in a machine word. -/
def Expr.Legible : Expr → Prop
  | .const v => v.Legible
  | .var x => Record.Plain x.name
  | .not e | .negate e | .complement e | .cast _ e => e.Legible
  | .logical _ l r | .compare _ l r | .arith _ l r | .bitwise _ l r => l.Legible ∧ r.Legible
  | .quantified _ xs body =>
    xs.length < Nat.pow 2 64 ∧ (∀ x ∈ xs, Record.Plain x.name) ∧ body.Legible

theorem Value.Portable.legible {v : Value} (h : v.Portable) : v.Legible := by
  match v, h with
  | .bool _, _ => trivial
  | .int _ _, h => exact h
  | .real text _, ⟨ht, _, hReal⟩ =>
    refine ⟨ht, fun c hc => ⟨Text.isBlank_of_isReal hReal hc, ?_⟩⟩
    rintro rfl
    exact Text.Foreign.notMem_of_isReal (by decide) hReal hc

/-- What is portable is legible. -/
theorem Expr.Portable.legible {e : Expr} (h : e.Portable) : e.Legible := by
  induction e with
  | const v => exact Value.Portable.legible h
  | var x => exact h
  | not e ih | negate e ih | complement e ih | cast t e ih => exact ih h
  | logical op l r ihl ihr | compare op l r ihl ihr | arith op l r ihl ihr
  | bitwise op l r ihl ihr => exact ⟨ihl h.1, ihr h.2⟩
  | quantified q xs body ih => exact ⟨h.1, h.2.1, ih h.2.2⟩

/-- The text of a legible value is plain. -/
theorem Value.Legible.plain_text {v : Value} (h : v.Legible) : Record.Plain v.text := by
  match v, h with
  | .bool true, _ => decide
  | .bool false, _ => decide
  | .int n _, _ =>
    exact ⟨Text.Foreign.notMem_toString (by decide) n, Text.Foreign.notMem_toString (by decide) n⟩
  | .real text _, ⟨_, hText⟩ =>
    refine ⟨fun hColon => (hText ':' hColon).2 rfl, fun hFeed => ?_⟩
    exact absurd (hText '\n' hFeed).1 (by decide)

/-- A number in the range of an integer type fits the widest word that numerals are read into. -/
theorem ValueType.Fits.fits128 {t : ValueType} {n : Int} (h : t.Fits n) (ht : t.isInteger = true) :
    Text.fits128 n = true := by
  have hBounds : -2 ^ 63 ≤ n ∧ n < 2 ^ 64 := by
    match t, ht with
    | .signed w, _ =>
      have hRange := (fits_signed_iff (k := w.bits - 1) (by cases w <;> rfl) rfl).mp h
      cases w <;> simp only [Width.bits] at hRange <;> omega
    | .unsigned w, _ =>
      have hRange := (fits_unsigned_iff rfl rfl).mp h
      cases w <;> simp only [Width.bits] at hRange <;> omega
  simp only [Text.fits128, Bool.and_eq_true, decide_eq_true_eq, Nat.pow_eq]
  omega

/-- A portable value is read from its text. -/
theorem Value.Portable.parse?_text {v : Value} (h : v.Portable) :
    parse? v.text v.type = some v := by
  match v, h with
  | .bool true, _ => decide +kernel
  | .bool false, _ => decide +kernel
  | .int n t, ⟨ht, hFits⟩ =>
    have hRead : (Text.signed128? (Text.trim (toString n).toList)).map (ofInt · t) =
        some (.int n t) := by
      rw [Text.trim_toString, Text.signed128?_toString (hFits.fits128 ht), Option.map_some, ofInt,
        hFits]
    match t, ht with
    | .signed _, _ => exact hRead
    | .unsigned _, _ => exact hRead
  | .real text (.real p), ⟨_, hTrim, hReal⟩ =>
    show (if Text.isReal (Text.trim text.toList) then
      some (Value.real (String.ofList (Text.trim text.toList)) (.real p)) else none) = _
    rw [hTrim, if_pos hReal, String.ofList_toList]

/-- A legible value that is not portable is not read from its text. -/
theorem Value.Legible.parse?_text_eq_none {v : Value} (h : v.Legible) (hBad : ¬v.Portable) :
    parse? v.text v.type = none := by
  match v, h with
  | .bool _, _ => exact absurd trivial hBad
  | .int _ _, h => exact absurd h hBad
  | .real text (.real p), h =>
    have hTrim : Text.trim text.toList = text.toList :=
      Text.trim_eq_self fun c hc => (h.2 c hc).1
    have hReal : ¬Text.isReal (Text.trim text.toList) = true := by
      rw [hTrim]
      exact fun hNumeral => hBad ⟨rfl, hTrim, hNumeral⟩
    exact if_neg hReal

theorem ValueType.notMem_name (t : ValueType) : ';' ∉ t.name.toList ∧ '\n' ∉ t.name.toList := by
  match t with
  | .signed w => cases w <;> decide
  | .unsigned w => cases w <;> decide
  | .bool => decide
  | .real p => cases p <;> decide

namespace Record

variable {α β : Type} {line : Nat} {step : Scan α} {a : α} {b : β} {cs cs' : List Char}

/-! ## Steps that read a text -/

/-- In front of any characters, the step takes exactly the text and gives the value. -/
def Reads (step : Scan α) (cs : List Char) (a : α) : Prop :=
  ∀ rest, step (cs ++ rest) = .ok (a, rest)

theorem reads_pure (a : α) : Reads (pure a) [] a :=
  fun _ => rfl

theorem Reads.bind {k : α → Scan β} (h : Reads step cs a) (hk : Reads (k a) cs' b) :
    Reads (step >>= k) (cs ++ cs') b := by
  intro rest
  rw [List.append_assoc]
  show (step (cs ++ (cs' ++ rest))).bind (fun p => k p.1 p.2) = _
  rw [h]
  exact hk rest

theorem Reads.map (f : α → β) (h : Reads step cs a) :
    Reads (step >>= fun a => pure (f a)) cs (f a) := by
  simpa using h.bind (k := fun a => pure (f a)) (reads_pure (f a))

/-- The step fails on the text, whatever follows it. -/
def Refuses (step : Scan α) (cs : List Char) : Prop :=
  ∀ rest, ∃ failure, step (cs ++ rest) = .error failure

theorem refuses_fail (fault : Fault) : Refuses (fail line fault : Scan α) [] :=
  fun _ => ⟨_, rfl⟩

theorem Refuses.bind {k : α → Scan β} (h : Refuses step cs) (cs' : List Char) :
    Refuses (step >>= k) (cs ++ cs') := by
  intro rest
  obtain ⟨failure, hRun⟩ := h (cs' ++ rest)
  refine ⟨failure, ?_⟩
  rw [List.append_assoc]
  show (step (cs ++ (cs' ++ rest))).bind _ = _
  rw [hRun]
  rfl

theorem Reads.refuses {k : α → Scan β} (h : Reads step cs a) (hk : Refuses (k a) cs') :
    Refuses (step >>= k) (cs ++ cs') := by
  intro rest
  obtain ⟨failure, hRun⟩ := hk rest
  refine ⟨failure, ?_⟩
  rw [List.append_assoc]
  show (step (cs ++ (cs' ++ rest))).bind (fun p => k p.1 p.2) = _
  rw [h]
  exact hRun

/-- The step reads the text if the condition holds, and refuses it otherwise. -/
structure ReadsIf (c : Prop) (step : Scan α) (cs : List Char) (a : α) : Prop where
  reads : c → Reads step cs a
  refuses : ¬c → Refuses step cs

theorem Reads.readsIf {c : Prop} (h : Reads step cs a) (hc : c) : ReadsIf c step cs a :=
  ⟨fun _ => h, fun hNot => absurd hc hNot⟩

/-- The sequence rule: both parts have to be readable. -/
theorem ReadsIf.bind {c d : Prop} {k : α → Scan β} (h : ReadsIf c step cs a)
    (hk : ReadsIf d (k a) cs' b) : ReadsIf (c ∧ d) (step >>= k) (cs ++ cs') b := by
  constructor
  · intro hBoth
    exact (h.reads hBoth.1).bind (hk.reads hBoth.2)
  · intro hNot
    by_cases hc : c
    · exact (h.reads hc).refuses (hk.refuses fun hd => hNot ⟨hc, hd⟩)
    · exact (h.refuses hc).bind cs'

/-- Behind a step that reads its text, the condition is the one of the rest. -/
theorem Reads.bindIf {c : Prop} {k : α → Scan β} (h : Reads step cs a)
    (hk : ReadsIf c (k a) cs' b) : ReadsIf c (step >>= k) (cs ++ cs') b :=
  ⟨fun hc => h.bind (hk.reads hc), fun hNot => h.refuses (hk.refuses hNot)⟩

/-- In front of a step that reads its text, the condition is the one of the step before. -/
theorem ReadsIf.bindReads {c : Prop} {k : α → Scan β} (h : ReadsIf c step cs a)
    (hk : Reads (k a) cs' b) : ReadsIf c (step >>= k) (cs ++ cs') b :=
  ⟨fun hc => (h.reads hc).bind hk, fun hNot => (h.refuses hNot).bind cs'⟩

theorem ReadsIf.map {c : Prop} (f : α → β) (h : ReadsIf c step cs a) :
    ReadsIf c (step >>= fun a => pure (f a)) cs (f a) := by
  have hRead : ReadsIf c (step >>= fun a => pure (f a)) (cs ++ []) (f a) :=
    h.bindReads (reads_pure (f a))
  rwa [List.append_nil] at hRead

theorem get_bind_run (k : List Char → Scan α) : (get >>= k) cs = k cs cs :=
  rfl

theorem reads_tag (c : Char) : Reads (tag line) [c, ':'] c :=
  fun _ => rfl

theorem reads_expect (token : String) : Reads (expect line token) token.toList () := by
  intro rest
  have hFront : token.toList.isPrefixOf (token.toList ++ rest) = true := by simp
  rw [expect, get_bind_run, if_pos hFront]
  show Except.ok ((), (token.toList ++ rest).drop token.length) = _
  rw [← String.length_toList, List.drop_left]

theorem reads_upTo {mark : Char} {text : String} (h : mark ∉ text.toList) :
    Reads (upTo line mark) (text.toList ++ [mark]) text := by
  intro rest
  rw [List.append_assoc, List.singleton_append, upTo, get_bind_run, Text.splitOnce_append h]
  show Except.ok (String.ofList text.toList, rest) = _
  rw [String.ofList_toList]

theorem reads_type (t : ValueType) : Reads (type line) (t.name.toList ++ [';']) t := by
  have hRead : Reads (ValueType.read t.name : Scan ValueType) [] t := by
    rw [ValueType.read, t.ofName?_name]
    exact reads_pure t
  rw [← List.append_nil (t.name.toList ++ [';'])]
  exact (reads_upTo t.notMem_name.1).bind hRead

/-- The head of a node with an operator, behind the tag. -/
theorem reads_operator {op : α} {name : String} {ofName? : String → Option α}
    (hMark : ';' ∉ name.toList) (hName : ofName? name = some op) :
    Reads (operator line ofName?) ("o:".toList ++ (name.toList ++ [';'])) op := by
  rw [← List.append_nil (name.toList ++ [';'])]
  refine (reads_expect "o:").bind ((reads_upTo hMark).bind ?_)
  rw [hName]
  exact reads_pure op

/-! ## Variables and constants -/

theorem reads_variableBody {x : Variable} (h : Plain x.name) :
    Reads (variableBody line) (x.name.toList ++ [':'] ++ (x.type.name.toList ++ [';'])) x :=
  (reads_upTo h.1).bind ((reads_type x.type).map (Variable.mk x.name))

theorem toList_ofVariable (x : Variable) : (ofVariable x).toList =
    ['v', ':'] ++ (x.name.toList ++ [':'] ++ (x.type.name.toList ++ [';'])) := by
  simp [ofVariable]

theorem reads_variableToken {x : Variable} (h : Plain x.name) :
    Reads (variableToken line) (ofVariable x).toList x := by
  rw [toList_ofVariable]
  exact (reads_tag 'v').bind (reads_variableBody h)

theorem toList_ofVariables_cons (x : Variable) (xs : List Variable) :
    (ofVariables (x :: xs)).toList = (ofVariable x).toList ++ (ofVariables xs).toList := by
  simp [ofVariables]

theorem reads_variableTokens {xs : List Variable} (h : ∀ x ∈ xs, Plain x.name) :
    Reads (variableTokens line xs.length) (ofVariables xs).toList xs := by
  induction xs with
  | nil => exact reads_pure []
  | cons x xs ih =>
    rw [toList_ofVariables_cons]
    exact (reads_variableToken (h x List.mem_cons_self)).bind
      ((ih fun y hy => h y (List.mem_cons_of_mem x hy)).map (x :: ·))

theorem reads_boundVariables {xs : List Variable} (hCount : xs.length < Nat.pow 2 64)
    (h : ∀ x ∈ xs, Plain x.name) :
    Reads (boundVariables line) ((toString xs.length).toList ++ [';'] ++ (ofVariables xs).toList)
      xs := by
  have hMark : ';' ∉ (toString xs.length).toList :=
    Text.Foreign.notMem_toString (by decide) (xs.length : Int)
  refine (reads_upTo hMark).bind ?_
  rw [Text.unsigned64?_toString hCount]
  exact reads_variableTokens h

/-- Reading back a constant behind its tag. -/
theorem readsIf_constantBody {v : Value} (h : v.Legible) :
    ReadsIf v.Portable (constantBody line)
      (v.text.toList ++ [':'] ++ (v.type.name.toList ++ [';'])) (.const v) := by
  rw [← List.append_nil (v.type.name.toList ++ [';'])]
  refine (reads_upTo h.plain_text.1).bindIf ((reads_type v.type).bindIf ⟨?_, ?_⟩)
  · intro hv
    rw [hv.parse?_text]
    exact reads_pure (Expr.const v)
  · intro hBad
    rw [h.parse?_text_eq_none hBad]
    exact refuses_fail _

/-! ## Expressions -/

/-- An operator in front of two operands, behind the tag. -/
theorem readsIf_binary {c d : Prop} {op : α} {ofName? : String → Option α} {name : String}
    {operand : Scan Expr} {ls rs : List Char} {l r : Expr} (node : α → Expr → Expr → Expr)
    (hMark : ';' ∉ name.toList) (hName : ofName? name = some op) (hl : ReadsIf c operand ls l)
    (hr : ReadsIf d operand rs r) :
    ReadsIf (c ∧ d) (do
        let op ← operator line ofName?
        let l ← operand
        return node op l (← operand))
      ("o:".toList ++ (name.toList ++ [';']) ++ (ls ++ rs)) (node op l r) :=
  (reads_operator hMark hName).bindIf (hl.bind (hr.map (node op l)))

theorem toList_binary (tag : String) (name : String) (l r : Expr) :
    (operatorHead tag name ++ ofExpr l ++ ofExpr r).toList = tag.toList ++ [':'] ++
      ("o:".toList ++ (name.toList ++ [';']) ++ ((ofExpr l).toList ++ (ofExpr r).toList)) := by
  simp [operatorHead]

/-- The written form of an expression starts with its tag, which is no semicolon. -/
theorem exists_toList_ofExpr (e : Expr) :
    ∃ c rest, (ofExpr e).toList = c :: ':' :: rest ∧ c ≠ ';' := by
  cases e with
  | const v => exact ⟨'c', _, by simp [ofExpr]; rfl, by decide⟩
  | var x => exact ⟨'v', _, by simp [ofExpr, ofVariable]; rfl, by decide⟩
  | not e => exact ⟨'n', _, by simp [ofExpr]; rfl, by decide⟩
  | logical op l r => exact ⟨'p', _, toList_binary .., by decide⟩
  | compare op l r => exact ⟨'r', _, toList_binary .., by decide⟩
  | arith op l r => exact ⟨'a', _, toList_binary .., by decide⟩
  | bitwise op l r => exact ⟨'w', _, toList_binary .., by decide⟩
  | negate e => exact ⟨'m', _, by simp [ofExpr]; rfl, by decide⟩
  | complement e => exact ⟨'~', _, by simp [ofExpr]; rfl, by decide⟩
  | cast t e => exact ⟨'k', _, by simp [ofExpr]; rfl, by decide⟩
  | quantified q xs body => exact ⟨'q', _, by simp [ofExpr, operatorHead]; rfl, by decide⟩

/-- With depth enough, the reader takes exactly the written form of a legible expression that is
portable, and refuses any other. -/
theorem readsIf_exprUpTo {e : Expr} (h : e.Legible) {depth : Nat}
    (hDepth : (ofExpr e).toList.length ≤ depth) :
    ReadsIf e.Portable (exprUpTo line depth) (ofExpr e).toList e := by
  induction depth generalizing e with
  | zero =>
    obtain ⟨c, rest, hText, -⟩ := exists_toList_ofExpr e
    rw [hText] at hDepth
    cases hDepth
  | succ depth ih =>
    -- a node writes its tag, so the written forms of its operands are shorter than its own
    have hOperand : ∀ {e' : Expr}, e'.Legible →
        (ofExpr e').toList.length < (ofExpr e).toList.length →
        ReadsIf e'.Portable (exprUpTo line depth) (ofExpr e').toList e' := by
      intro e' he' hlt
      exact ih he' (by omega)
    -- the four kinds of nodes with two operands are written alike
    have hOperands : ∀ {tag name : String} {l r : Expr},
        ofExpr e = operatorHead tag name ++ ofExpr l ++ ofExpr r → l.Legible ∧ r.Legible →
        ReadsIf l.Portable (exprUpTo line depth) (ofExpr l).toList l ∧
          ReadsIf r.Portable (exprUpTo line depth) (ofExpr r).toList r := by
      intro tag name l r he hlr
      have hLength := congrArg (List.length ∘ String.toList) he
      simp only [Function.comp_apply, toList_binary, List.length_append,
        List.length_cons] at hLength
      exact ⟨hOperand hlr.1 (by omega), hOperand hlr.2 (by omega)⟩
    cases e with
    | const v =>
      have hText : (ofExpr (.const v)).toList =
          ['c', ':'] ++ (v.text.toList ++ [':'] ++ (v.type.name.toList ++ [';'])) := by
        simp [ofExpr]
      rw [hText]
      exact (reads_tag 'c').bindIf (readsIf_constantBody h)
    | var x =>
      rw [ofExpr, toList_ofVariable]
      exact Reads.readsIf ((reads_tag 'v').bind (Reads.map Expr.var (reads_variableBody h))) h
    | not e =>
      have hText : (ofExpr (.not e)).toList = ['n', ':'] ++ (ofExpr e).toList := by simp [ofExpr]
      have he : ReadsIf e.Portable (exprUpTo line depth) (ofExpr e).toList e :=
        hOperand h (by grind)
      rw [hText]
      exact (reads_tag 'n').bindIf (ReadsIf.map Expr.not he)
    | logical op l r =>
      obtain ⟨hl, hr⟩ := hOperands rfl h
      rw [ofExpr, toList_binary]
      exact (reads_tag 'p').bindIf
        (readsIf_binary Expr.logical (by cases op <;> decide) (by cases op <;> rfl) hl hr)
    | compare op l r =>
      obtain ⟨hl, hr⟩ := hOperands rfl h
      rw [ofExpr, toList_binary]
      exact (reads_tag 'r').bindIf
        (readsIf_binary Expr.compare (by cases op <;> decide) (by cases op <;> rfl) hl hr)
    | arith op l r =>
      obtain ⟨hl, hr⟩ := hOperands rfl h
      rw [ofExpr, toList_binary]
      exact (reads_tag 'a').bindIf
        (readsIf_binary Expr.arith (by cases op <;> decide) (by cases op <;> rfl) hl hr)
    | bitwise op l r =>
      obtain ⟨hl, hr⟩ := hOperands rfl h
      rw [ofExpr, toList_binary]
      exact (reads_tag 'w').bindIf
        (readsIf_binary Expr.bitwise (by cases op <;> decide) (by cases op <;> rfl) hl hr)
    | negate e =>
      have hText : (ofExpr (.negate e)).toList = ['m', ':'] ++ (ofExpr e).toList := by
        simp [ofExpr]
      have he : ReadsIf e.Portable (exprUpTo line depth) (ofExpr e).toList e :=
        hOperand h (by grind)
      rw [hText]
      exact (reads_tag 'm').bindIf (ReadsIf.map Expr.negate he)
    | complement e =>
      have hText : (ofExpr (.complement e)).toList = ['~', ':'] ++ (ofExpr e).toList := by
        simp [ofExpr]
      have he : ReadsIf e.Portable (exprUpTo line depth) (ofExpr e).toList e :=
        hOperand h (by grind)
      rw [hText]
      exact (reads_tag '~').bindIf (ReadsIf.map Expr.complement he)
    | cast t e =>
      have hText : (ofExpr (.cast t e)).toList =
          ['k', ':'] ++ (t.name.toList ++ [';'] ++ (ofExpr e).toList) := by
        simp [ofExpr]
      have he : ReadsIf e.Portable (exprUpTo line depth) (ofExpr e).toList e :=
        hOperand h (by grind)
      rw [hText]
      exact (reads_tag 'k').bindIf ((reads_type t).bindIf (ReadsIf.map (Expr.cast t) he))
    | quantified q xs body =>
      obtain ⟨hCount, hPlain, hBody⟩ := h
      have hText : (ofExpr (.quantified q xs body)).toList = ['q', ':'] ++
          ("o:".toList ++ (q.name.toList ++ [';']) ++
            ((toString xs.length).toList ++ [';'] ++ (ofVariables xs).toList ++
              (ofExpr body).toList)) := by
        simp [ofExpr, operatorHead]
      have hb := hOperand hBody (by grind)
      have hq : Reads (operator line Quantifier.ofName?)
          ("o:".toList ++ (q.name.toList ++ [';'])) q :=
        reads_operator (by cases q <;> decide) (by cases q <;> rfl)
      have hPortable : (Expr.quantified q xs body).Portable = body.Portable :=
        propext ⟨fun hp => hp.2.2, fun hp => ⟨hCount, hPlain, hp⟩⟩
      rw [hText, hPortable]
      exact (reads_tag 'q').bindIf (hq.bindIf
        ((reads_boundVariables hCount hPlain).bindIf (ReadsIf.map (Expr.quantified q xs) hb)))

theorem readsIf_expr {e : Expr} (h : e.Legible) :
    ReadsIf e.Portable (expr line) (ofExpr e).toList e :=
  ⟨fun hp rest => (readsIf_exprUpTo h (by simp)).reads hp rest,
    fun hNot rest => (readsIf_exprUpTo h (by simp)).refuses hNot rest⟩

/-- In front of any characters, the reader takes exactly the written form of an expression. -/
theorem reads_expr {e : Expr} (h : e.Portable) : Reads (expr line) (ofExpr e).toList e :=
  (readsIf_expr h.legible).reads h

/-! ## Written forms inside a line -/

theorem lineFeed_notMem_ofVariable {x : Variable} (h : Plain x.name) :
    '\n' ∉ (ofVariable x).toList := by
  simp [toList_ofVariable, h.2, x.type.notMem_name.2]

theorem lineFeed_notMem_ofVariables {xs : List Variable} (h : ∀ x ∈ xs, Plain x.name) :
    '\n' ∉ (ofVariables xs).toList := by
  induction xs with
  | nil => exact List.not_mem_nil
  | cons x xs ih =>
    rw [toList_ofVariables_cons, List.mem_append, not_or]
    exact ⟨lineFeed_notMem_ofVariable (h x List.mem_cons_self),
      ih fun y hy => h y (List.mem_cons_of_mem x hy)⟩

/-- The record of an expression is on one line. -/
theorem lineFeed_notMem_ofExpr {e : Expr} (h : e.Legible) : '\n' ∉ (ofExpr e).toList := by
  induction e with
  | const v => simp [ofExpr, h.plain_text.2, v.type.notMem_name.2]
  | var x => exact lineFeed_notMem_ofVariable h
  | not e ih => simp [ofExpr, ih h]
  | logical op l r ihl ihr =>
    have hHead : '\n' ∉ (operatorHead "p" op.name).toList := by cases op <;> decide
    simp [ofExpr, hHead, ihl h.1, ihr h.2]
  | compare op l r ihl ihr =>
    have hHead : '\n' ∉ (operatorHead "r" op.name).toList := by cases op <;> decide
    simp [ofExpr, hHead, ihl h.1, ihr h.2]
  | arith op l r ihl ihr =>
    have hHead : '\n' ∉ (operatorHead "a" op.name).toList := by cases op <;> decide
    simp [ofExpr, hHead, ihl h.1, ihr h.2]
  | bitwise op l r ihl ihr =>
    have hHead : '\n' ∉ (operatorHead "w" op.name).toList := by cases op <;> decide
    simp [ofExpr, hHead, ihl h.1, ihr h.2]
  | negate e ih => simp [ofExpr, ih h]
  | complement e ih => simp [ofExpr, ih h]
  | cast t e ih => simp [ofExpr, ih h, t.notMem_name.2]
  | quantified q xs body ih =>
    have hHead : '\n' ∉ (operatorHead "q" q.name).toList := by cases q <;> decide
    have hCount : '\n' ∉ (toString xs.length).toList :=
      Text.Foreign.notMem_toString (by decide) (xs.length : Int)
    simp only [ofExpr, String.toList_append, List.mem_append, not_or]
    exact ⟨⟨⟨⟨hHead, hCount⟩, by decide⟩, lineFeed_notMem_ofVariables h.2.1⟩, ih h.2.2⟩

theorem endsVisibly_ofVariable (x : Variable) : Text.EndsVisibly (ofVariable x).toList :=
  ⟨_, ';', String.toList_append .., by decide⟩

theorem endsVisibly_ofExpr (e : Expr) : Text.EndsVisibly (ofExpr e).toList := by
  induction e with
  | const v => exact ⟨_, ';', String.toList_append .., by decide⟩
  | var x => exact endsVisibly_ofVariable x
  | _ =>
    rw [ofExpr, String.toList_append]
    exact Text.EndsVisibly.append _ ‹_›

end Record

end StateSpace
