import StateSpace.Formula.Token
import StateSpace.Proofs.Text

/-!
# Scanning what was written

A token is read up to a character that cannot belong to it. Writers put a space or a closing
parenthesis behind every operand and a space behind every binary operator (`Ends`), so a text is
scanned piece by piece: a piece gives its tokens, whatever follows it (`Spells`).
-/

namespace StateSpace.Formula

open Token

variable {cs rest run : List Char} {ts : List Token} {token : Token} {c : Char} {m : Mark}

/-- What may stand behind an operand. -/
inductive Ends : List Char → Prop
  | nil : Ends []
  | space (cs : List Char) : Ends (' ' :: cs)
  | closing (cs : List Char) : Ends (')' :: cs)

/-- A run of characters ends where an operand does. -/
theorem Ends.takeWhile_append {p : Char → Bool} (h : Ends rest) (hSpace : p ' ' = false)
    (hClosing : p ')' = false) (hRun : ∀ d ∈ run, p d = true) :
    (run ++ rest).takeWhile p = run ∧ (run ++ rest).dropWhile p = rest := by
  rw [List.takeWhile_append_of_pos hRun, List.dropWhile_append_of_pos hRun]
  cases h with
  | nil => simp
  | space => simp [hSpace]
  | closing => simp [hClosing]

/-- The tokens of some characters, for whatever bound is enough. -/
def Scans (cs : List Char) (ts : List Token) : Prop :=
  ∀ bound, cs.length ≤ bound → scanUpTo bound cs = .ok ts

theorem Scans.scan {text : String} (h : Scans text.toList ts) : Token.scan text = .ok ts :=
  h text.length (Nat.le_of_eq String.length_toList)

/-- The names of formulas: a letter, an underscore or a dollar, then name characters, and then a
prime or none. -/
def IsIdentifier (name : String) : Prop :=
  ∃ c run, startsName c = true ∧ (∀ d ∈ run, Text.isNameChar d = true) ∧
    (name.toList = c :: run ∨ name.toList = c :: run ++ [Variable.primeMark])

namespace Scans

theorem nil : Scans [] [] := by
  intro bound _
  cases bound <;> rfl

/-- Spaces are skipped. -/
theorem space (h : Scans cs ts) : Scans (' ' :: cs) ts := by
  intro bound hBound
  cases bound with
  | zero => simp at hBound
  | succ bound =>
    have hSkip : scanUpTo (bound + 1) (' ' :: cs) = scanUpTo (bound + 1) cs := by
      have hTrim : Text.trimStart (' ' :: cs) = Text.trimStart cs := rfl
      rw [scanUpTo, scanUpTo, hTrim]
    rw [hSkip]
    exact h (bound + 1) (Nat.le_of_succ_le hBound)

/-- The first token, and then the rest. -/
theorem cons (hBlank : Text.isBlank c = false) (hNext : next c cs = .ok (token, rest))
    (hle : rest.length ≤ cs.length) (h : Scans rest ts) : Scans (c :: cs) (token :: ts) := by
  intro bound hBound
  cases bound with
  | zero => simp at hBound
  | succ bound =>
    rw [scanUpTo, Text.trimStart_eq_self hBlank]
    simp only [hNext, bind, Except.bind]
    rw [h bound (hle.trans (Nat.le_of_succ_le_succ hBound))]
    rfl

/-! ## Names -/

/-- Characters that start a name are letters, underscores and dollars. -/
theorem of_startsName (h : startsName c = true) :
    Text.isNameChar c = true ∧ c.isDigit = false ∧ Text.isBlank c = false := by
  have hRange : 65 ≤ c.toNat ∧ c.toNat ≤ 90 ∨ 97 ≤ c.toNat ∧ c.toNat ≤ 122 ∨ c.toNat = 95 ∨
      c.toNat = 36 := by
    have hRanges : ((decide (65 ≤ c.val ∧ c.val ≤ 90) ||
          (decide (97 ≤ c.val) && decide (c.val ≤ 122))) ||
        c == '_' || c == '$') = true := h
    have hCases : (65 ≤ c.toNat ∧ c.toNat ≤ 90 ∨ 97 ≤ c.toNat ∧ c.toNat ≤ 122) ∨ c = '_' ∨
      c = '$' := by
      simpa [UInt32.le_iff_toNat_le, or_assoc] using hRanges
    rcases hCases with (hUpper | hLower) | rfl | rfl
    · exact .inl hUpper
    · exact .inr (.inl hLower)
    · exact .inr (.inr (.inl rfl))
    · exact .inr (.inr (.inr rfl))
  refine ⟨?_, ?_, ?_⟩
  · simp only [startsName, Bool.or_eq_true] at h
    simp only [Text.isNameChar, Char.isAlphanum, Bool.or_eq_true]
    rcases h with (hAlpha | hUnderscore) | hDollar
    · exact .inl (.inl (.inl (.inl hAlpha)))
    · exact .inl (.inl (.inr hUnderscore))
    · exact .inl (.inr hDollar)
  · rw [Bool.eq_false_iff]
    intro hDigit
    have hDigits : 48 ≤ c.toNat ∧ c.toNat ≤ 57 := by
      simpa [Char.isDigit, UInt32.le_iff_toNat_le] using hDigit
    omega
  · simp only [Text.isBlank, Bool.or_eq_false_iff, Bool.and_eq_false_iff, decide_eq_false_iff_not,
      beq_eq_false_iff_ne]
    omega

theorem nameAt_append (hRun : ∀ d ∈ run, Text.isNameChar d = true) (hRest : Ends rest) :
    nameAt (run ++ rest) = (run, rest) := by
  obtain ⟨hTake, hDrop⟩ :=
    hRest.takeWhile_append (p := Text.isNameChar) (by decide) (by decide) hRun
  unfold nameAt
  rw [hTake, hDrop]
  cases hRest <;> rfl

theorem nameAt_primed (hRun : ∀ d ∈ run, Text.isNameChar d = true) :
    nameAt (run ++ Variable.primeMark :: rest) = (run ++ [Variable.primeMark], rest) := by
  have hPrime : Text.isNameChar Variable.primeMark = false := by decide
  unfold nameAt
  rw [List.takeWhile_append_of_pos hRun, List.dropWhile_append_of_pos hRun]
  simp [hPrime]

/-- A name is read up to its end, with its prime if it has one. -/
theorem identifier {name : String} (hName : IsIdentifier name) (hRest : Ends rest)
    (h : Scans rest ts) : Scans (name.toList ++ rest) (.name name :: ts) := by
  obtain ⟨c, run, hStart, hRun, hSpelled⟩ := hName
  obtain ⟨hChar, hDigit, hBlank⟩ := of_startsName hStart
  have hAll : ∀ d ∈ c :: run, Text.isNameChar d = true := List.forall_mem_cons.mpr ⟨hChar, hRun⟩
  have hNext : ∀ cs, next c cs = .ok (.name (String.ofList (nameAt (c :: cs)).1),
      (nameAt (c :: cs)).2) := by
    intro cs
    rw [next, if_neg (by simp [hDigit]), if_pos hStart]
  rcases hSpelled with hPlain | hPrimed
  · rw [hPlain, List.cons_append]
    refine cons hBlank ?_ (by simp) h
    rw [hNext, ← List.cons_append, nameAt_append hAll hRest, ← hPlain, String.ofList_toList]
  · rw [hPrimed, List.append_assoc, List.singleton_append, List.cons_append]
    refine cons hBlank ?_ (by simp; omega) h
    rw [hNext, ← List.cons_append, nameAt_primed hAll, ← hPrimed, String.ofList_toList]

/-! ## Numbers -/

/-- A literal is read up to its end. -/
theorem literal (hStart : c.isDigit = true) (hRun : ∀ d ∈ run, isNumberChar d = true)
    (hToken : ofLiteral (c :: run) = .ok token) (hRest : Ends rest) (h : Scans rest ts) :
    Scans (c :: run ++ rest) (token :: ts) := by
  have hAll : ∀ d ∈ c :: run, isNumberChar d = true :=
    List.forall_mem_cons.mpr ⟨by simp [isNumberChar, hStart], hRun⟩
  obtain ⟨hTake, hDrop⟩ := hRest.takeWhile_append (p := isNumberChar) (by decide) (by decide) hAll
  rw [List.cons_append]
  refine cons (Text.isBlank_of_isDigit hStart) ?_ (by simp) h
  rw [next, if_pos hStart, ← List.cons_append, hTake, hDrop, hToken]
  rfl

/-- The digits of a number give the number, if it is not too large. -/
theorem ofLiteral_toDigits {n : Nat} (hn : n < Nat.pow 2 127) :
    ofLiteral (Nat.toDigits 10 n) = .ok (.int n) := by
  have hPoint : (Nat.toDigits 10 n).contains '.' = false := by
    rw [Bool.eq_false_iff]
    intro hMem
    exact absurd (Text.isDigit_of_mem_toDigits (List.contains_iff_mem.mp hMem)) (by decide)
  have hFits : Text.fits128 n = true := by
    simp only [Text.fits128, Bool.and_eq_true, decide_eq_true_eq]
    omega
  rw [ofLiteral, hPoint, Text.signed128?, Text.signed?_toDigits, Option.filter_some, if_pos hFits]
  rfl

/-! ## Marks -/

/-- A mark is read where it is the longest one. -/
theorem mark (hat : Mark.at? (m.text.toList ++ rest) = some m) (h : Scans rest ts) :
    Scans (m.text.toList ++ rest) (.mark m :: ts) := by
  have hFirst : ∃ c tail, m.text.toList = c :: tail ∧ Text.isBlank c = false ∧ c.isDigit = false ∧
      startsName c = false := by
    cases m with
    | connective op => cases op <;> exact ⟨_, _, rfl, by decide, by decide, by decide⟩
    | comparison op => cases op <;> exact ⟨_, _, rfl, by decide, by decide, by decide⟩
    | arithmetic op => cases op <;> exact ⟨_, _, rfl, by decide, by decide, by decide⟩
    | bitwise op => cases op <;> exact ⟨_, _, rfl, by decide, by decide, by decide⟩
    | _ => exact ⟨_, _, rfl, by decide, by decide, by decide⟩
  obtain ⟨c, tail, hText, hBlank, hDigit, hStart⟩ := hFirst
  have hDrop : (m.text.toList ++ rest).drop m.text.length = rest :=
    List.drop_left' String.length_toList
  rw [hText] at hat hDrop ⊢
  rw [List.cons_append]
  refine cons hBlank ?_ (by simp) h
  rw [next, if_neg (by simp [hDigit]), if_neg (by simp [hStart]), ← List.cons_append, hat]
  simp only [hDrop]

/-- A space ends every mark. -/
theorem mark_space (m : Mark) (h : Scans cs ts) :
    Scans (m.text.toList ++ ' ' :: cs) (.mark m :: ts) := by
  refine mark ?_ h.space
  cases m with
  | connective op => cases op <;> rfl
  | comparison op => cases op <;> rfl
  | arithmetic op => cases op <;> rfl
  | bitwise op => cases op <;> rfl
  | _ => rfl

theorem opening (h : Scans cs ts) : Scans ('(' :: cs) (.mark .opening :: ts) :=
  mark (m := .opening) rfl h

theorem closing (h : Scans cs ts) : Scans (')' :: cs) (.mark .closing :: ts) :=
  mark (m := .closing) rfl h

theorem tilde (h : Scans cs ts) : Scans ('~' :: cs) (.mark .tilde :: ts) :=
  mark (m := .tilde) rfl h

theorem bang (hc : c ≠ '=') (h : Scans (c :: cs) ts) :
    Scans ('!' :: c :: cs) (.mark .bang :: ts) := by
  refine mark (m := .bang) ?_ h
  have hNot : ('=' == c) = false := beq_eq_false_iff_ne.mpr hc.symm
  show Mark.at? ('!' :: c :: cs) = some .bang
  simp [Mark.at?, Mark.all, Mark.text, Connective.symbol, Comparison.symbol, Arithmetic.symbol,
    Bitwise.symbol, List.find?, List.isPrefixOf, hNot]

theorem minus (hc : c ≠ '>') (h : Scans (c :: cs) ts) :
    Scans ('-' :: c :: cs) (.mark (.arithmetic .sub) :: ts) := by
  refine mark (m := .arithmetic .sub) ?_ h
  have hNot : ('>' == c) = false := beq_eq_false_iff_ne.mpr hc.symm
  show Mark.at? ('-' :: c :: cs) = some (.arithmetic .sub)
  simp [Mark.at?, Mark.all, Mark.text, Connective.symbol, Comparison.symbol, Arithmetic.symbol,
    Bitwise.symbol, List.find?, List.isPrefixOf, hNot]

end Scans

/-! ## Pieces -/

/-- The characters of a piece give its tokens, whatever follows, and do not start with a character
that would belong to the mark before them. -/
structure Spells (cs : List Char) (ts : List Token) : Prop where
  scans : ∀ {cs' : List Char} {ts' : List Token},
    Ends cs' → Scans cs' ts' → Scans (cs ++ cs') (ts ++ ts')
  starts : ∃ c tail, cs = c :: tail ∧ c ≠ '=' ∧ c ≠ '>'

namespace Spells

variable {csl csr : List Char} {tsl tsr : List Token}

theorem scan {text : String} (h : Spells text.toList ts) : Token.scan text = .ok ts := by
  have hScans := h.scans .nil .nil
  rw [List.append_nil, List.append_nil] at hScans
  exact hScans.scan

/-- A name is one token. -/
theorem identifier {name : String} (hName : IsIdentifier name) :
    Spells name.toList [.name name] where
  scans hEnds hScans := .identifier hName hEnds hScans
  starts := by
    obtain ⟨c, run, hStart, -, hSpelled⟩ := hName
    have hne : c ≠ '=' ∧ c ≠ '>' := by
      constructor <;> rintro rfl <;> exact absurd hStart (by decide)
    rcases hSpelled with hPlain | hPrimed
    · exact ⟨c, run, hPlain, hne⟩
    · exact ⟨c, _, hPrimed, hne⟩

theorem literal (hStart : c.isDigit = true) (hRun : ∀ d ∈ run, isNumberChar d = true)
    (hToken : ofLiteral (c :: run) = .ok token) : Spells (c :: run) [token] where
  scans hEnds hScans := .literal hStart hRun hToken hEnds hScans
  starts := by
    refine ⟨c, run, rfl, ?_⟩
    constructor <;> rintro rfl <;> exact absurd hStart (by decide)

/-- A numeral is one token. -/
theorem whole {n : Nat} (hn : n < Nat.pow 2 127) : Spells (toString n).toList [.int n] := by
  have hDigits : (toString n).toList = Nat.toDigits 10 n := by simp
  have hToken := Scans.ofLiteral_toDigits hn
  have hAll : ∀ d ∈ Nat.toDigits 10 n, d.isDigit = true :=
    fun d hd => Text.isDigit_of_mem_toDigits hd
  rw [hDigits]
  cases hSpelled : Nat.toDigits 10 n with
  | nil => exact absurd hSpelled Nat.toDigits_ne_nil
  | cons c run =>
    rw [hSpelled] at hToken hAll
    obtain ⟨hc, hRun⟩ := List.forall_mem_cons.mp hAll
    exact literal hc (fun d hd => by simp [isNumberChar, hRun d hd]) hToken

theorem decimal (hStart : c.isDigit = true) (hRun : ∀ d ∈ run, isNumberChar d = true)
    (hPoint : '.' ∈ run) (hReal : Text.isReal (c :: run) = true) :
    Spells (c :: run) [.real (String.ofList (c :: run))] := by
  refine literal hStart hRun ?_
  have hContains : (c :: run).contains '.' = true :=
    List.contains_iff_mem.mpr (List.mem_cons_of_mem c hPoint)
  rw [ofLiteral, if_pos hContains, if_pos hReal]

theorem spaced (hl : Spells csl tsl) (m : Mark) (hr : Spells csr tsr) :
    Spells (csl ++ ' ' :: (m.text.toList ++ ' ' :: csr)) (tsl ++ .mark m :: tsr) where
  scans hEnds hScans := by
    have hRight := Scans.mark_space m (hr.scans hEnds hScans)
    have hAll := hl.scans (.space _) hRight.space
    simpa only [List.append_assoc, List.cons_append] using hAll
  starts := by
    obtain ⟨c, tail, rfl, hne⟩ := hl.starts
    exact ⟨c, _, rfl, hne⟩

theorem bang (h : Spells cs ts) : Spells ('!' :: cs) (.mark .bang :: ts) where
  scans hEnds hScans := by
    have hTail := h.scans hEnds hScans
    obtain ⟨c, tail, rfl, hne, -⟩ := h.starts
    exact hTail.bang hne
  starts := ⟨'!', cs, rfl, by decide, by decide⟩

theorem minus (h : Spells cs ts) : Spells ('-' :: cs) (.mark (.arithmetic .sub) :: ts) where
  scans hEnds hScans := by
    have hTail := h.scans hEnds hScans
    obtain ⟨c, tail, rfl, -, hne⟩ := h.starts
    exact hTail.minus hne
  starts := ⟨'-', cs, rfl, by decide, by decide⟩

theorem tilde (h : Spells cs ts) : Spells ('~' :: cs) (.mark .tilde :: ts) where
  scans hEnds hScans := (h.scans hEnds hScans).tilde
  starts := ⟨'~', cs, rfl, by decide, by decide⟩

theorem enclosed (h : Spells cs ts) :
    Spells ('(' :: (cs ++ [')'])) (.mark .opening :: (ts ++ [.mark .closing])) where
  scans hEnds hScans := by
    have hAll := (h.scans (.closing _) hScans.closing).opening
    simpa only [List.append_assoc, List.cons_append, List.nil_append] using hAll
  starts := ⟨'(', _, rfl, by decide, by decide⟩

theorem cast {name : String} (hName : IsIdentifier name) (h : Spells cs ts) :
    Spells ('(' :: (name.toList ++ ')' :: ' ' :: cs))
      (.mark .opening :: .name name :: .mark .closing :: ts) where
  scans hEnds hScans := by
    have hTail := (h.scans hEnds hScans).space.closing
    have hAll := (Scans.identifier hName (.closing _) hTail).opening
    simpa only [List.append_assoc, List.cons_append] using hAll
  starts := ⟨'(', _, rfl, by decide, by decide⟩

end Spells

end StateSpace.Formula
