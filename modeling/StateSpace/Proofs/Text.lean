import Mathlib.Data.List.TakeWhile
import StateSpace.Text.Character
import StateSpace.Text.Lines
import StateSpace.Text.Numeral

/-!
# Texts that are read as they were written

What the readers of lines and numerals give for texts that a writer produced: a line that ends in a
visible character is a line of its own (`linesFrom_line`), and the decimal spelling of a number
reads as the number (`signed?_toString`). A numeral holds no character that marks the end of a token
(`notMem_of_isReal`).
-/

namespace StateSpace.Text

variable {c mark : Char} {cs ds rest : List Char}

/-! ## Blanks and lines -/

/-- The text ends in a character that is not blank. -/
def EndsVisibly (cs : List Char) : Prop :=
  ∃ front last, cs = front ++ [last] ∧ isBlank last = false

theorem EndsVisibly.append (front : List Char) (h : EndsVisibly cs) :
    EndsVisibly (front ++ cs) := by
  obtain ⟨middle, last, rfl, hLast⟩ := h
  exact ⟨front ++ middle, last, by simp, hLast⟩

theorem EndsVisibly.trimEnd_eq (h : EndsVisibly cs) : trimEnd cs = cs := by
  obtain ⟨front, last, rfl, hLast⟩ := h
  simp [trimEnd, hLast]

/-- Trimming does nothing where there are no blanks. -/
theorem trim_eq_self (h : ∀ c ∈ cs, isBlank c = false) : trim cs = cs := by
  have hStart : trimStart cs = cs := by
    cases cs with
    | nil => rfl
    | cons c rest => exact trimStart_eq_self (h c List.mem_cons_self)
  rw [trim, hStart]
  rcases cs.eq_nil_or_concat with rfl | ⟨front, last, rfl⟩
  · rfl
  · rw [List.concat_eq_append] at h ⊢
    exact EndsVisibly.trimEnd_eq ⟨front, last, rfl, h last (by simp)⟩

theorem splitOnce_append (h : mark ∉ cs) :
    splitOnce mark (cs ++ mark :: rest) = some (cs, rest) := by
  have hne : ∀ c ∈ cs, (c != mark) = true := by
    intro c hc
    exact bne_iff_ne.mpr fun heq => h (heq ▸ hc)
  simp [splitOnce, List.takeWhile_append_of_pos hne, List.dropWhile_append_of_pos hne]

/-- Splitting gives the parts around the first mark. -/
theorem splitOnce_eq_some {front : List Char} (h : splitOnce mark cs = some (front, rest)) :
    cs = front ++ mark :: rest ∧ mark ∉ front := by
  unfold splitOnce at h
  split at h
  · cases h
  · next c back hDrop =>
    cases h
    have hMark : c = mark := by
      have hHead := List.head?_dropWhile_not (· != mark) cs
      simpa [hDrop] using hHead
    constructor
    · rw [← hMark, ← hDrop, hMark, List.takeWhile_append_dropWhile]
    · intro hMem
      have hne := List.mem_takeWhile_imp hMem
      simp at hne

/-- A line ends at its line feed. -/
theorem linesFrom_append (h : '\n' ∉ cs) (current : List Char) :
    linesFrom (cs ++ '\n' :: rest) current =
      (dropReturn (cs.reverse ++ current)).reverse :: linesFrom rest [] := by
  induction cs generalizing current with
  | nil => rfl
  | cons c cs ih =>
    obtain ⟨hc, hcs⟩ := not_or.mp (mt List.mem_cons.mpr h)
    rw [List.cons_append, linesFrom]
    · rw [ih hcs]
      simp
    · exact fun heq => hc heq.symm

/-- A line that ends in a visible character is read as it was written. -/
theorem linesFrom_line (h : '\n' ∉ cs) (hEnd : EndsVisibly cs) :
    linesFrom (cs ++ '\n' :: rest) [] = cs :: linesFrom rest [] := by
  obtain ⟨front, last, rfl, hLast⟩ := hEnd
  have hReturn : last ≠ '\r' := by
    rintro rfl
    exact absurd hLast (by decide)
  rw [linesFrom_append h]
  simp [dropReturn, hReturn]

/-- No line holds a line feed. -/
theorem lineFeed_notMem_lines {text : String} (h : cs ∈ lines text) : '\n' ∉ cs := by
  have hFrom : ∀ chars current : List Char, '\n' ∉ current → ∀ cs ∈ linesFrom chars current,
      '\n' ∉ cs := by
    intro chars current hCurrent
    fun_induction linesFrom chars current with
    | case1 => simp
    | case2 current => simpa using hCurrent
    | case3 rest current ih =>
      have hLine : '\n' ∉ dropReturn current := by
        unfold dropReturn
        split
        · exact fun hMem => hCurrent (List.mem_cons_of_mem _ hMem)
        · exact hCurrent
      simpa [hLine] using ih List.not_mem_nil
    | case4 c rest current hc ih =>
      refine ih ?_
      intro hMem
      rcases List.mem_cons.mp hMem with heq | hOld
      · exact hc heq.symm
      · exact hCurrent hOld
  exact hFrom text.toList [] List.not_mem_nil cs h

theorem mem_of_mem_trimEnd (h : c ∈ trimEnd cs) : c ∈ cs := by
  rw [trimEnd, List.mem_reverse] at h
  exact List.mem_reverse.mp ((List.dropWhile_sublist _).mem h)

/-! ## Whole numbers -/

theorem isDigit_of_mem_toDigits {n : Nat} (h : c ∈ Nat.toDigits 10 n) : c.isDigit = true :=
  Nat.isDigit_of_mem_toDigits (by decide) (by decide) h

theorem natural?_toDigits (n : Nat) : natural? (Nat.toDigits 10 n) = some n := by
  have hDigits : (Nat.toDigits 10 n).all Char.isDigit = true :=
    List.all_eq_true.mpr fun _ hc => isDigit_of_mem_toDigits hc
  have hValue : digitsValue (Nat.toDigits 10 n) = n := Nat.ofDigitChars_ten_toDigits
  simp [natural?, hDigits, hValue]

theorem unsigned?_toDigits (n : Nat) : unsigned? (Nat.toDigits 10 n) = some n := by
  unfold unsigned?
  split
  · rename_i ds heq
    have hSign : '+' ∈ Nat.toDigits 10 n := heq ▸ List.mem_cons_self
    exact absurd (isDigit_of_mem_toDigits hSign) (by decide)
  · exact natural?_toDigits n

theorem unsigned64?_toString {n : Nat} (h : n < Nat.pow 2 64) :
    unsigned64? (toString n).toList = some n := by
  have hDigits : (toString n).toList = Nat.toDigits 10 n := by simp
  rw [unsigned64?, hDigits, unsigned?_toDigits, Option.filter_some, if_pos (by simpa using h)]

theorem signed?_toDigits (n : Nat) : signed? (Nat.toDigits 10 n) = some (n : Int) := by
  unfold signed?
  split
  · rename_i ds heq
    have hSign : '-' ∈ Nat.toDigits 10 n := heq ▸ List.mem_cons_self
    exact absurd (isDigit_of_mem_toDigits hSign) (by decide)
  · rw [unsigned?_toDigits]
    rfl

/-- The decimal spelling of a number reads as the number. -/
theorem signed?_toString (n : Int) : signed? (toString n).toList = some n := by
  cases n with
  | ofNat n =>
    show signed? (toString n).toList = some (n : Int)
    simpa using signed?_toDigits n
  | negSucc n =>
    show signed? ("-" ++ toString (n + 1)).toList = some (Int.negSucc n)
    have hText : ("-" ++ toString (n + 1)).toList = '-' :: Nat.toDigits 10 (n + 1) := by simp
    rw [hText, signed?, natural?_toDigits, Int.negSucc_eq]
    rfl

theorem signed128?_toString {n : Int} (h : fits128 n = true) :
    signed128? (toString n).toList = some n := by
  rw [signed128?, signed?_toString, Option.filter_some, if_pos h]

/-- Whole numbers are written with digits and a minus sign. -/
theorem isDigit_or_eq_minus_of_mem_toString {n : Int} (h : c ∈ (toString n).toList) :
    c.isDigit = true ∨ c = '-' := by
  cases n with
  | ofNat n =>
    have hMem : c ∈ (toString n).toList := h
    exact .inl (isDigit_of_mem_toDigits (by simpa using hMem))
  | negSucc n =>
    have hMem : c ∈ ("-" ++ toString (n + 1)).toList := h
    rw [String.toList_append, List.mem_append] at hMem
    rcases hMem with hSign | hDigits
    · exact .inr (List.mem_singleton.mp hSign)
    · exact .inl (isDigit_of_mem_toDigits (by simpa using hDigits))

theorem isBlank_of_isDigit (h : c.isDigit = true) : isBlank c = false := by
  have hRange : 48 ≤ c.toNat ∧ c.toNat ≤ 57 := by
    simpa [Char.isDigit, UInt32.le_iff_toNat_le] using h
  simp only [isBlank, Bool.or_eq_false_iff, Bool.and_eq_false_iff, decide_eq_false_iff_not,
    beq_eq_false_iff_ne]
  omega

theorem trim_toString (n : Int) : trim (toString n).toList = (toString n).toList := by
  refine trim_eq_self fun c hc => ?_
  rcases isDigit_or_eq_minus_of_mem_toString hc with hDigit | rfl
  · exact isBlank_of_isDigit hDigit
  · decide

/-! ## Characters outside numerals -/

/-- A character that no numeral holds. -/
structure Foreign (mark : Char) : Prop where
  digit : mark.isDigit = false
  sign : mark ≠ '+' ∧ mark ≠ '-'
  point : mark ≠ '.'
  exponent : mark ≠ 'e' ∧ mark ≠ 'E'
  letter : mark.toLower ∉ "infinitynan".toList

instance (mark : Char) : Decidable (Foreign mark) :=
  decidable_of_iff
    (mark.isDigit = false ∧ (mark ≠ '+' ∧ mark ≠ '-') ∧ mark ≠ '.' ∧ (mark ≠ 'e' ∧ mark ≠ 'E') ∧
      mark.toLower ∉ "infinitynan".toList)
    ⟨fun ⟨h₁, h₂, h₃, h₄, h₅⟩ => ⟨h₁, h₂, h₃, h₄, h₅⟩,
      fun h => ⟨h.digit, h.sign, h.point, h.exponent, h.letter⟩⟩

namespace Foreign

variable (hMark : Foreign mark)

include hMark

theorem notMem_digits (h : ∀ c ∈ ds, c.isDigit = true) : mark ∉ ds := by
  intro hMem
  have hDigit := h mark hMem
  rw [hMark.digit] at hDigit
  cases hDigit

theorem notMem_toString (n : Int) : mark ∉ (toString n).toList := by
  intro hMem
  rcases isDigit_or_eq_minus_of_mem_toString hMem with hDigit | hMinus
  · rw [hMark.digit] at hDigit
    cases hDigit
  · exact hMark.sign.2 hMinus

theorem notMem_of_dropSign (h : mark ∉ dropSign cs) : mark ∉ cs := by
  unfold dropSign at h
  split at h
  · exact fun hMem => (List.mem_cons.mp hMem).elim hMark.sign.1 h
  · exact fun hMem => (List.mem_cons.mp hMem).elim hMark.sign.2 h
  · exact h

/-- A foreign character is not in an exponent part. -/
theorem notMem_of_isExponent (h : isExponent cs = true) : mark ∉ cs := by
  cases cs with
  | nil => exact List.not_mem_nil
  | cons c rest =>
    simp only [isExponent, Bool.and_eq_true, Bool.or_eq_true, beq_iff_eq, List.all_eq_true] at h
    obtain ⟨⟨hc, -⟩, hDigits⟩ := h
    intro hMem
    rcases List.mem_cons.mp hMem with rfl | hRest
    · exact hc.elim hMark.exponent.1 hMark.exponent.2
    · exact hMark.notMem_of_dropSign (hMark.notMem_digits hDigits) hRest

/-- A foreign character is not in a decimal numeral. -/
theorem notMem_of_isDecimal (h : isDecimal cs = true) : mark ∉ cs := by
  have hWhole : ∀ {ds : List Char}, mark ∉ ds.takeWhile Char.isDigit := fun {ds} =>
    hMark.notMem_digits fun _ hc => List.mem_takeWhile_imp hc
  have hSplit : ∀ {ds : List Char}, mark ∉ ds.dropWhile Char.isDigit → mark ∉ ds := by
    intro ds hDrop hMem
    rw [← List.takeWhile_append_dropWhile (p := Char.isDigit) (l := ds)] at hMem
    exact (List.mem_append.mp hMem).elim hWhole hDrop
  -- behind the leading digits stands a point with more digits, or the exponent
  refine hSplit ?_
  unfold isDecimal at h
  simp only at h
  split at h
  · rename_i rest heq
    rw [Bool.and_eq_true] at h
    rw [heq]
    intro hMem
    rcases List.mem_cons.mp hMem with hPoint | hRest
    · exact hMark.point hPoint
    · exact hSplit (hMark.notMem_of_isExponent h.2) hRest
  · rw [Bool.and_eq_true] at h
    exact hMark.notMem_of_isExponent h.2

/-- A numeral of a real holds no foreign character. -/
theorem notMem_of_isReal (h : isReal cs = true) : mark ∉ cs := by
  refine hMark.notMem_of_dropSign ?_
  have hWord : ∀ word : String, word.toList ⊆ "infinitynan".toList →
      String.ofList ((dropSign cs).map Char.toLower) = word → mark ∉ dropSign cs := by
    intro word hSub heq hMem
    refine hMark.letter (hSub ?_)
    rw [← heq, String.toList_ofList]
    exact List.mem_map_of_mem hMem
  simp only [isReal, Bool.or_eq_true, beq_iff_eq] at h
  rcases h with ((hDecimal | hInf) | hInfinity) | hNan
  · exact hMark.notMem_of_isDecimal hDecimal
  · exact hWord _ (by decide) hInf
  · exact hWord _ (by decide) hInfinity
  · exact hWord _ (by decide) hNan

end Foreign

/-- Blanks are foreign to numerals. -/
theorem foreign_of_isBlank (h : isBlank c = true) : Foreign c := by
  have hne : ∀ d : Char, isBlank d = false → c ≠ d := by
    rintro d hd rfl
    rw [hd] at h
    cases h
  have hLower : c.toLower = c := by
    have hCode := h
    simp only [isBlank, Bool.or_eq_true, Bool.and_eq_true, decide_eq_true_eq, beq_iff_eq] at hCode
    unfold Char.toLower
    rw [dif_neg]
    simp only [UInt32.le_iff_toNat_le]
    show ¬(65 ≤ c.toNat ∧ c.toNat ≤ 90)
    omega
  refine ⟨?_, ⟨hne _ (by decide), hne _ (by decide)⟩, hne _ (by decide),
    ⟨hne _ (by decide), hne _ (by decide)⟩, ?_⟩
  · by_contra hDigit
    rw [isBlank_of_isDigit (by simpa using hDigit)] at h
    cases h
  · rw [hLower]
    intro hMem
    have hLetters : ("infinitynan".toList.all fun d => !isBlank d) = true := by decide
    exact hne c (by simpa using List.all_eq_true.mp hLetters c hMem) rfl

theorem isBlank_of_isReal (h : isReal cs = true) (hc : c ∈ cs) : isBlank c = false := by
  by_contra hBlank
  exact (foreign_of_isBlank (by simpa using hBlank)).notMem_of_isReal h hc

theorem trim_of_isReal (h : isReal cs = true) : trim cs = cs :=
  trim_eq_self fun _ hc => isBlank_of_isReal h hc

end StateSpace.Text
