import StateSpace.Proofs.Expr.Renaming
import StateSpace.Text.Character

/-!
# Hidden names

A transition renames what it hides by names that end in a mark and the number of the transition.
Such a name tells its transition (`IsHiddenAt.unique`), its mark and what it was before. So the
renaming of a transition moves different names to different names, and names of other transitions
stay where they are, as long as no declared name looks like a hidden one (`Renaming.isHidden`).
-/

namespace StateSpace

/-- Primes make different variables different. -/
theorem Variable.primed_injective {x y : Variable} (h : x.primed = y.primed) : x = y := by
  obtain ⟨n, t⟩ := x
  obtain ⟨m, t'⟩ := y
  obtain ⟨hName, hType⟩ := Variable.mk.inj h
  rw [Variable.mk.injEq]
  exact ⟨String.push_inj.mp hName |>.1, hType⟩

namespace Renaming

variable {n m name : String} {t k : Nat}

/-! ## Reading the end of a name -/

/-- The digits at the end of a name, the last one first. -/
def trailingDigits (name : String) : List Char :=
  name.toList.reverse.takeWhile Char.isDigit

/-- What stands before the digits at the end of a name, the last character first. -/
def beforeDigits (name : String) : List Char :=
  name.toList.reverse.dropWhile Char.isDigit

/-- Whether a name ends in the mark of a state variable or of a parameter and at least one digit. -/
def isHidden (name : String) : Bool :=
  !(trailingDigits name).isEmpty &&
    ("_sv_".toList.reverse.isPrefixOf (beforeDigits name) ||
      "_p_".toList.reverse.isPrefixOf (beforeDigits name))

theorem toDigits_injective (h : Nat.toDigits 10 t = Nat.toDigits 10 k) : t = k := by
  calc t = Nat.ofDigitChars 10 (Nat.toDigits 10 t) 0 := Nat.ofDigitChars_ten_toDigits.symm
    _ = Nat.ofDigitChars 10 (Nat.toDigits 10 k) 0 := by rw [h]
    _ = k := Nat.ofDigitChars_ten_toDigits

/-- The end of a name behind an underscore and a number. -/
theorem ends_of_toList {cs : List Char} (h : name.toList = cs ++ '_' :: Nat.toDigits 10 t) :
    trailingDigits name = (Nat.toDigits 10 t).reverse ∧ beforeDigits name = '_' :: cs.reverse := by
  have hRev : name.toList.reverse = (Nat.toDigits 10 t).reverse ++ '_' :: cs.reverse := by
    simp [h]
  have hDigits : ∀ c ∈ (Nat.toDigits 10 t).reverse, c.isDigit = true := fun c hc =>
    Nat.isDigit_of_mem_toDigits (by decide) (by decide) (List.mem_reverse.mp hc)
  rw [trailingDigits, beforeDigits, hRev, List.takeWhile_append_of_pos hDigits,
    List.dropWhile_append_of_pos hDigits]
  simp

theorem toList_stateVariableName (n : String) (t : Nat) :
    (stateVariableName n t).toList = (n.toList ++ ['_', 's', 'v']) ++ '_' :: Nat.toDigits 10 t := by
  have hName : stateVariableName n t = n ++ "_sv_" ++ toString t := rfl
  simp [hName]

theorem toList_parameterName (n : String) (t : Nat) :
    (parameterName n t).toList = (n.toList ++ ['_', 'p']) ++ '_' :: Nat.toDigits 10 t := by
  have hName : parameterName n t = n ++ "_p_" ++ toString t := rfl
  simp [hName]

/-! ## The names of a transition -/

theorem stateVariableName_injective (h : stateVariableName n t = stateVariableName m t) :
    n = m := by
  have hLists := congrArg String.toList h
  rw [toList_stateVariableName, toList_stateVariableName] at hLists
  exact String.toList_inj.mp (List.append_cancel_right (List.append_cancel_right hLists))

theorem parameterName_injective (h : parameterName n t = parameterName m t) : n = m := by
  have hLists := congrArg String.toList h
  rw [toList_parameterName, toList_parameterName] at hLists
  exact String.toList_inj.mp (List.append_cancel_right (List.append_cancel_right hLists))

/-- The letters of the two marks differ. -/
theorem stateVariableName_ne_parameterName : stateVariableName n t ≠ parameterName m k := by
  intro h
  have hStem := (ends_of_toList (toList_stateVariableName n t)).2
  rw [h, (ends_of_toList (toList_parameterName m k)).2] at hStem
  simp at hStem

/-- A name that a transition gives to something it hides. -/
def IsHiddenAt (t : Nat) (name : String) : Prop :=
  ∃ n, name = stateVariableName n t ∨ name = parameterName n t

namespace IsHiddenAt

theorem trailingDigits_eq (h : IsHiddenAt t name) :
    trailingDigits name = (Nat.toDigits 10 t).reverse := by
  obtain ⟨n, rfl | rfl⟩ := h
  · exact (ends_of_toList (toList_stateVariableName n t)).1
  · exact (ends_of_toList (toList_parameterName n t)).1

/-- A hidden name tells its transition. -/
theorem unique (h : IsHiddenAt t name) (h' : IsHiddenAt k name) : t = k := by
  have hDigits : Nat.toDigits 10 t = Nat.toDigits 10 k :=
    List.reverse_inj.mp (h.trailingDigits_eq.symm.trans h'.trailingDigits_eq)
  exact toDigits_injective hDigits

theorem isHidden (h : IsHiddenAt t name) : isHidden name = true := by
  have hDigits : (trailingDigits name).isEmpty = false := by
    rw [h.trailingDigits_eq, List.isEmpty_reverse, List.isEmpty_eq_false_iff]
    exact Nat.toDigits_ne_nil
  obtain ⟨n, rfl | rfl⟩ := h
  · simp [Renaming.isHidden, hDigits, (ends_of_toList (toList_stateVariableName n t)).2]
  · simp [Renaming.isHidden, hDigits, (ends_of_toList (toList_parameterName n t)).2]

/-- A hidden name ends in a digit, a primed one in a prime. -/
theorem ne_primed (h : IsHiddenAt t name) (x : Variable) : name ≠ x.primed.name := by
  rintro rfl
  have hDigits := h.trailingDigits_eq
  have hNone : trailingDigits x.primed.name = [] := by
    simp [trailingDigits, Variable.primed, Variable.primeMark]
  rw [hNone, eq_comm, List.reverse_eq_nil_iff] at hDigits
  exact Nat.toDigits_ne_nil hDigits

end IsHiddenAt

/-! ## The renaming of a transition -/

section OfTransition

variable {xs ps : List Variable}

/-- Names that are not declared stay. -/
theorem get?_ofTransition_eq_none (h : n ∉ (xs ++ ps).map Variable.name) :
    (ofTransition xs ps t).get? n = none := by
  refine get?_ofList_eq_none ?_
  simpa using h

/-- A declared name is hidden by the mark of a state variable or of a parameter. -/
theorem apply_ofTransition (h : n ∈ (xs ++ ps).map Variable.name) :
    (ofTransition xs ps t).apply n = stateVariableName n t ∨
      (ofTransition xs ps t).apply n = parameterName n t := by
  have hPaired : n ∈ (xs.map (fun x => (x.name, stateVariableName x.name t)) ++
      ps.map (fun x => (x.name, parameterName x.name t))).map Prod.fst := by
    simpa using h
  obtain ⟨new, hMem, hGet⟩ := exists_get?_ofList hPaired
  have hApply : (ofTransition xs ps t).apply n = new := by
    rw [apply, ofTransition, hGet, Option.getD_some]
  rw [hApply]
  rcases List.mem_append.mp hMem with hMem | hMem
  · obtain ⟨x, -, heq⟩ := List.mem_map.mp hMem
    obtain ⟨rfl, rfl⟩ := Prod.mk.inj heq
    exact .inl rfl
  · obtain ⟨x, -, heq⟩ := List.mem_map.mp hMem
    obtain ⟨rfl, rfl⟩ := Prod.mk.inj heq
    exact .inr rfl

theorem isHiddenAt_apply_ofTransition (h : n ∈ (xs ++ ps).map Variable.name) :
    IsHiddenAt t ((ofTransition xs ps t).apply n) :=
  ⟨n, apply_ofTransition h⟩

/-- Different declared names are hidden by different names. -/
theorem apply_ofTransition_injective (hn : n ∈ (xs ++ ps).map Variable.name)
    (hm : m ∈ (xs ++ ps).map Variable.name)
    (h : (ofTransition xs ps t).apply n = (ofTransition xs ps t).apply m) : n = m := by
  rcases apply_ofTransition (t := t) hn with hn | hn <;>
    rcases apply_ofTransition (t := t) hm with hm | hm <;> rw [hn, hm] at h
  · exact stateVariableName_injective h
  · exact absurd h stateVariableName_ne_parameterName
  · exact absurd h.symm stateVariableName_ne_parameterName
  · exact parameterName_injective h

end OfTransition

end Renaming

end StateSpace
