import SsaForm.FreshName
import SsaForm.Renaming.Versions

/-!
# Numbered names

A number is read back from its decimal text, and the text holds no dot. So the last dot of a
version name parts the variable from the number, whatever the variable is called, and a stem
followed by different numbers gives different names.
-/

namespace SsaForm

theorem toString_nat_injective {m n : Nat} (equal : toString m = toString n) : m = n := by
  have digits : Nat.toDigits 10 m = Nat.toDigits 10 n := by
    rw [← Nat.toList_repr, ← Nat.toList_repr, ← Nat.toString_eq_repr, ← Nat.toString_eq_repr, equal]
  rw [← Nat.ofDigitChars_ten_toDigits (n := m), digits, Nat.ofDigitChars_ten_toDigits]

theorem dot_not_mem_toString (n : Nat) : '.' ∉ (toString n).toList := by
  rw [Nat.toString_eq_repr, Nat.toList_repr]
  intro inDigits
  have digit := Nat.isDigit_of_mem_toDigits (by decide) (by decide) inDigits
  simp at digit

theorem append_cons_inj_of_last {α : Type} {a : α} {before before' behind behind' : List α}
    (last : a ∉ behind) (last' : a ∉ behind')
    (equal : before ++ a :: behind = before' ++ a :: behind') :
    before = before' ∧ behind = behind' := by
  rcases List.append_eq_append_iff.mp equal with
    ⟨middle, whole, rest⟩ | ⟨middle, whole, rest⟩
  · cases middle with
    | nil => exact ⟨by simpa using whole.symm, by simpa using rest⟩
    | cons first others =>
      injection rest with _ tail
      exact absurd (by simp [tail]) last
  · cases middle with
    | nil => exact ⟨by simpa using whole, by simpa using rest.symm⟩
    | cons first others =>
      injection rest with _ tail
      exact absurd (by simp [tail]) last'

/-- The version of a variable with a number. -/
def versionName (var : String) (number : Nat) : String :=
  var ++ "." ++ toString number

theorem toList_versionName (var : String) (number : Nat) :
    (versionName var number).toList = var.toList ++ '.' :: (toString number).toList := by
  simp [versionName, String.toList_append]

theorem dot_mem_versionName (var : String) (number : Nat) :
    '.' ∈ (versionName var number).toList := by
  rw [toList_versionName]
  exact List.mem_append_right _ List.mem_cons_self

theorem versionName_injective {var other : String} {m n : Nat}
    (equal : versionName var m = versionName other n) : var = other ∧ m = n := by
  have lists := congrArg String.toList equal
  rw [toList_versionName, toList_versionName] at lists
  obtain ⟨stems, numbers⟩ :=
    append_cons_inj_of_last (dot_not_mem_toString m) (dot_not_mem_toString n) lists
  exact ⟨String.toList_inj.mp stems, toString_nat_injective (String.toList_inj.mp numbers)⟩

theorem versionName_ne_self (var : String) (number : Nat) : versionName var number ≠ var := by
  intro equal
  have lengths := congrArg (fun name : String => name.toList.length) equal
  simp [toList_versionName] at lengths

/-- The search for a fresh name stops at the first number whose name is not in use. It passes
over no more numbers than there are names in use. -/
theorem freshNameFrom_spec (stem : String) (n : Nat) (used : KeySet String) :
    ∃ m, n ≤ m ∧ m ≤ n + used.size ∧ freshNameFrom stem n used = stem ++ toString m ∧
      stem ++ toString m ∉ used ∧ ∀ j, n ≤ j → j < m → stem ++ toString j ∈ used := by
  fun_induction freshNameFrom stem n used with
  | case1 n used taken inductionHypothesis =>
    obtain ⟨m, later, bounded, result, free, skipped⟩ := inductionHypothesis
    have smaller := KeySet.size_erase_lt taken
    refine ⟨m, by omega, by omega, result, ?_, ?_⟩
    · intro inUse
      apply free
      rw [Std.ExtTreeSet.mem_erase]
      refine ⟨?_, inUse⟩
      intro equal
      have same := toString_nat_injective
        ((String.append_right_inj stem).mp (Std.LawfulEqOrd.eq_of_compare equal))
      omega
    · intro j lower upper
      rcases Nat.eq_or_lt_of_le lower with rfl | further
      · exact taken
      · exact Std.ExtTreeSet.mem_of_mem_erase (skipped j further upper)
  | case2 n used free =>
    exact ⟨n, Nat.le_refl n, Nat.le_add_right n _, rfl, free, fun j lower upper => by omega⟩

theorem freshName_not_mem (stem : String) (used : KeySet String) :
    freshName stem used ∉ used := by
  obtain ⟨m, _, _, result, free, _⟩ := freshNameFrom_spec stem 1 used
  rwa [freshName, result]

theorem exists_freshName (stem : String) (used : KeySet String) :
    ∃ number : Nat, freshName stem used = stem ++ toString number := by
  obtain ⟨number, _, _, result, _⟩ := freshNameFrom_spec stem 1 used
  exact ⟨number, result⟩

end SsaForm
