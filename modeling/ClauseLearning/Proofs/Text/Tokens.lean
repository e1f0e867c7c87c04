import Mathlib.Tactic.Common
import ClauseLearning.Literal
import ClauseLearning.Text.Blank
import ClauseLearning.Text.Integer

/-!
# Words and numerals

The words of a text are found one by one, from its start (`words_blank`, `words_word`), and a number that is printed is
read back (`unsigned64?_toString`, `signed32?_toString`).
-/

namespace ClauseLearning

namespace Text

variable {text word : List Char} {c : Char} {n : Nat} {i : Int}

/-! ## Words -/

@[simp] theorem words_nil : words [] = [] := rfl

theorem words_blank (h : isBlank c = true) : words (c :: text) = words text := by
  rw [words, List.splitOnP_cons_eq_if_modifyHead, if_pos h]
  rfl

/-- A word ends before a blank or with the text. -/
theorem words_word (hne : word ≠ []) (hink : ∀ c ∈ word, isBlank c = false)
    (hend : ∀ c, text.head? = some c → isBlank c = true) : words (word ++ text) = word :: words text := by
  have hkeep : (!word.isEmpty) = true := by
    cases word with
    | nil => exact absurd rfl hne
    | cons c word => rfl
  cases text with
  | nil =>
    rw [List.append_nil, words, List.splitOnP_eq_singleton hink]
    exact List.filter_cons_of_pos hkeep
  | cons c text =>
    have hc : isBlank c = true := hend c rfl
    rw [words, List.splitOnP_append_cons_of_forall_mem hink c hc, words_blank hc]
    exact List.filter_cons_of_pos hkeep

theorem words_ne_nil (h : ∃ c ∈ text, isBlank c = false) : words text ≠ [] := by
  induction text with
  | nil => simp at h
  | cons c text ih =>
    cases hc : isBlank c with
    | true =>
      rw [words_blank hc]
      obtain ⟨d, hd, hink⟩ := h
      rcases List.mem_cons.mp hd with rfl | hd
      · rw [hc] at hink
        cases hink
      · exact ih ⟨d, hd, hink⟩
    | false =>
      obtain ⟨head, tail, hparts⟩ := List.exists_cons_of_ne_nil (List.splitOnP_ne_nil isBlank text)
      simp [words, List.splitOnP_cons_eq_if_modifyHead, hc, hparts]

/-! ## Numerals -/

theorem isBlank_of_isDigit (h : c.isDigit = true) : isBlank c = false := by
  simp only [Char.isDigit, Bool.and_eq_true, decide_eq_true_eq, ge_iff_le, UInt32.le_iff_toNat_le] at h
  have hlow : 48 ≤ c.toNat := h.1
  have hhigh : c.toNat ≤ 57 := h.2
  simp only [isBlank, blankRanges, List.any_cons, List.any_nil,
    Bool.or_false, Bool.or_eq_false_iff, Bool.and_eq_false_iff, decide_eq_false_iff_not]
  omega

theorem natural?_toDigits (n : Nat) : natural? (Nat.toDigits 10 n) = some n := by
  have hdigits : (Nat.toDigits 10 n).all Char.isDigit = true := by
    rw [List.all_eq_true]
    exact fun c hc => Nat.isDigit_of_mem_toDigits (by decide) (by decide) hc
  rw [natural?, if_pos ⟨Nat.toDigits_ne_nil, hdigits⟩]
  exact congrArg some Nat.ofDigitChars_ten_toDigits

/-- The digits of a number begin with no sign. -/
theorem exists_toDigits (n : Nat) : ∃ c digits, Nat.toDigits 10 n = c :: digits ∧ c ≠ '+' ∧ c ≠ '-' := by
  obtain ⟨c, digits, hdigits⟩ := List.exists_cons_of_ne_nil (Nat.toDigits_ne_nil (n := n) (b := 10))
  have hc : c.isDigit = true :=
    Nat.isDigit_of_mem_toDigits (b := 10) (n := n) (by decide) (by decide) (by simp [hdigits])
  refine ⟨c, digits, hdigits, ?_, ?_⟩
  · rintro rfl
    exact absurd hc (by decide)
  · rintro rfl
    exact absurd hc (by decide)

theorem unsigned64?_toString (h : n < 18446744073709551616) : unsigned64? (toString n).toList = some n := by
  have hn := natural?_toDigits n
  obtain ⟨c, digits, hdigits, hplus, -⟩ := exists_toDigits n
  rw [Nat.toString_eq_repr, Nat.toList_repr]
  rw [hdigits] at hn ⊢
  unfold unsigned64?
  split
  · rename_i heq
    exact absurd (List.cons.inj heq).1 hplus
  · simp [hn, h]

theorem toList_toString_ofNat (m : Nat) : (toString (Int.ofNat m)).toList = Nat.toDigits 10 m := Nat.toList_repr

theorem toList_toString_negSucc (m : Nat) : (toString (Int.negSucc m)).toList = '-' :: Nat.toDigits 10 (m + 1) := by
  show ("-" ++ (m + 1).repr).toList = _
  rw [String.toList_append, Nat.toList_repr]
  rfl

theorem integer?_toString (i : Int) : integer? (toString i).toList = some i := by
  cases i with
  | ofNat m =>
    have hm := natural?_toDigits m
    obtain ⟨c, digits, hdigits, hplus, hminus⟩ := exists_toDigits m
    rw [toList_toString_ofNat]
    rw [hdigits] at hm ⊢
    unfold integer?
    split
    · rename_i heq
      exact absurd (List.cons.inj heq).1 hplus
    · rename_i heq
      exact absurd (List.cons.inj heq).1 hminus
    · simp [hm]
  | negSucc m =>
    rw [toList_toString_negSucc, integer?, natural?_toDigits]
    rfl

/-- What is printed of a number: digits, after a sign if it is negative. -/
theorem mem_toString (hc : c ∈ (toString i).toList) : c.isDigit = true ∨ c = '-' := by
  cases i with
  | ofNat m =>
    rw [toList_toString_ofNat] at hc
    exact .inl (Nat.isDigit_of_mem_toDigits (by decide) (by decide) hc)
  | negSucc m =>
    rw [toList_toString_negSucc, List.mem_cons] at hc
    exact hc.symm.imp_left (Nat.isDigit_of_mem_toDigits (by decide) (by decide))

theorem toString_ne_nil (i : Int) : (toString i).toList ≠ [] := by
  cases i with
  | ofNat m =>
    rw [toList_toString_ofNat]
    exact Nat.toDigits_ne_nil
  | negSucc m =>
    rw [toList_toString_negSucc]
    exact List.cons_ne_nil _ _

theorem signed32?_toString (hlow : -2147483648 ≤ i) (hhigh : i < 2147483648) :
    signed32? (toString i).toList = some i := by
  rw [signed32?, integer?_toString]
  simp [hlow, hhigh]

end Text

end ClauseLearning
