import GrandCross.CText

/-!
# Numbers in header fields

A header is a tag, a blank and a number.  `atol` reads any text as a number;
a strict receiver takes decimal numerals only.  The two agree on a header
unless `atol` finds a number in range where there is no numeral.
-/

namespace CText

/-- Digits and nothing else. -/
def IsNumeral (s : Bytes) : Prop := s ≠ [] ∧ ∀ b ∈ s, isDigit b = true

instance (s : Bytes) : Decidable (IsNumeral s) :=
  inferInstanceAs (Decidable (s ≠ [] ∧ ∀ b ∈ s, isDigit b = true))

theorem isDigit_not_sign {b : Byte} (hb : isDigit b = true) :
    isSpace b = false ∧ b ≠ minus ∧ b ≠ plus := by
  have hall : ∀ b : Byte, isDigit b = true → isSpace b = false ∧ b ≠ minus ∧ b ≠ plus :=
    forall_byte (by decide +kernel)
  exact hall b hb

theorem atol_numeral {s : Bytes} (hs : IsNumeral s) :
    atol s = (min (digitsVal 0 s) longMax : ℕ) := by
  obtain ⟨hne, hdigits⟩ := hs
  cases s with
  | nil => exact absurd rfl hne
  | cons b rest =>
      obtain ⟨hspace, hminus, hplus⟩ := isDigit_not_sign (hdigits b (by simp))
      have hdrop : (b :: rest).dropWhile isSpace = b :: rest := by simp [hspace]
      unfold atol
      rw [hdrop]
      dsimp only
      rw [if_neg hminus, if_neg hplus]

/-! ## Fields -/

/-- The text behind a tag and a blank. -/
def fieldOf (tag : Byte) (line : Bytes) : Option Bytes :=
  match line with
  | t :: b :: text => if t = tag ∧ b = sp then some text else none
  | _ => none

theorem fieldOf_eq_some_iff {tag : Byte} {line text : Bytes} :
    fieldOf tag line = some text ↔ line = tag :: sp :: text := by
  constructor
  · intro h
    unfold fieldOf at h
    split at h
    · split_ifs at h with htag
      rw [← Option.some.inj h, htag.1, htag.2]
    · cases h
  · rintro rfl
    simp [fieldOf]

theorem fieldOf_other
    {tag tag' : Byte} (hne : tag' ≠ tag) {line text : Bytes}
    (hfield : fieldOf tag line = some text) : fieldOf tag' line = none := by
  rw [fieldOf_eq_some_iff] at hfield
  subst hfield
  simp [fieldOf, hne.symm]

/-- The number in a field, when it is a numeral in range. -/
def numeralField (tag : Byte) (lo hi : ℕ) (line : Bytes) : Option ℕ :=
  match fieldOf tag line with
  | none => none
  | some text =>
      if IsNumeral text ∧ lo ≤ digitsVal 0 text ∧ digitsVal 0 text ≤ hi then
        some (digitsVal 0 text)
      else none

/-- What a range check on `atol` makes of a field. -/
def atolField (tag : Byte) (lo hi : ℕ) (line : Bytes) : Option ℕ :=
  match fieldOf tag line with
  | none => none
  | some text =>
      if (lo : ℤ) ≤ atol text ∧ atol text ≤ (hi : ℤ) then some (atol text).toNat
      else none

theorem atolField_eq_some_iff {tag : Byte} {lo hi : ℕ} {line : Bytes} {n : ℕ} :
    atolField tag lo hi line = some n ↔
      ∃ text, line = tag :: sp :: text ∧ atol text = n ∧ lo ≤ n ∧ n ≤ hi := by
  simp only [← fieldOf_eq_some_iff, atolField]
  cases fieldOf tag line with
  | none => simp
  | some text =>
      simp only [Option.some.injEq, exists_eq_left']
      split_ifs with hrange
      · rw [Option.some.injEq]
        omega
      · simp only [false_iff]
        omega

theorem atolField_eq_none_iff {tag : Byte} {lo hi : ℕ} {line : Bytes} :
    atolField tag lo hi line = none ↔
      ∀ text, line = tag :: sp :: text → atol text < (lo : ℤ) ∨ (hi : ℤ) < atol text := by
  simp only [← fieldOf_eq_some_iff, atolField]
  cases fieldOf tag line with
  | none => simp
  | some text =>
      simp only [Option.some.injEq, forall_eq']
      split_ifs with hrange
      · simp only [false_iff]
        omega
      · simp only [true_iff]
        omega

/-- The field is a numeral, or `atol` puts it out of range. -/
def FieldOk (tag : Byte) (lo hi : ℕ) (line : Bytes) : Prop :=
  ∀ text, fieldOf tag line = some text →
    IsNumeral text ∨ atol text < (lo : ℤ) ∨ (hi : ℤ) < atol text

theorem numeralField_eq_iff
    {tag : Byte} {lo hi : ℕ} (hhi : hi < longMax) (line : Bytes) :
    numeralField tag lo hi line = atolField tag lo hi line ↔
      FieldOk tag lo hi line := by
  unfold numeralField atolField FieldOk
  cases hfield : fieldOf tag line with
  | none => simp
  | some text =>
      simp only [Option.some.injEq, forall_eq']
      by_cases hnum : IsNumeral text
      · have hatol := atol_numeral hnum
        simp only [hnum, true_and, true_or, iff_true]
        rw [hatol]
        have hcut : min (digitsVal 0 text) longMax ≤ hi ↔ digitsVal 0 text ≤ hi := by
          omega
        split_ifs
        · simp only [Option.some.injEq]
          omega
        · omega
        · omega
        · rfl
      · simp only [hnum, false_and, if_false, false_or]
        split_ifs with hrange
        · simp only [false_iff, not_or, not_lt]
          exact hrange
        · simp only [true_iff]
          omega

/-- A receiver that goes by `atol`, and does different things for different
numbers, treats a field as a strict one would exactly when it is in order. -/
theorem takes_numeral_iff
    {Takes : Option ℕ → Prop} (hunique : ∀ {n m}, Takes n → Takes m → n = m)
    {tag : Byte} {lo hi : ℕ} (hhi : hi < longMax) {line : Bytes}
    (htakes : Takes (atolField tag lo hi line)) :
    Takes (numeralField tag lo hi line) ↔ FieldOk tag lo hi line := by
  rw [← numeralField_eq_iff hhi]
  constructor
  · intro h
    exact hunique h htakes
  · intro h
    rw [h]
    exact htakes

end CText
