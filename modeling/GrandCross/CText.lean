import Mathlib.Data.List.TakeWhile
import Mathlib.Data.Nat.Digits.Lemmas
import Mathlib.Tactic

/-!
# Byte strings as C sees them

Buffers are lists of bytes.  A C string is the part of a buffer before its
first NUL; `strchr` cuts it at a separator; `sprintf("%ld")` writes a
decimal numeral and `atol` reads one back.  Nothing here depends on a
particular program.
-/

namespace CText

abbrev Byte := UInt8
abbrev Bytes := List UInt8

def ascii (text : String) : Bytes :=
  text.toList.map fun c => UInt8.ofNat c.toNat

def nul : Byte := 0
def tab : Byte := 9
def lf : Byte := 10
def cr : Byte := 13
def sp : Byte := 32
def minus : Byte := 45
def plus : Byte := 43

/-- What is checked for 256 numbers holds of every byte. -/
theorem forall_byte
    {P : Byte → Prop} (hall : ∀ n < 256, P (UInt8.ofNat n)) (b : Byte) : P b := by
  have h := hall b.toNat b.toNat_lt
  rwa [UInt8.ofNat_toNat] at h

/-- The C string that starts at a buffer: everything before the first NUL. -/
def cstr (buf : Bytes) : Bytes :=
  buf.takeWhile (· ≠ nul)

@[simp] theorem cstr_nil : cstr [] = [] := rfl

theorem cstr_eq_self
    {buf : Bytes} (hnul : nul ∉ buf) : cstr buf = buf := by
  unfold cstr
  rw [List.takeWhile_eq_self_iff]
  intro b hb
  have hne : b ≠ nul := fun h => hnul (h ▸ hb)
  simpa using hne

theorem cstr_eq_iff (buf : Bytes) : cstr buf = buf ↔ nul ∉ buf := by
  constructor
  · intro heq hnul
    rw [cstr, List.takeWhile_eq_self_iff] at heq
    exact absurd (heq nul hnul) (by decide)
  · exact cstr_eq_self

/-- Behind its NUL a string does not go on. -/
theorem cstr_append_of_nul
    {a : Bytes} (hnul : nul ∈ a) (x : Bytes) : cstr (a ++ x) = cstr a := by
  unfold cstr
  rw [List.takeWhile_append, if_neg]
  intro hlen
  have hall := List.takeWhile_eq_self_iff.mp ((List.takeWhile_prefix _).eq_of_length hlen)
  simpa using hall nul hnul

/-- `strchr(s, sep)`, then the separator overwritten by NUL: the part before
the first separator, and the part behind it when there is one. -/
def cutAt (sep : Byte) : Bytes → Bytes × Option Bytes
  | [] => ([], none)
  | b :: rest =>
      if b = sep then ([], some rest)
      else (b :: (cutAt sep rest).1, (cutAt sep rest).2)

theorem cutAt_append_cons
    {sep : Byte} {s : Bytes} (hsep : sep ∉ s) (rest : Bytes) :
    cutAt sep (s ++ sep :: rest) = (s, some rest) := by
  induction s with
  | nil => simp [cutAt]
  | cons b s ih =>
      have hb : b ≠ sep := fun h => hsep (by simp [h])
      have hs : sep ∉ s := fun h => hsep (by simp [h])
      simp [cutAt, hb, ih hs]

theorem cutAt_join
    (sep : Byte) (s : Bytes) :
    s = (cutAt sep s).1 ++
      (match (cutAt sep s).2 with
        | none => []
        | some rest => sep :: rest) := by
  induction s with
  | nil => rfl
  | cons b s ih =>
      by_cases hb : b = sep
      · simp [cutAt, hb]
      · simp only [cutAt, hb, if_false, List.cons_append]
        rw [← ih]

/-! ## Decimal numerals -/

def digit (d : ℕ) : Byte := UInt8.ofNat (48 + d)

def isDigit (b : Byte) : Bool := 48 ≤ b && b ≤ 57

def digitVal (b : Byte) : ℕ := b.toNat - 48

/-- `sprintf("%ld", n)` for `0 ≤ n`. -/
def decimal (n : ℕ) : Bytes :=
  if n = 0 then [digit 0] else (Nat.digits 10 n).reverse.map digit

theorem digit_props :
    ∀ d < 10, isDigit (digit d) = true ∧ digitVal (digit d) = d ∧
      digit d ≠ nul ∧ digit d ≠ lf ∧ digit d ≠ cr ∧ digit d ≠ sp ∧
      digit d ≠ minus ∧ digit d ≠ plus ∧ digit d ≠ tab := by
  decide

theorem exists_digit_of_mem_decimal
    {n : ℕ} {b : Byte} (hb : b ∈ decimal n) :
    ∃ d < 10, b = digit d := by
  unfold decimal at hb
  split_ifs at hb with hn
  · exact ⟨0, by omega, by simpa using hb⟩
  · obtain ⟨d, hd, rfl⟩ := List.mem_map.mp hb
    exact ⟨d, Nat.digits_lt_base (by omega) (List.mem_reverse.mp hd), rfl⟩

theorem decimal_clean (n : ℕ) :
    nul ∉ decimal n ∧ lf ∉ decimal n ∧ cr ∉ decimal n ∧ sp ∉ decimal n := by
  have hclean : ∀ c ∈ [nul, lf, cr, sp], c ∉ decimal n := by
    intro c hc hmem
    obtain ⟨d, hd, rfl⟩ := exists_digit_of_mem_decimal hmem
    have h := digit_props d hd
    simp only [List.mem_cons, List.not_mem_nil, or_false] at hc
    tauto
  exact ⟨hclean _ (by simp), hclean _ (by simp), hclean _ (by simp),
    hclean _ (by simp)⟩

theorem decimal_ne_nil (n : ℕ) : decimal n ≠ [] := by
  unfold decimal
  split_ifs with hn
  · simp
  · simpa [Nat.digits_eq_nil_iff_eq_zero] using hn

theorem decimal_length_le
    {n k : ℕ} (hk : 1 ≤ k) (hn : n < 10 ^ k) : (decimal n).length ≤ k := by
  unfold decimal
  split_ifs with h
  · simpa using hk
  · simpa using (Nat.digits_length_le_iff (by omega) n).mpr hn

def digitsVal : ℕ → Bytes → ℕ
  | acc, [] => acc
  | acc, b :: rest =>
      if isDigit b then digitsVal (acc * 10 + digitVal b) rest else acc

theorem digitsVal_map_digit
    (acc : ℕ) (ds : List ℕ) (hds : ∀ d ∈ ds, d < 10) :
    digitsVal acc (ds.map digit) =
      ds.foldl (fun v d => v * 10 + d) acc := by
  induction ds generalizing acc with
  | nil => rfl
  | cons d ds ih =>
      have hd := digit_props d (hds d (by simp))
      simp only [List.map_cons, digitsVal, hd.1, if_true, hd.2.1,
        List.foldl_cons]
      exact ih _ fun e he => hds e (by simp [he])

theorem digitsVal_decimal (n : ℕ) : digitsVal 0 (decimal n) = n := by
  unfold decimal
  split_ifs with hn
  · subst hn
    decide
  · rw [digitsVal_map_digit]
    · rw [List.foldl_reverse]
      calc
        List.foldr (fun d v => v * 10 + d) 0 (Nat.digits 10 n) =
            List.foldr (fun d v => d + 10 * v) 0 (Nat.digits 10 n) := by
              congr 1
              funext d v
              ring
        _ = Nat.ofDigits 10 (Nat.digits 10 n) := by
              rw [Nat.ofDigits_eq_foldr]
              simp
        _ = n := Nat.ofDigits_digits 10 n
    · intro d hd
      exact Nat.digits_lt_base (by omega) (List.mem_reverse.mp hd)

theorem decimal_injective : Function.Injective decimal := by
  intro m n h
  rw [← digitsVal_decimal m, ← digitsVal_decimal n, h]

/-- `LONG_MAX` of an LP64 host. -/
def longMax : ℕ := 2 ^ 63 - 1

def isSpace (b : Byte) : Bool := b = sp || (9 ≤ b && b ≤ 13)

/-- `atol`: blanks, an optional sign, digits; the value saturates. -/
def atol (s : Bytes) : ℤ :=
  match s.dropWhile isSpace with
  | [] => 0
  | b :: rest =>
      if b = minus then -(min (digitsVal 0 rest) (longMax + 1) : ℕ)
      else if b = plus then (min (digitsVal 0 rest) longMax : ℕ)
      else (min (digitsVal 0 (b :: rest)) longMax : ℕ)

theorem digit_not_space : ∀ d < 10, isSpace (digit d) = false := by
  decide

/-- What `%ld` wrote, `atol` reads back. -/
theorem atol_decimal
    {n : ℕ} (hn : n ≤ longMax) : atol (decimal n) = n := by
  have hval := digitsVal_decimal n
  have hmem : ∀ b ∈ decimal n, ∃ d < 10, b = digit d :=
    fun b hb => exists_digit_of_mem_decimal hb
  cases hdec : decimal n with
  | nil => exact absurd hdec (decimal_ne_nil n)
  | cons b rest =>
      rw [hdec] at hval hmem
      obtain ⟨d, hd, rfl⟩ := hmem b (by simp)
      have hprops := digit_props d hd
      have hspace := digit_not_space d hd
      have hdrop : (digit d :: rest).dropWhile isSpace = digit d :: rest := by
        simp [hspace]
      unfold atol
      rw [hdrop]
      simp only [hprops.2.2.2.2.2.2.1, hprops.2.2.2.2.2.2.2.1, if_false]
      rw [hval, min_eq_left hn]

/-! ## Bits -/

/-- Bits that do not overlap add up. -/
theorem shiftLeft_or (a n : ℕ) {b : ℕ} (hb : b < 2 ^ n) :
    a <<< n ||| b = a * 2 ^ n + b := by
  rw [← Nat.shiftLeft_add_eq_or_of_lt hb, Nat.shiftLeft_eq]

end CText
