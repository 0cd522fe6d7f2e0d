import GrandCross.CText

/-!
# Words of a POSIX shell

Token recognition and quote removal as far as single quotes and the backslash
go.  An unquoted character that means something else to the shell, such as a
dollar sign, has no reading here.  Nothing depends on a particular program.
-/

namespace ShellWord

open CText

def quote : Byte := 39
def backslash : Byte := 92

/-- Blanks and the first characters of operators end a word. -/
def endsWord (b : Byte) : Bool :=
  b ∈ [sp, tab, lf, 59, 38, 124, 60, 62, 40, 41]

/-- Characters that have to be quoted to stand for themselves: dollar sign,
backquote, double quote, star, question mark, bracket, number sign, tilde. -/
def isSpecial (b : Byte) : Bool :=
  b ∈ [36, 96, 34, 42, 63, 91, 35, 126]

inductive Mode where
  | plain
  | quoted
  | escaped

/-- One word from the front of the input, without its quotes, and what follows
it. -/
def lexFrom : Mode → Bytes → Option (Bytes × Bytes)
  | .plain, [] => some ([], [])
  | .quoted, [] => none
  | .escaped, [] => none
  | .quoted, b :: s =>
      if b = quote then lexFrom .plain s
      else (lexFrom .quoted s).map fun r => (b :: r.1, r.2)
  | .escaped, b :: s =>
      -- A backslash at the end of a line joins the next one.
      if b = lf then lexFrom .plain s
      else (lexFrom .plain s).map fun r => (b :: r.1, r.2)
  | .plain, b :: s =>
      if b = quote then lexFrom .quoted s
      else if b = backslash then lexFrom .escaped s
      else if endsWord b then some ([], b :: s)
      else if isSpecial b then none
      else (lexFrom .plain s).map fun r => (b :: r.1, r.2)

def lexWord (s : Bytes) : Option (Bytes × Bytes) := lexFrom .plain s

/-- The word is over at the end of the input and at a character that ends
words. -/
def AtEnd (rest : Bytes) : Prop := ∀ b ∈ rest.head?, endsWord b = true

/-! ## Quoting -/

/-- A quote inside closes, stands behind a backslash, and opens again. -/
def quoteByte (b : Byte) : Bytes :=
  if b = quote then [quote, backslash, quote, quote] else [b]

def quoteWord (v : Bytes) : Bytes := quote :: (v.flatMap quoteByte ++ [quote])

theorem quoteByte_length (b : Byte) : (quoteByte b).length ≤ 4 := by
  unfold quoteByte
  split_ifs <;> simp

theorem quoteWord_length (v : Bytes) : (quoteWord v).length ≤ 4 * v.length + 2 := by
  have hbody : (v.flatMap quoteByte).length ≤ 4 * v.length := by
    induction v with
    | nil => simp
    | cons b v ih =>
        have hb := quoteByte_length b
        rw [List.flatMap_cons, List.length_append, List.length_cons]
        omega
  simp only [quoteWord, List.length_cons, List.length_append, List.length_nil]
  omega

theorem lexFrom_end {rest : Bytes} (hrest : AtEnd rest) :
    lexFrom .plain rest = some ([], rest) := by
  cases rest with
  | nil => rfl
  | cons b rest =>
      have hb : endsWord b = true := hrest b rfl
      have hquote : b ≠ quote := by
        rintro rfl
        exact absurd hb (by decide)
      have hback : b ≠ backslash := by
        rintro rfl
        exact absurd hb (by decide)
      simp [lexFrom, hquote, hback, hb]

/-- Inside the quotes every byte stands for itself, and a quote is read back
from its four bytes. -/
theorem lexFrom_quoted
    (v : Bytes) {rest : Bytes} (hrest : AtEnd rest) :
    lexFrom .quoted (v.flatMap quoteByte ++ quote :: rest) = some (v, rest) := by
  induction v with
  | nil =>
      rw [List.flatMap_nil, List.nil_append, lexFrom, if_pos rfl]
      exact lexFrom_end hrest
  | cons b v ih =>
      rw [List.flatMap_cons, List.append_assoc]
      by_cases hb : b = quote
      · subst hb
        have hback : backslash ≠ quote := by decide
        have hlf : quote ≠ lf := by decide
        rw [quoteByte, if_pos rfl]
        simp only [List.cons_append, List.nil_append, lexFrom, if_true, hback,
          if_false, hlf, ih, Option.map_some]
      · rw [quoteByte, if_neg hb, List.cons_append, List.nil_append, lexFrom,
          if_neg hb, ih]
        rfl

theorem lexWord_quoteWord
    (v : Bytes) {rest : Bytes} (hrest : AtEnd rest) :
    lexWord (quoteWord v ++ rest) = some (v, rest) := by
  have hopen : lexWord (quoteWord v ++ rest) =
      lexFrom .quoted (v.flatMap quoteByte ++ quote :: rest) := by
    simp [lexWord, quoteWord, lexFrom]
  rw [hopen]
  exact lexFrom_quoted v hrest

end ShellWord
