import GrandCross.CText

/-!
# Quotes on a cmd.exe line

The command interpreter of Windows reads a line with a quote that opens and
closes, and outside of quotes with a caret that takes away the meaning of the
next character.  What is left outside is the syntax of the line: only there do
ampersands, redirections and parentheses count.  Nothing here depends on a
particular program.
-/

namespace CmdQuotes

open CText

def quoteMark : Byte := 34
def caret : Byte := 94

inductive Mode where
  | plain
  | quoted
  | escaped
  deriving DecidableEq

def Mode.next (m : Mode) (b : Byte) : Mode :=
  match m with
  | .plain => if b = quoteMark then .quoted else if b = caret then .escaped else .plain
  | .quoted => if b = quoteMark then .plain else .quoted
  | .escaped => .plain

/-- The mode behind a text. -/
def Mode.after (m : Mode) (s : Bytes) : Mode := s.foldl Mode.next m

/-- A byte that counts as syntax where it stands. -/
def Mode.counts (m : Mode) (b : Byte) : Bool := m = .plain && b ≠ quoteMark && b ≠ caret

/-- The syntax of a text: its bytes outside of quotes that are not escaped. -/
def skeleton : Mode → Bytes → Bytes
  | _, [] => []
  | m, b :: s => if m.counts b then b :: skeleton (m.next b) s else skeleton (m.next b) s

@[simp] theorem Mode.after_nil (m : Mode) : m.after [] = m := rfl

@[simp] theorem Mode.after_cons (m : Mode) (b : Byte) (s : Bytes) :
    m.after (b :: s) = (m.next b).after s := rfl

theorem Mode.after_append (m : Mode) (s t : Bytes) :
    m.after (s ++ t) = (m.after s).after t :=
  List.foldl_append

theorem skeleton_append (m : Mode) (s t : Bytes) :
    skeleton m (s ++ t) = skeleton m s ++ skeleton (m.after s) t := by
  induction s generalizing m with
  | nil => rfl
  | cons b s ih =>
      rw [List.cons_append, skeleton, skeleton, ih, Mode.after_cons]
      split_ifs <;> rfl

/-! ## Inside of quotes -/

theorem after_quoted {s : Bytes} (h : quoteMark ∉ s) : Mode.quoted.after s = .quoted := by
  induction s with
  | nil => rfl
  | cons b s ih =>
      obtain ⟨hb, hs⟩ : quoteMark ≠ b ∧ quoteMark ∉ s := by simpa using h
      have hnext : Mode.quoted.next b = .quoted := if_neg (Ne.symm hb)
      rw [Mode.after_cons, hnext]
      exact ih hs

theorem skeleton_quoted {s : Bytes} (h : quoteMark ∉ s) : skeleton .quoted s = [] := by
  induction s with
  | nil => rfl
  | cons b s ih =>
      obtain ⟨hb, hs⟩ : quoteMark ≠ b ∧ quoteMark ∉ s := by simpa using h
      have hnext : Mode.quoted.next b = .quoted := if_neg (Ne.symm hb)
      rw [skeleton, hnext, if_neg (by simp [Mode.counts])]
      exact ih hs

/-- A string between quotes has no syntax, whatever is in it. -/
theorem quoted_string {s : Bytes} (h : quoteMark ∉ s) :
    Mode.plain.after (quoteMark :: (s ++ [quoteMark])) = .plain ∧
      skeleton .plain (quoteMark :: (s ++ [quoteMark])) = [] := by
  have hopen : Mode.plain.next quoteMark = .quoted := rfl
  have hclose : Mode.quoted.after [quoteMark] = .plain := rfl
  have hmark : skeleton .quoted [quoteMark] = [] := rfl
  constructor
  · rw [Mode.after_cons, hopen, Mode.after_append, after_quoted h, hclose]
  · rw [skeleton, hopen, if_neg (by decide), skeleton_append, skeleton_quoted h,
      after_quoted h, hmark, List.nil_append]

/-! ## Outside of quotes -/

theorem plain_text {s : Bytes} (h : ∀ b ∈ s, b ≠ quoteMark ∧ b ≠ caret) :
    Mode.plain.after s = .plain ∧ skeleton .plain s = s := by
  induction s with
  | nil => exact ⟨rfl, rfl⟩
  | cons b s ih =>
      obtain ⟨⟨hquote, hcaret⟩, hs⟩ := List.forall_mem_cons.mp h
      obtain ⟨hafter, hskel⟩ := ih hs
      have hnext : Mode.plain.next b = .plain := by
        rw [Mode.next, if_neg hquote, if_neg hcaret]
      have hcounts : Mode.plain.counts b = true := by simp [Mode.counts, hquote, hcaret]
      constructor
      · rw [Mode.after_cons, hnext, hafter]
      · rw [skeleton, hnext, if_pos hcounts, hskel]

end CmdQuotes
