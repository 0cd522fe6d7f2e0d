import Mathlib.Tactic

/-!
# Blocks written into a sequence

A block is written at an offset into a sequence that grows as needed, with a
filler in the gap.  A log of such writes, the latest first, says what stands
at every place: what the latest write over it put there, else what was there
in the beginning.  Nothing here depends on a particular program.
-/

namespace WriteLog

variable {α : Type} (filler : α)

/-- Write a block; an empty one changes nothing, wherever it is put. -/
def overwrite (content block : List α) (off : ℕ) : List α :=
  if block = [] then content
  else content.take off ++ List.replicate (off - content.length) filler ++ block ++
    content.drop (off + block.length)

theorem getD_overwrite (content block : List α) (off j : ℕ) :
    (overwrite filler content block off).getD j filler =
      if off ≤ j ∧ j < off + block.length then block.getD (j - off) filler
      else content.getD j filler := by
  unfold overwrite
  by_cases hempty : block = []
  · subst hempty
    rw [if_pos rfl, if_neg]
    rintro ⟨hle, hlt⟩
    simp only [List.length_nil] at hlt
    omega
  rw [if_neg hempty]
  -- the front part has exactly `off` places
  have hfront : (content.take off ++ List.replicate (off - content.length) filler).length =
      off := by
    rw [List.length_append, List.length_take, List.length_replicate]
    omega
  simp only [List.getD_eq_getElem?_getD]
  by_cases hbefore : j < off
  · rw [if_neg (by omega), List.append_assoc, List.getElem?_append_left (by omega)]
    by_cases hin : j < content.length
    · rw [List.getElem?_append_left (by rw [List.length_take]; omega),
        List.getElem?_take_of_lt hbefore]
    · rw [List.getElem?_append_right (by rw [List.length_take]; omega),
        List.getElem?_replicate, List.getElem?_eq_none (not_lt.mp hin)]
      split_ifs
      · rfl
      · rfl
  · by_cases hblock : j < off + block.length
    · rw [if_pos ⟨not_lt.mp hbefore, hblock⟩,
        List.getElem?_append_left (by rw [List.length_append]; omega),
        List.getElem?_append_right (by omega), hfront]
    · rw [if_neg (by omega), List.getElem?_append_right (by rw [List.length_append]; omega),
        List.getElem?_drop, List.length_append, hfront]
      congr 2
      omega

structure Write (α : Type) where
  off : ℕ
  block : List α

def Write.covers (j : ℕ) (w : Write α) : Bool :=
  decide (w.off ≤ j ∧ j < w.off + w.block.length)

/-- What a log, the latest write first, leaves at a place. -/
def lastWritten (orig : List α) (log : List (Write α)) (j : ℕ) : α :=
  match log.find? (Write.covers j) with
  | some w => w.block.getD (j - w.off) filler
  | none => orig.getD j filler

/-- The content is what the log left of the original. -/
def Reflects (orig : List α) (log : List (Write α)) (content : List α) : Prop :=
  ∀ j, content.getD j filler = lastWritten filler orig log j

variable {filler} {orig content : List α} {log : List (Write α)}

variable (filler orig) in
theorem Reflects.start : Reflects filler orig [] orig := fun _ => rfl

theorem Reflects.write
    (h : Reflects filler orig log content) (w : Write α) :
    Reflects filler orig (w :: log) (overwrite filler content w.block w.off) := by
  intro j
  rw [getD_overwrite]
  unfold lastWritten
  by_cases hcovers : w.off ≤ j ∧ j < w.off + w.block.length
  · have hfirst : Write.covers j w = true := decide_eq_true hcovers
    rw [if_pos hcovers, List.find?_cons_of_pos hfirst]
  · have hpast : ¬ Write.covers j w = true := by
      rw [Write.covers, decide_eq_true_eq]
      exact hcovers
    rw [if_neg hcovers, List.find?_cons_of_neg hpast]
    exact h j

/-- Part of the content, read from an offset. -/
theorem Reflects.read
    (h : Reflects filler orig log content) {off : ℕ} {data : List α}
    (hdata : data <+: content.drop off) {i : ℕ} {b : α} (hb : data[i]? = some b) :
    b = lastWritten filler orig log (off + i) := by
  obtain ⟨rest, hrest⟩ := hdata
  have hi := (List.getElem?_eq_some_iff.mp hb).1
  rw [← h, List.getD_eq_getElem?_getD, ← List.getElem?_drop, ← hrest,
    List.getElem?_append_left hi, hb]
  rfl

end WriteLog
