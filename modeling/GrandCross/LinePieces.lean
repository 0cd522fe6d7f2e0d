import Mathlib.Data.List.Basic
import Mathlib.Tactic

/-!
# Lines in pieces

A text is divided into lines by its separators; a line is written in pieces of
at most `n` elements, all but the last of them full.  A line that has ended is
written even if it is empty, what is behind the last separator only if it is
not.  Nothing here depends on a particular program.
-/

namespace LinePieces

variable {α : Type*}

/-- A list in pieces of `n` elements from the left. -/
def pieces (n : ℕ) (l : List α) : List (List α) :=
  if l = [] ∨ n = 0 then [] else l.take n :: pieces n (l.drop n)
termination_by l.length
decreasing_by
  rename_i h
  have hpos := List.length_pos_of_ne_nil fun hnil => h (Or.inl hnil)
  rw [List.length_drop]
  omega

def linePieces (n : ℕ) (l : List α) : List (List α) :=
  if l = [] then [[]] else pieces n l

/-- The pieces of all lines; the last line has not ended. -/
def textPieces (n : ℕ) : List (List α) → List (List α)
  | [] => []
  | [l] => pieces n l
  | l :: rest => linePieces n l ++ textPieces n rest

/-- A text in its lines in their pieces. -/
def written (n : ℕ) (sep : α → Bool) (text : List α) : List (List α) :=
  textPieces n (text.splitOnP sep)

variable {n : ℕ} {sep : α → Bool}

@[simp] theorem pieces_nil : pieces n ([] : List α) = [] := by
  rw [pieces, if_pos (Or.inl rfl)]

theorem pieces_short
    {l : List α} (hne : l ≠ []) (hlen : l.length ≤ n) : pieces n l = [l] := by
  have hpos := List.length_pos_of_ne_nil hne
  rw [pieces, if_neg (by rintro (hnil | hzero); exacts [hne hnil, by omega]),
    List.take_of_length_le hlen, List.drop_eq_nil_of_le hlen, pieces_nil]

theorem pieces_full
    {x : List α} (hpos : 0 < n) (hlen : x.length = n) (y : List α) :
    pieces n (x ++ y) = x :: pieces n y := by
  have hx : x ≠ [] := List.length_pos_iff.mp (by omega)
  rw [pieces, if_neg (by rintro (hnil | hzero); exacts [hx (by simp_all), by omega]),
    ← hlen, List.take_left, List.drop_left]

theorem pieces_flatten (hpos : 0 < n) (l : List α) : (pieces n l).flatten = l := by
  induction l using pieces.induct n with
  | case1 l hstop =>
      rcases hstop with rfl | hzero
      · simp
      · omega
  | case2 l hgo ih =>
      rw [pieces, if_neg hgo, List.flatten_cons, ih, List.take_append_drop]

theorem pieces_length {w l : List α} (hw : w ∈ pieces n l) : w ≠ [] ∧ w.length ≤ n := by
  induction l using pieces.induct n with
  | case1 l hstop =>
      rw [pieces, if_pos hstop] at hw
      exact absurd hw List.not_mem_nil
  | case2 l hgo ih =>
      rw [pieces, if_neg hgo] at hw
      rcases List.mem_cons.mp hw with rfl | hw
      · rw [not_or] at hgo
        exact ⟨by simp [List.take_eq_nil_iff, hgo], by simp⟩
      · exact ih hw

theorem linePieces_short {l : List α} (hlen : l.length ≤ n) : linePieces n l = [l] := by
  unfold linePieces
  split_ifs with hnil
  · rw [hnil]
  · exact pieces_short hnil hlen

theorem linePieces_full
    {x y : List α} (hpos : 0 < n) (hlen : x.length = n) (hy : y ≠ []) :
    linePieces n (x ++ y) = x :: linePieces n y := by
  unfold linePieces
  rw [if_neg (by simp [hy]), if_neg hy]
  exact pieces_full hpos hlen y

theorem linePieces_flatten (hpos : 0 < n) (l : List α) : (linePieces n l).flatten = l := by
  unfold linePieces
  split_ifs with hnil
  · rw [hnil]
    rfl
  · exact pieces_flatten hpos l

theorem textPieces_cons
    (l : List α) {rest : List (List α)} (hne : rest ≠ []) :
    textPieces n (l :: rest) = linePieces n l ++ textPieces n rest := by
  obtain ⟨m, rest, rfl⟩ := List.exists_cons_of_ne_nil hne
  rfl

theorem textPieces_flatten (hpos : 0 < n) (ls : List (List α)) :
    (textPieces n ls).flatten = ls.flatten := by
  induction ls using textPieces.induct with
  | case1 => rfl
  | case2 l => simp [textPieces, pieces_flatten hpos]
  | case3 l rest hrest ih =>
      rw [textPieces, List.flatten_append, ih, linePieces_flatten hpos, List.flatten_cons]
      exact hrest

/-! ## A text from its left -/

theorem splitOnP_append_clean
    {x : List α} (hclean : ∀ a ∈ x, sep a = false) (y : List α) :
    (x ++ y).splitOnP sep = (y.splitOnP sep).modifyHead (x ++ ·) := by
  induction x with
  | nil =>
      obtain ⟨l, ls, hy⟩ := List.exists_cons_of_ne_nil (List.splitOnP_ne_nil sep y)
      simp [hy]
  | cons a x ih =>
      obtain ⟨ha, hclean⟩ := List.forall_mem_cons.mp hclean
      rw [List.cons_append, List.splitOnP_cons_eq_if_modifyHead, ha, ih hclean]
      simp [List.modifyHead_modifyHead, Function.comp_def]

theorem written_short
    {cur : List α} (hclean : ∀ a ∈ cur, sep a = false) (hlen : cur.length ≤ n) :
    written n sep cur = if cur = [] then [] else [cur] := by
  unfold written
  rw [List.splitOnP_eq_singleton hclean, textPieces]
  split_ifs with hnil
  · rw [hnil, pieces_nil]
  · exact pieces_short hnil hlen

/-- A line that fits and has ended is one piece. -/
theorem written_end
    {cur : List α} (hclean : ∀ a ∈ cur, sep a = false) (hlen : cur.length ≤ n)
    {a : α} (ha : sep a = true) (rest : List α) :
    written n sep (cur ++ a :: rest) = cur :: written n sep rest := by
  unfold written
  rw [List.splitOnP_append_cons_of_forall_mem hclean a ha,
    textPieces_cons cur (List.splitOnP_ne_nil sep rest), linePieces_short hlen]
  rfl

/-- A full piece is written when its line goes on. -/
theorem written_full
    {cur : List α} (hpos : 0 < n) (hclean : ∀ a ∈ cur, sep a = false)
    (hlen : cur.length = n) {a : α} (ha : sep a = false) (rest : List α) :
    written n sep (cur ++ a :: rest) = cur :: written n sep (a :: rest) := by
  unfold written
  rw [splitOnP_append_clean hclean, List.splitOnP_cons_eq_if_modifyHead, ha]
  obtain ⟨l, ls, hrest⟩ := List.exists_cons_of_ne_nil (List.splitOnP_ne_nil sep rest)
  rw [hrest]
  simp only [Bool.false_eq_true, if_false, List.modifyHead_cons]
  cases ls with
  | nil => exact pieces_full hpos hlen _
  | cons m ls =>
      have hrest' : m :: ls ≠ [] := List.cons_ne_nil m ls
      rw [textPieces_cons _ hrest', textPieces_cons _ hrest',
        linePieces_full hpos hlen (List.cons_ne_nil a l)]
      rfl

theorem splitOnP_flatten (text : List α) :
    (text.splitOnP sep).flatten = text.filter (! sep ·) := by
  induction text with
  | nil => simp
  | cons a text ih =>
      obtain ⟨l, ls, hrest⟩ := List.exists_cons_of_ne_nil (List.splitOnP_ne_nil sep text)
      rw [List.splitOnP_cons_eq_if_modifyHead]
      rw [hrest] at ih ⊢
      cases ha : sep a with
      | true => simp [ha, ← ih]
      | false => simp [ha, ← ih]

theorem written_flatten (hpos : 0 < n) (text : List α) :
    (written n sep text).flatten = text.filter (! sep ·) := by
  unfold written
  rw [textPieces_flatten hpos, splitOnP_flatten]

end LinePieces
