import Mathlib.Data.List.TakeWhile
import Mathlib.Tactic

/-!
# Maximal runs

A list is divided by its separators; the runs are the parts without separators
that are not empty, in their order.  Nothing here depends on a particular
program.
-/

namespace Runs

variable {α : Type*} {sep : α → Bool}

def runs (sep : α → Bool) (l : List α) : List (List α) :=
  (l.splitOnP sep).filter fun w => !w.isEmpty

@[simp] theorem runs_nil : runs sep [] = [] := by
  simp [runs]

theorem runs_append_sep
    (front : List α) {a : α} (ha : sep a = true) (rest : List α) :
    runs sep (front ++ a :: rest) = runs sep front ++ runs sep rest := by
  unfold runs
  rw [List.splitOnP_append_cons _ _ ha, List.filter_append]

@[simp] theorem runs_cons_sep {a : α} (ha : sep a = true) (rest : List α) :
    runs sep (a :: rest) = runs sep rest := by
  simpa using runs_append_sep [] ha rest

theorem runs_of_clean
    {w : List α} (hne : w ≠ []) (hclean : ∀ a ∈ w, sep a = false) : runs sep w = [w] := by
  unfold runs
  rw [List.splitOnP_eq_singleton hclean]
  simp [hne]

/-- Separators in front of a list do not matter. -/
theorem runs_append_of_seps
    {front : List α} (hfront : ∀ a ∈ front, sep a = true) (rest : List α) :
    runs sep (front ++ rest) = runs sep rest := by
  induction front with
  | nil => rfl
  | cons a front ih =>
      obtain ⟨ha, hfront⟩ := List.forall_mem_cons.mp hfront
      rw [List.cons_append, runs_cons_sep ha, ih hfront]

/-- A run that the rest does not continue is the first one. -/
theorem runs_append_of_clean
    {w rest : List α} (hne : w ≠ []) (hclean : ∀ a ∈ w, sep a = false)
    (hrest : ∀ a ∈ rest.head?, sep a = true) :
    runs sep (w ++ rest) = w :: runs sep rest := by
  cases rest with
  | nil => rw [List.append_nil, runs_of_clean hne hclean, runs_nil]
  | cons a rest =>
      have ha : sep a = true := hrest a rfl
      rw [runs_append_sep w ha, runs_of_clean hne hclean, runs_cons_sep ha]
      rfl

theorem head_dropWhile
    {p : α → Bool} (l : List α) : ∀ a ∈ (l.dropWhile p).head?, p a = false := by
  intro a ha
  have hnot := List.head?_dropWhile_not p l
  rw [Option.mem_def.mp ha] at hnot
  simpa using hnot

/-- The scanner's view: skip separators, then take what is not one. -/
theorem runs_eq_scan (l : List α) :
    runs sep l =
      if (l.dropWhile sep).takeWhile (! sep ·) = [] then []
      else (l.dropWhile sep).takeWhile (! sep ·) ::
        runs sep ((l.dropWhile sep).dropWhile (! sep ·)) := by
  have hskip : runs sep l = runs sep (l.dropWhile sep) := by
    conv_lhs => rw [← List.takeWhile_append_dropWhile (p := sep) (l := l)]
    exact runs_append_of_seps (fun a ha => List.mem_takeWhile_imp ha) _
  have hhead := head_dropWhile (p := sep) l
  rw [hskip]
  generalize l.dropWhile sep = start at hhead ⊢
  cases start with
  | nil => simp
  | cons a start =>
      have ha : sep a = false := hhead a rfl
      have hne : (a :: start).takeWhile (! sep ·) ≠ [] := by simp [ha]
      rw [if_neg hne]
      conv_lhs => rw [← List.takeWhile_append_dropWhile (p := (! sep ·)) (l := a :: start)]
      apply runs_append_of_clean hne
      · intro b hb
        simpa using List.mem_takeWhile_imp hb
      · intro b hb
        simpa using head_dropWhile (p := (! sep ·)) _ b hb

theorem scan_shorter
    {l : List α} (hne : (l.dropWhile sep).takeWhile (! sep ·) ≠ []) :
    ((l.dropWhile sep).dropWhile (! sep ·)).length < l.length := by
  have hskip := (List.dropWhile_suffix (l := l) sep).length_le
  have hpos := List.length_pos_iff.mpr hne
  have hsplit := congrArg List.length (List.takeWhile_append_dropWhile
    (p := (! sep ·)) (l := l.dropWhile sep))
  rw [List.length_append] at hsplit
  omega

/-- A run is a part that no neighbour continues. -/
theorem mem_runs_iff {w l : List α} :
    w ∈ runs sep l ↔ ∃ before after, l = before ++ (w ++ after) ∧ w ≠ [] ∧
      (∀ a ∈ w, sep a = false) ∧ (∀ a ∈ before.getLast?, sep a = true) ∧
      ∀ a ∈ after.head?, sep a = true := by
  constructor
  · intro hw
    induction hn : l.length using Nat.strong_induction_on generalizing l with
    | _ n ih =>
        rw [runs_eq_scan] at hw
        split_ifs at hw with hnil
        · simp at hw
        have hsplit : l = l.takeWhile sep ++ ((l.dropWhile sep).takeWhile (! sep ·) ++
            (l.dropWhile sep).dropWhile (! sep ·)) := by
          rw [List.takeWhile_append_dropWhile, List.takeWhile_append_dropWhile]
        have hhead : ∀ a ∈ ((l.dropWhile sep).dropWhile (! sep ·)).head?, sep a = true := by
          intro a ha
          simpa using head_dropWhile (p := (! sep ·)) _ a ha
        rcases List.mem_cons.mp hw with rfl | hw
        · refine ⟨_, _, hsplit, hnil, ?_, ?_, hhead⟩
          · intro a ha
            simpa using List.mem_takeWhile_imp ha
          · intro a ha
            exact List.mem_takeWhile_imp (List.mem_of_getLast? ha)
        · have hlen := congrArg List.length hsplit
          have hpos := List.length_pos_iff.mpr hnil
          simp only [List.length_append] at hlen
          obtain ⟨before, after, hrest, hne, hclean, hbefore, hafter⟩ :=
            ih _ (by omega) hw rfl
          rw [hrest] at hsplit hhead
          refine ⟨l.takeWhile sep ++ ((l.dropWhile sep).takeWhile (! sep ·) ++ before),
            after, ?_, hne, hclean, ?_, hafter⟩
          · exact hsplit.trans (by simp only [List.append_assoc])
          · intro a ha
            cases before with
            | nil =>
                obtain ⟨c, w, rfl⟩ := List.exists_cons_of_ne_nil hne
                have hc : sep c = true := hhead c rfl
                rw [hclean c (by simp)] at hc
                exact absurd hc (by decide)
            | cons c before =>
                rw [← List.append_assoc, List.getLast?_append_cons] at ha
                exact hbefore a ha
  · rintro ⟨before, after, rfl, hne, hclean, hbefore, hafter⟩
    have hword : w ∈ runs sep (w ++ after) := by
      rw [runs_append_of_clean hne hclean hafter]
      exact List.mem_cons_self
    rcases List.eq_nil_or_concat before with rfl | ⟨before, a, rfl⟩
    · exact hword
    · have ha : sep a = true := hbefore a (by simp)
      rw [List.concat_eq_append, List.append_assoc, List.singleton_append,
        runs_append_sep before ha]
      exact List.mem_append_right _ hword

end Runs
