import Mathlib.Data.List.Basic
import Mathlib.Data.List.DropRight

/-!
# Absolute paths as lists of components

The text of an absolute path over any alphabet with a separator.  A text that
is followed by a separator, or by nothing, is the beginning of a path exactly
when it is the text of one of its ancestors.
-/

namespace GrandCross

namespace Comps

variable {α : Type}

/-- Every component behind a separator. -/
def joined (s : α) (comps : List (List α)) : List α := comps.flatMap fun c => s :: c

/-- A component is not empty and holds no separator. -/
def Ok (s : α) (comps : List (List α)) : Prop := ∀ c ∈ comps, c ≠ [] ∧ s ∉ c

/-- The text of an absolute path; the root is the separator itself. -/
def text (s : α) (comps : List (List α)) : List α :=
  if comps = [] then [s] else joined s comps

theorem text_of_ne_nil {comps : List (List α)} (s : α) (h : comps ≠ []) :
    text s comps = joined s comps := if_neg h

@[simp] theorem joined_nil (s : α) : joined s [] = [] := rfl

@[simp] theorem joined_cons (s : α) (c : List α) (comps : List (List α)) :
    joined s (c :: comps) = s :: (c ++ joined s comps) := rfl

theorem joined_append (s : α) (comps comps' : List (List α)) :
    joined s (comps ++ comps') = joined s comps ++ joined s comps' :=
  List.flatMap_append

theorem joined_take_drop (s : α) (comps : List (List α)) (k : ℕ) :
    joined s (comps.take k) ++ joined s (comps.drop k) = joined s comps := by
  rw [← joined_append, List.take_append_drop]

theorem head?_joined (s : α) (comps : List (List α)) :
    ∀ c ∈ (joined s comps).head?, c = s := by
  cases comps <;> simp [eq_comm]

theorem joined_eq_nil {s : α} {comps : List (List α)} :
    joined s comps = [] ↔ comps = [] := by
  cases comps <;> simp

theorem joined_drop_one (s : α) (comps : List (List α)) :
    (joined s comps).drop 1 = [s].intercalate comps := by
  induction comps with
  | nil => rfl
  | cons c comps ih =>
      cases comps with
      | nil => simp [List.intercalate]
      | cons c' comps =>
          rw [joined_cons, List.drop_one, List.tail_cons] at ih ⊢
          rw [List.intercalate_cons_cons, ← ih]
          simp

/-- Another separator in place of the first. -/
theorem joined_map
    {s : α} {comps : List (List α)} (h : Ok s comps) {f : α → α}
    (hf : ∀ a, a ≠ s → f a = a) : (joined s comps).map f = joined (f s) comps := by
  induction comps with
  | nil => rfl
  | cons c comps ih =>
      have hc : c.map f = c := by
        refine (List.map_congr_left ?_).trans (List.map_id c)
        intro a ha
        exact hf a fun has => (h c (by simp)).2 (has ▸ ha)
      rw [joined_cons, joined_cons, List.map_cons, List.map_append, hc,
        ih fun c' hc' => h c' (by simp [hc'])]

theorem length_joined_of_cons
    {s : α} {comps : List (List α)} (h : Ok s comps) (hne : comps ≠ []) :
    1 < (joined s comps).length := by
  obtain ⟨c, comps, rfl⟩ := List.exists_cons_of_ne_nil hne
  have hpos := List.length_pos_of_ne_nil (h c (by simp)).1
  simp only [joined_cons, List.length_cons, List.length_append]
  omega

/-- A beginning that ends at a boundary is the text of the first components. -/
theorem joined_prefix
    {s : α} {comps : List (List α)} (h : Ok s comps) {p rest : List α}
    (heq : p ++ rest = joined s comps) (hrest : ∀ c ∈ rest.head?, c = s) :
    ∃ k ≤ comps.length, p = joined s (comps.take k) ∧
      rest = joined s (comps.drop k) := by
  induction comps generalizing p with
  | nil =>
      obtain ⟨rfl, rfl⟩ := List.append_eq_nil_iff.mp heq
      exact ⟨0, le_rfl, rfl, rfl⟩
  | cons c comps ih =>
      cases p with
      | nil => exact ⟨0, Nat.zero_le _, rfl, heq⟩
      | cons a p =>
          obtain ⟨rfl, htail⟩ : a = s ∧ p ++ rest = c ++ joined s comps := by
            simpa using heq
          rcases List.append_eq_append_iff.mp htail with
              ⟨x, hc, hrest'⟩ | ⟨x, hp, hcomps⟩
          · -- the beginning ends inside the first component
            cases x with
            | nil =>
                have hnil : ([] : List α) ++ rest = joined a comps := by
                  simpa using hrest'
                obtain ⟨k, hk, hp, hdrop⟩ := ih (fun c' hc' => h c' (by simp [hc'])) hnil
                refine ⟨k + 1, by simpa using hk, ?_, by simpa using hdrop⟩
                rw [List.take_succ_cons, joined_cons, ← hp, hc]
                simp
            | cons b x =>
                have hb : b = a := hrest b (by simp [hrest'])
                exact absurd (by simp [hc, hb]) (h c (by simp)).2
          · obtain ⟨k, hk, hx, hdrop⟩ := ih (fun c' hc' => h c' (by simp [hc']))
              hcomps.symm
            refine ⟨k + 1, by simpa using hk, ?_, by simpa using hdrop⟩
            rw [List.take_succ_cons, joined_cons, ← hx, hp]

end Comps

end GrandCross
