import Mathlib.Data.Set.Basic
import Mathlib.Data.List.Forall2
import Mathlib.Tactic

/-!
# Words that end by themselves

A set of words is prefix free when a reader who knows the set can tell from
the words themselves where one of them ends.  Then a concatenation of words
can be taken apart in one way only, also when each word comes from a set of
its own.
-/

namespace Codes

variable {α : Type*}

def PrefixFree (L : Set (List α)) : Prop :=
  ∀ ⦃u v s t⦄, u ∈ L → v ∈ L → u ++ s = v ++ t → u = v

section

variable {L M F X : Set (List α)}

theorem PrefixFree.rest
    (hL : PrefixFree L) {u v s t : List α} (hu : u ∈ L) (hv : v ∈ L)
    (h : u ++ s = v ++ t) : u = v ∧ s = t := by
  have huv := hL hu hv h
  subst huv
  exact ⟨rfl, List.append_cancel_left h⟩

theorem PrefixFree.subset (hM : PrefixFree M) (hLM : L ⊆ M) : PrefixFree L :=
  fun _ _ _ _ hu hv h => hM (hLM hu) (hLM hv) h

def followed (L M : Set (List α)) : Set (List α) :=
  {w | ∃ u ∈ L, ∃ v ∈ M, w = u ++ v}

theorem PrefixFree.followed
    (hL : PrefixFree L) (hM : PrefixFree M) : PrefixFree (followed L M) := by
  rintro _ _ s t ⟨u, hu, v, hv, rfl⟩ ⟨u', hu', v', hv', rfl⟩ h
  rw [List.append_assoc, List.append_assoc] at h
  obtain ⟨rfl, hrest⟩ := hL.rest hu hu' h
  rw [hM hv hv' hrest]

/-- Two sets without a word of one that starts like a word of the other. -/
def Unlike (L M : Set (List α)) : Prop :=
  ∀ ⦃u v s t⦄, u ∈ L → v ∈ M → u ++ s ≠ v ++ t

theorem PrefixFree.union
    (hL : PrefixFree L) (hM : PrefixFree M) (hunlike : Unlike L M) :
    PrefixFree (L ∪ M) := by
  rintro u v s t (hu | hu) (hv | hv) h
  · exact hL hu hv h
  · exact absurd h (hunlike hu hv)
  · exact absurd h.symm (hunlike hv hu)
  · exact hM hu hv h

def blocks (F X : Set (List α)) : Set (List α) :=
  {w | ∃ fs : List (List α), (∀ f ∈ fs, f ∈ F) ∧ ∃ x ∈ X, w = fs.flatten ++ x}

theorem PrefixFree.blocks
    (hF : PrefixFree F) (hX : PrefixFree X) (hunlike : Unlike F X) :
    PrefixFree (blocks F X) := by
  rintro _ _ s t ⟨fs, hfs, x, hx, rfl⟩ ⟨gs, hgs, y, hy, rfl⟩ h
  -- on the blocks of the first word; the second one must have the same
  induction fs generalizing gs with
  | nil =>
      cases gs with
      | nil =>
          simp only [List.flatten_nil, List.nil_append] at h ⊢
          exact hX hx hy h
      | cons g gs =>
          simp only [List.flatten_nil, List.nil_append, List.flatten_cons,
            List.append_assoc] at h
          exact absurd h.symm (hunlike (hgs g (by simp)) hx)
  | cons f fs ih =>
      have hf : f ∈ F := hfs f (by simp)
      cases gs with
      | nil =>
          simp only [List.flatten_nil, List.nil_append, List.flatten_cons,
            List.append_assoc] at h
          exact absurd h (hunlike hf hy)
      | cons g gs =>
          simp only [List.flatten_cons, List.append_assoc] at h ih ⊢
          obtain ⟨rfl, hrest⟩ := hF.rest hf (hgs g (by simp)) h
          rw [ih (fun f' hf' => hfs f' (by simp [hf'])) gs
            (fun g' hg' => hgs g' (by simp [hg'])) hrest]

end

def terminated (sep : α) : Set (List α) :=
  {w | ∃ text, sep ∉ text ∧ w = text ++ [sep]}

theorem prefixFree_terminated (sep : α) : PrefixFree (terminated sep) := by
  rintro _ _ s t ⟨text, htext, rfl⟩ ⟨text', htext', rfl⟩ h
  simp only [List.append_assoc, List.singleton_append] at h
  induction text generalizing text' with
  | nil =>
      cases text' with
      | nil => rfl
      | cons a text' =>
          simp only [List.nil_append, List.cons_append, List.cons.injEq] at h
          exact absurd h.1 (by simpa using fun ha => htext' (by simp [ha]))
  | cons a text ih =>
      cases text' with
      | nil =>
          simp only [List.nil_append, List.cons_append, List.cons.injEq] at h
          exact absurd h.1.symm (by simpa using fun ha => htext (by simp [ha]))
      | cons b text' =>
          simp only [List.cons_append, List.cons.injEq] at h ⊢
          exact ⟨h.1, ih (fun ha => htext (by simp [ha])) text'
            (fun ha => htext' (by simp [ha])) h.2⟩

/-- When every word is from the set of its place, the words of a
concatenation are determined. -/
theorem flatten_unique
    {β : Type*} {L : β → Set (List α)} (hL : ∀ b, PrefixFree (L b))
    {bs : List β} {ws vs : List (List α)}
    (hws : List.Forall₂ (fun b w => w ∈ L b) bs ws)
    (hvs : List.Forall₂ (fun b v => v ∈ L b) bs vs)
    (h : ws.flatten = vs.flatten) : ws = vs := by
  induction hws generalizing vs with
  | nil =>
      cases hvs
      rfl
  | @cons b w bs ws hw hws ih =>
      cases hvs with
      | @cons _ v _ vs hv hvs =>
          simp only [List.flatten_cons] at h
          obtain ⟨rfl, hrest⟩ := (hL b).rest hw hv h
          rw [ih hvs hrest]

/-- A prefix of coded values is the code of a prefix. -/
theorem PrefixFree.flatMap_prefix
    {β : Type*} {enc : β → List α} (hfree : PrefixFree (Set.range enc))
    (hinj : Function.Injective enc) (hne : ∀ b, enc b ≠ []) {bs cs : List β}
    (h : bs.flatMap enc <+: cs.flatMap enc) : bs <+: cs := by
  induction bs generalizing cs with
  | nil => exact List.nil_prefix
  | cons b bs ih =>
      obtain ⟨t, ht⟩ := h
      rw [List.flatMap_cons, List.append_assoc] at ht
      cases cs with
      | nil => exact absurd (List.append_eq_nil_iff.mp ht).1 (hne b)
      | cons c cs =>
          obtain ⟨hfirst, hrest⟩ := hfree.rest (Set.mem_range_self b) (Set.mem_range_self c) ht
          rw [hinj hfirst]
          exact List.cons_prefix_cons.mpr ⟨rfl, ih ⟨t, hrest⟩⟩

end Codes
