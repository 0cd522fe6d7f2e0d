import Mathlib.Tactic

/-!
# Streams with hold-back

A transformation of a whole sequence is run chunk by chunk: each chunk goes
behind what was held, the part in front of a cut is transformed at once and
the rest is held; the end of the stream transforms what is left.  The result
does not depend on the chunks when every cut is safe.  Nothing here depends on
a particular program.
-/

namespace HoldBack

variable {α β : Type*} (whole : List α → List β) (cut : List α → ℕ)

/-- What is in front of the cut may be transformed on its own, whatever
follows. -/
def SafeCut : Prop :=
  ∀ x y, whole (x ++ y) = whole (x.take (cut x)) ++ whole (x.drop (cut x) ++ y)

/-- The results of the chunks and of the end of the stream. -/
def feed : List α → List (List α) → List (List β)
  | held, [] => [whole held]
  | held, c :: cs =>
      whole ((held ++ c).take (cut (held ++ c))) ::
        feed ((held ++ c).drop (cut (held ++ c))) cs

variable {whole cut}

theorem feed_flatten
    (hsafe : SafeCut whole cut) (held : List α) (cs : List (List α)) :
    (feed whole cut held cs).flatten = whole (held ++ cs.flatten) := by
  induction cs generalizing held with
  | nil => simp [feed]
  | cons c cs ih =>
      rw [feed, List.flatten_cons, ih, List.flatten_cons, ← List.append_assoc held]
      exact (hsafe (held ++ c) cs.flatten).symm

end HoldBack
