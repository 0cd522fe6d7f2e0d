import Mathlib.Tactic

/-!
# A ring of slots

A fixed number of slots is written in turn.  `age` counts the writes since a
slot was written; a slot keeps its content until its age reaches the size of
the ring.  Nothing here depends on a particular program.
-/

/-- `n` slots and the one to be written next. -/
structure SlotRing (α : Type) (n : ℕ) where
  slots : List α
  next : ℕ
  length_slots : slots.length = n
  next_lt : next < n

namespace SlotRing

variable {α : Type} {n : ℕ}

def push (r : SlotRing α n) (a : α) : SlotRing α n where
  slots := r.slots.set r.next a
  next := (r.next + 1) % n
  length_slots := by simpa using r.length_slots
  next_lt := Nat.mod_lt _ (Nat.zero_lt_of_lt r.next_lt)

/-- Writes since slot `i` was written. -/
def age (r : SlotRing α n) (i : ℕ) : ℕ :=
  if i < r.next then r.next - 1 - i else r.next + n - 1 - i

theorem push_next (r : SlotRing α n) (a : α) :
    (r.push a).next = if r.next + 1 = n then 0 else r.next + 1 := by
  have hlt := r.next_lt
  show (r.next + 1) % n = _
  split_ifs with hlast
  · rw [hlast, Nat.mod_self]
  · exact Nat.mod_eq_of_lt (by omega)

theorem push_written (r : SlotRing α n) (a : α) :
    (r.push a).slots[r.next]? = some a := by
  have hlt : r.next < r.slots.length := by
    rw [r.length_slots]
    exact r.next_lt
  simp [push, hlt]

theorem push_other
    (r : SlotRing α n) (a : α) {i : ℕ} (hi : i ≠ r.next) :
    (r.push a).slots[i]? = r.slots[i]? :=
  List.getElem?_set_ne hi.symm

theorem mem_push
    {r : SlotRing α n} {a b : α} (hb : b ∈ (r.push a).slots) : b ∈ r.slots ∨ b = a :=
  List.mem_or_eq_of_mem_set hb

theorem age_push_written (r : SlotRing α n) (a : α) :
    (r.push a).age r.next = 0 := by
  have hlt := r.next_lt
  unfold age
  rw [push_next]
  split_ifs <;> omega

/-- A slot that is not yet the oldest survives a write and ages by one. -/
theorem push_survives
    (r : SlotRing α n) (a : α) {i : ℕ} (hi : i < n) (hage : r.age i + 1 < n) :
    i ≠ r.next ∧ (r.push a).age i = r.age i + 1 := by
  have hlt := r.next_lt
  unfold age at hage ⊢
  rw [push_next]
  split_ifs at hage ⊢ <;> omega

theorem find?_eq
    {p : α → Bool} {l : List α} {j : ℕ} {a : α} (hget : l[j]? = some a)
    (hp : p a = true)
    (hothers : ∀ i b, i ≠ j → l[i]? = some b → p b = false) :
    l.find? p = some a := by
  induction l generalizing j with
  | nil => simp at hget
  | cons b l ih =>
      cases j with
      | zero =>
          simp only [List.getElem?_cons_zero, Option.some.injEq] at hget
          subst hget
          simp [hp]
      | succ j =>
          have hb : p b = false := hothers 0 b (by omega) (by simp)
          rw [List.find?_cons_of_neg (by simp [hb])]
          apply ih hget
          intro i c hi hc
          exact hothers (i + 1) c (by omega) (by simpa using hc)

end SlotRing
