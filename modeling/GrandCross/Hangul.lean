import Mathlib.Data.List.Chain
import Mathlib.Data.List.Flatten
import Mathlib.Tactic

/-!
# Hangul syllables

Composition as the Unicode standard defines it: the text is read from left to
right, and a character that composes with the one before it takes its place.
Reading with a pair function is the same for any alphabet, so it comes first.
-/

namespace Neighbours

variable {α β : Type} (pair : α → α → Option α)

/-- The rest of a text behind its last character. -/
def mergeFrom : α → List α → List α
  | a, [] => [a]
  | a, b :: rest =>
      match pair a b with
      | some c => mergeFrom c rest
      | none => a :: mergeFrom b rest

def merge : List α → List α
  | [] => []
  | a :: rest => mergeFrom pair a rest

variable {pair}

theorem merge_cons (a : α) (rest : List α) :
    merge pair (a :: rest) = mergeFrom pair a rest := rfl

theorem mergeFrom_some {a b c : α} (h : pair a b = some c) (rest : List α) :
    mergeFrom pair a (b :: rest) = mergeFrom pair c rest := by
  simp [mergeFrom, h]

/-- A character that does not compose with the next one is closed. -/
theorem mergeFrom_closed
    {a : α} {rest : List α} (h : ∀ b ∈ rest.head?, pair a b = none) :
    mergeFrom pair a rest = a :: merge pair rest := by
  cases rest with
  | nil => rfl
  | cons b rest =>
      have hnone : pair a b = none := h b rfl
      simp [mergeFrom, merge, hnone]

theorem merge_eq_self
    {text : List α} (h : text.IsChain fun a b => pair a b = none) :
    merge pair text = text := by
  induction text with
  | nil => rfl
  | cons a rest ih =>
      rw [List.isChain_cons] at h
      rw [merge_cons, mergeFrom_closed h.1, ih h.2]

section Composed

variable (hcomposed : ∀ a b c d : α, pair a b = some c → pair d c = none)
include hcomposed

/-- Nothing is left to compose, and what stood in front of the text does not
compose with it either. -/
theorem mergeFrom_isChain (a : α) (rest : List α) :
    (mergeFrom pair a rest).IsChain (fun a b => pair a b = none) ∧
      ∀ d, pair d a = none → ∀ b ∈ (mergeFrom pair a rest).head?, pair d b = none := by
  induction rest generalizing a with
  | nil =>
      refine ⟨by simp [mergeFrom], ?_⟩
      rintro d hd b ⟨⟩
      exact hd
  | cons b rest ih =>
      cases hpair : pair a b with
      | some c =>
          rw [mergeFrom_some hpair]
          exact ⟨(ih c).1, fun d _ => (ih c).2 d (hcomposed a b c d hpair)⟩
      | none =>
          have hstep : mergeFrom pair a (b :: rest) = a :: mergeFrom pair b rest := by
            simp [mergeFrom, hpair]
          rw [hstep]
          refine ⟨List.isChain_cons.mpr ⟨(ih b).2 a hpair, (ih b).1⟩, ?_⟩
          rintro d hd x ⟨⟩
          exact hd

theorem merge_idem (text : List α) : merge pair (merge pair text) = merge pair text := by
  cases text with
  | nil => rfl
  | cons a rest => exact merge_eq_self (mergeFrom_isChain hcomposed a rest).1

end Composed

theorem merge_forall
    {P : α → Prop} (hpair : ∀ a b c, pair a b = some c → P c) {text : List α}
    (htext : ∀ a ∈ text, P a) : ∀ a ∈ merge pair text, P a := by
  cases text with
  | nil => simp [merge]
  | cons a rest =>
      rw [merge_cons]
      induction rest generalizing a with
      | nil => exact htext
      | cons b rest ih =>
          obtain ⟨ha, hrest⟩ := List.forall_mem_cons.mp htext
          obtain ⟨hb, hrest⟩ := List.forall_mem_cons.mp hrest
          cases hstep : pair a b with
          | some c =>
              rw [mergeFrom_some hstep]
              exact ih c (List.forall_mem_cons.mpr ⟨hpair a b c hstep, hrest⟩)
          | none =>
              have hcons : mergeFrom pair a (b :: rest) = a :: mergeFrom pair b rest := by
                simp [mergeFrom, hstep]
              rw [hcons]
              exact List.forall_mem_cons.mpr
                ⟨ha, ih b (List.forall_mem_cons.mpr ⟨hb, hrest⟩)⟩

/-- Reading commutes with a translation that keeps the pairs. -/
theorem merge_map
    {pair' : β → β → Option β} {f : α → β}
    (hf : ∀ a b, pair' (f a) (f b) = (pair a b).map f) (text : List α) :
    merge pair' (text.map f) = (merge pair text).map f := by
  cases text with
  | nil => rfl
  | cons a rest =>
      simp only [List.map_cons, merge_cons]
      induction rest generalizing a with
      | nil => rfl
      | cons b rest ih =>
          have hpair := hf a b
          cases hstep : pair a b with
          | some c =>
              rw [hstep] at hpair
              rw [List.map_cons, mergeFrom_some hpair, mergeFrom_some hstep, ih c]
          | none =>
              rw [hstep] at hpair
              simp only [List.map_cons, mergeFrom, hpair, hstep, Option.map_none, ih b]

end Neighbours

namespace Hangul

/-- The composition of two code points, if they have one: `L` and `V`, or an
`LV` syllable and `T`. -/
def pairCode (c d : ℕ) : Option ℕ :=
  if (0x1100 ≤ c ∧ c ≤ 0x1112) ∧ 0x1161 ≤ d ∧ d ≤ 0x1175 then
    some (0xAC00 + ((c - 0x1100) * 21 + (d - 0x1161)) * 28)
  else if (0xAC00 ≤ c ∧ c ≤ 0xD7A3 ∧ (c - 0xAC00) % 28 = 0) ∧
      0x11A8 ≤ d ∧ d ≤ 0x11C2 then
    some (c + (d - 0x11A7))
  else none

theorem pairCode_syllable
    {c d s : ℕ} (h : pairCode c d = some s) : 0xAC00 ≤ s ∧ s ≤ 0xD7A3 := by
  unfold pairCode at h
  split_ifs at h with hlv hlvt
  · have hs := Option.some.inj h
    omega
  · have hs := Option.some.inj h
    omega

theorem pairCode_behind {c s : ℕ} (h : 0xAC00 ≤ s) : pairCode c s = none := by
  unfold pairCode
  rw [if_neg (by omega), if_neg (by omega)]

def pair (a b : Char) : Option Char := (pairCode a.toNat b.toNat).map Char.ofNat

theorem toNat_syllable {s : ℕ} (h : s ≤ 0xD7A3) : (Char.ofNat s).toNat = s := by
  have hvalid : s.isValidChar := Or.inl (by omega)
  unfold Char.ofNat
  rw [dif_pos hvalid]
  rfl

theorem pair_toNat (a b : Char) : (pair a b).map Char.toNat = pairCode a.toNat b.toNat := by
  unfold pair
  cases hcode : pairCode a.toNat b.toNat with
  | none => rfl
  | some s => simp [toNat_syllable (pairCode_syllable hcode).2]

/-- Hangul composition of a text. -/
def compose (u : List Char) : List Char := Neighbours.merge pair u

def IsSyllable (c : Char) : Prop := 0xAC00 ≤ c.toNat ∧ c.toNat ≤ 0xD7A3

instance (c : Char) : Decidable (IsSyllable c) :=
  inferInstanceAs (Decidable (0xAC00 ≤ c.toNat ∧ c.toNat ≤ 0xD7A3))

/-- The canonical decomposition; a character other than a syllable has none
here. -/
def decompose (c : Char) : List Char :=
  if IsSyllable c then
    let s := c.toNat - 0xAC00
    let lv := [Char.ofNat (0x1100 + s / 588), Char.ofNat (0x1161 + s % 588 / 28)]
    if s % 28 = 0 then lv else lv ++ [Char.ofNat (0x11A7 + s % 28)]
  else [c]

theorem pair_some {a b c : Char} (h : pairCode a.toNat b.toNat = some c.toNat) :
    pair a b = some c := by
  simp [pair, h, Char.ofNat_toNat]

/-- The letters of a syllable, by its number. -/
theorem pairCode_open {s : ℕ} (hs : s < 11172) :
    pairCode (0x1100 + s / 588) (0x1161 + s % 588 / 28) = some (0xAC00 + s / 28 * 28) := by
  unfold pairCode
  rw [if_pos (by omega)]
  exact congrArg some (by omega)

theorem pairCode_final {s : ℕ} (hs : s < 11172) (hfinal : s % 28 ≠ 0) :
    pairCode (0xAC00 + s / 28 * 28) (0x11A7 + s % 28) = some (0xAC00 + s) := by
  unfold pairCode
  rw [if_neg (by omega), if_pos (by omega)]
  exact congrArg some (by omega)

/-- A decomposed syllable in front of a text that does not start with a final
consonant. -/
theorem merge_decompose
    {c : Char} (hc : IsSyllable c) {rest : List Char}
    (hrest : ∀ b ∈ rest.head?, b.toNat ≤ 0x1112) :
    Neighbours.merge pair (decompose c ++ rest) = c :: Neighbours.merge pair rest := by
  obtain ⟨s, hs⟩ := Nat.exists_eq_add_of_le hc.1
  have hlt : s < 11172 := by
    have hhigh := hc.2
    omega
  have hclosed : ∀ b ∈ rest.head?, pair c b = none := by
    intro b hb
    have hlead := hrest b hb
    have hcode : pairCode c.toNat b.toNat = none := by
      unfold pairCode
      rw [if_neg (by omega), if_neg (by omega)]
    simp [pair, hcode]
  -- The syllable of the first two letters.
  have hlv : pair (Char.ofNat (0x1100 + s / 588)) (Char.ofNat (0x1161 + s % 588 / 28)) =
      some (Char.ofNat (0xAC00 + s / 28 * 28)) := by
    apply pair_some
    rw [toNat_syllable (by omega), toNat_syllable (by omega), toNat_syllable (by omega)]
    exact pairCode_open hlt
  have hnumber : c.toNat - 0xAC00 = s := by omega
  unfold decompose
  rw [if_pos hc, hnumber]
  dsimp only
  split_ifs with hopen
  · have hself : Char.ofNat (0xAC00 + s / 28 * 28) = c := by
      rw [Nat.div_mul_cancel (Nat.dvd_of_mod_eq_zero hopen), ← hs, Char.ofNat_toNat]
    rw [hself] at hlv
    simp only [List.cons_append, List.nil_append]
    rw [Neighbours.merge_cons, Neighbours.mergeFrom_some hlv, Neighbours.mergeFrom_closed hclosed]
  · have ht : pair (Char.ofNat (0xAC00 + s / 28 * 28)) (Char.ofNat (0x11A7 + s % 28)) =
        some c := by
      apply pair_some
      rw [toNat_syllable (by omega), toNat_syllable (by omega), hs]
      exact pairCode_final hlt hopen
    simp only [List.cons_append, List.nil_append]
    rw [Neighbours.merge_cons, Neighbours.mergeFrom_some hlv, Neighbours.mergeFrom_some ht,
      Neighbours.mergeFrom_closed hclosed]

theorem decompose_head {c : Char} (hc : IsSyllable c) (rest : List Char) :
    ∀ b ∈ (decompose c ++ rest).head?, b.toNat ≤ 0x1112 := by
  have hbounds := hc
  obtain ⟨hlow, hhigh⟩ := hbounds
  intro b hb
  have hfirst : (decompose c ++ rest).head? =
      some (Char.ofNat (0x1100 + (c.toNat - 0xAC00) / 588)) := by
    unfold decompose
    rw [if_pos hc]
    dsimp only
    split_ifs <;> rfl
  rw [hfirst] at hb
  rw [← Option.some.inj hb, toNat_syllable (by omega)]
  omega

/-- Composition undoes decomposition. -/
theorem compose_decompose (w : List Char) (hw : ∀ c ∈ w, IsSyllable c) :
    compose (w.flatMap decompose) = w := by
  induction w with
  | nil => rfl
  | cons c w ih =>
      obtain ⟨hc, hw⟩ := List.forall_mem_cons.mp hw
      have hhead : ∀ b ∈ (w.flatMap decompose).head?, b.toNat ≤ 0x1112 := by
        cases w with
        | nil => simp
        | cons d w => exact decompose_head (hw d (by simp)) _
      rw [compose, List.flatMap_cons, merge_decompose hc hhead]
      exact congrArg (List.cons c) (ih hw)

end Hangul
