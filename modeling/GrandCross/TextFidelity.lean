import GrandCross.TextChunks
import Mathlib.Data.List.Chain

/-!
# Which text passes the conversion unchanged

A byte string is read as well-formed UTF-8 characters and single bytes
elsewhere.  Without a Hangul sequence to compose in that reading, the
conversion keeps the string exactly when every byte that announces a longer
character is followed by all of its continuation bytes, in the shortest form.
-/

namespace GrandCross

open CText

def isCont (b : Byte) : Bool := 0x80 ≤ b.toNat ∧ b.toNat < 0xC0

theorem isCont_iff (b : Byte) : isCont b = true ↔ 0x80 ≤ b.toNat ∧ b.toNat < 0xC0 :=
  decide_eq_true_iff

/-! ## The reading as UTF-8 -/

/-- A Unicode scalar value. -/
def isScalar (c : ℕ) : Bool := c < 0xD800 ∨ (0xE000 ≤ c ∧ c ≤ 0x10FFFF)

theorem isScalar_iff (c : ℕ) :
    isScalar c = true ↔ c < 0xD800 ∨ (0xE000 ≤ c ∧ c ≤ 0x10FFFF) :=
  decide_eq_true_iff

/-- The well-formed character at the front: its length and code point. -/
def wellFormed : Bytes → Option (ℕ × ℕ)
  | [] => none
  | b0 :: rest =>
      if b0.toNat < 0x80 then some (1, b0.toNat)
      else if 0xC0 ≤ b0.toNat ∧ b0.toNat < 0xE0 then
        match rest with
        | b1 :: _ =>
            if isCont b1 ∧ 0x80 ≤ code2 b0 b1 then some (2, code2 b0 b1) else none
        | _ => none
      else if 0xE0 ≤ b0.toNat ∧ b0.toNat < 0xF0 then
        match rest with
        | b1 :: b2 :: _ =>
            if isCont b1 ∧ isCont b2 ∧ 0x800 ≤ code3 b0 b1 b2 ∧
                isScalar (code3 b0 b1 b2) then
              some (3, code3 b0 b1 b2)
            else none
        | _ => none
      else if 0xF0 ≤ b0.toNat ∧ b0.toNat < 0xF8 then
        match rest with
        | b1 :: b2 :: b3 :: _ =>
            if isCont b1 ∧ isCont b2 ∧ isCont b3 ∧ 0x10000 ≤ code4 b0 b1 b2 b3 ∧
                isScalar (code4 b0 b1 b2 b3) then
              some (4, code4 b0 b1 b2 b3)
            else none
        | _ => none
      else none

inductive Piece where
  | char (cp : ℕ)
  | raw (b : Byte)
  deriving DecidableEq

/-- Well-formed characters, and opaque bytes where there is none; the first
`skip` bytes belong to a character already read. -/
def readingFrom : ℕ → Bytes → List Piece
  | _, [] => []
  | skip + 1, _ :: rest => readingFrom skip rest
  | 0, b :: rest =>
      match wellFormed (b :: rest) with
      | some (k, cp) => .char cp :: readingFrom (k - 1) rest
      | none => .raw b :: readingFrom 0 rest

def reading (src : Bytes) : List Piece := readingFrom 0 src

/-- `L` and `V`, or an `LV` syllable and `T`. -/
def Composable : Piece → Piece → Prop
  | .char c, .char d => (isL c ∧ isV d) ∨ (isLV c ∧ isT d)
  | _, _ => False

instance (a b : Piece) : Decidable (Composable a b) :=
  match a, b with
  | .char c, .char d =>
      inferInstanceAs (Decidable ((isL c ∧ isV d) ∨ (isLV c ∧ isT d)))
  | .char _, .raw _ => inferInstanceAs (Decidable False)
  | .raw _, _ => inferInstanceAs (Decidable False)

/-- The reading has nothing to compose. -/
def NoHangul (src : Bytes) : Prop :=
  (reading src).IsChain fun a b => ¬ Composable a b

/-! ## Sound characters -/

/-- All continuation bytes are there and the form is the shortest one. -/
def Glyph.Sound : Glyph → Prop
  | .plain _ _ => True
  | .two b0 b1 _ => 0xC2 ≤ b0.toNat ∧ isCont b1
  | .three b0 b1 b2 _ =>
      isCont b1 ∧ isCont b2 ∧ (b0.toNat = 0xE0 → 0xA0 ≤ b1.toNat)
  | .four b0 b1 b2 b3 _ =>
      isCont b1 ∧ isCont b2 ∧ isCont b3 ∧ (b0.toNat = 0xF0 → 0x90 ≤ b1.toNat)
  | .stray _ _ => True

/-- Every byte that announces a longer character is followed by it. -/
def SoundText (src : Bytes) : Prop :=
  ∃ gs : List Glyph, src = textOf gs ∧ ∀ g ∈ gs, g.Sound

theorem ofNat_eq_iff {n : ℕ} (hn : n < 256) {b : Byte} :
    UInt8.ofNat n = b ↔ n = b.toNat := by
  constructor
  · rintro rfl
    rw [UInt8.toNat_ofNat', Nat.mod_eq_of_lt hn]
  · rintro rfl
    exact UInt8.ofNat_toNat

theorem cont_bits (c : ℕ) : 0x80 ||| c &&& 0x3F = 0x80 + c % 64 := by
  have hand : c &&& 0x3F = c % 64 := Nat.and_two_pow_sub_one_eq_mod _ 6
  rw [hand]
  exact shiftLeft_or 2 6 (Nat.mod_lt _ (by norm_num))

theorem u8enc_two {c : ℕ} (hlow : 0x80 ≤ c) (hhigh : c < 0x800) :
    u8enc c = [UInt8.ofNat (0xC0 + c / 64), UInt8.ofNat (0x80 + c % 64)] := by
  have hlead : 0xC0 ||| c >>> 6 = 0xC0 + c / 64 := by
    rw [Nat.shiftRight_eq_div_pow]
    exact shiftLeft_or 6 5 (by omega)
  unfold u8enc
  rw [if_neg (by omega), if_pos hhigh, hlead, cont_bits]

theorem u8enc_three {c : ℕ} (hlow : 0x800 ≤ c) (hhigh : c < 0x10000) :
    u8enc c = [UInt8.ofNat (0xE0 + c / 4096), UInt8.ofNat (0x80 + c / 64 % 64),
      UInt8.ofNat (0x80 + c % 64)] := by
  have hlead : 0xE0 ||| c >>> 12 = 0xE0 + c / 4096 := by
    rw [Nat.shiftRight_eq_div_pow]
    exact shiftLeft_or 14 4 (by omega)
  unfold u8enc
  rw [if_neg (by omega), if_neg (by omega), if_pos hhigh, hlead, cont_bits,
    cont_bits, Nat.shiftRight_eq_div_pow]

theorem u8enc_four {c : ℕ} (hlow : 0x10000 ≤ c) (hhigh : c < 0x200000) :
    u8enc c = [UInt8.ofNat (0xF0 + c / 262144), UInt8.ofNat (0x80 + c / 4096 % 64),
      UInt8.ofNat (0x80 + c / 64 % 64), UInt8.ofNat (0x80 + c % 64)] := by
  have hlead : 0xF0 ||| c >>> 18 = 0xF0 + c / 262144 := by
    rw [Nat.shiftRight_eq_div_pow]
    exact shiftLeft_or 30 3 (by omega)
  unfold u8enc
  rw [if_neg (by omega), if_neg (by omega), if_neg (by omega), hlead, cont_bits,
    cont_bits, cont_bits, Nat.shiftRight_eq_div_pow, Nat.shiftRight_eq_div_pow]

theorem u8enc_code2_iff
    {b0 b1 : Byte} (lead : 0xC0 ≤ b0.toNat ∧ b0.toNat < 0xE0) :
    u8enc (code2 b0 b1) = [b0, b1] ↔ 0xC2 ≤ b0.toNat ∧ isCont b1 := by
  have hb1 := b1.toNat_lt
  rw [isCont_iff]
  by_cases hshort : code2 b0 b1 < 0x80
  · have hlen := u8enc_length (code2 b0 b1)
    rw [if_pos hshort] at hlen
    unfold code2 at hshort
    constructor
    · intro heq
      rw [heq] at hlen
      simp at hlen
    · omega
  · have hhigh : code2 b0 b1 < 0x800 := by
      unfold code2
      omega
    rw [u8enc_two (by omega) hhigh]
    simp only [List.cons.injEq, and_true]
    unfold code2 at hshort hhigh ⊢
    rw [ofNat_eq_iff (by omega), ofNat_eq_iff (by omega)]
    omega

theorem u8enc_code3_iff
    {b0 b1 b2 : Byte} (lead : 0xE0 ≤ b0.toNat ∧ b0.toNat < 0xF0) :
    u8enc (code3 b0 b1 b2) = [b0, b1, b2] ↔
      isCont b1 ∧ isCont b2 ∧ (b0.toNat = 0xE0 → 0xA0 ≤ b1.toNat) := by
  have hb1 := b1.toNat_lt
  have hb2 := b2.toNat_lt
  rw [isCont_iff, isCont_iff]
  by_cases hshort : code3 b0 b1 b2 < 0x800
  · have hlen : (u8enc (code3 b0 b1 b2)).length ≤ 2 := by
      rw [u8enc_length]
      split_ifs <;> omega
    unfold code3 at hshort
    constructor
    · intro heq
      rw [heq] at hlen
      simp at hlen
    · omega
  · have hhigh : code3 b0 b1 b2 < 0x10000 := by
      unfold code3
      omega
    rw [u8enc_three (by omega) hhigh]
    simp only [List.cons.injEq, and_true]
    unfold code3 at hshort hhigh ⊢
    rw [ofNat_eq_iff (by omega), ofNat_eq_iff (by omega), ofNat_eq_iff (by omega)]
    omega

theorem u8enc_code4_iff
    {b0 b1 b2 b3 : Byte} (lead : 0xF0 ≤ b0.toNat ∧ b0.toNat < 0xF8) :
    u8enc (code4 b0 b1 b2 b3) = [b0, b1, b2, b3] ↔
      isCont b1 ∧ isCont b2 ∧ isCont b3 ∧ (b0.toNat = 0xF0 → 0x90 ≤ b1.toNat) := by
  have hb1 := b1.toNat_lt
  have hb2 := b2.toNat_lt
  have hb3 := b3.toNat_lt
  rw [isCont_iff, isCont_iff, isCont_iff]
  by_cases hshort : code4 b0 b1 b2 b3 < 0x10000
  · have hlen : (u8enc (code4 b0 b1 b2 b3)).length ≤ 3 := by
      rw [u8enc_length]
      split_ifs <;> omega
    unfold code4 at hshort
    constructor
    · intro heq
      rw [heq] at hlen
      simp at hlen
    · omega
  · have hhigh : code4 b0 b1 b2 b3 < 0x200000 := by
      unfold code4
      omega
    rw [u8enc_four (by omega) hhigh]
    simp only [List.cons.injEq, and_true]
    unfold code4 at hshort hhigh ⊢
    rw [ofNat_eq_iff (by omega), ofNat_eq_iff (by omega), ofNat_eq_iff (by omega),
      ofNat_eq_iff (by omega)]
    omega

/-- The sound characters are those that are encoded as they were read. -/
theorem Glyph.out_eq_iff (g : Glyph) : g.out = g.bytes ↔ g.Sound := by
  cases g with
  | plain b lead =>
      have henc : u8enc b.toNat = [b] := by
        simp [u8enc, lead]
      simp [Glyph.out, Glyph.code, Glyph.bytes, Glyph.Sound, henc]
  | two b0 b1 lead => exact u8enc_code2_iff lead
  | three b0 b1 b2 lead => exact u8enc_code3_iff lead
  | four b0 b1 b2 b3 lead => exact u8enc_code4_iff lead
  | stray b lead => simp [Glyph.out, Glyph.code, Glyph.Sound]

/-! ## Unchanged text is sound -/

theorem composeGlyphs_length (gs : List Glyph) :
    (composeGlyphs gs).length ≤ (textOf gs).length := by
  induction hn : gs.length using Nat.strong_induction_on generalizing gs with
  | _ n ih =>
      cases gs with
      | nil => simp [composeGlyphs]
      | cons g gs =>
          cases hcluster : cluster (g :: gs) with
          | none =>
              have hrest := ih gs.length (by simp [← hn]) gs rfl
              have hout := g.out_length
              rw [composeGlyphs_none hcluster, textOf_cons, List.length_append,
                List.length_append]
              omega
          | some res =>
              obtain ⟨sy, rest⟩ := res
              obtain ⟨used, hused, hlong, hthree⟩ := cluster_spec hcluster
              have hrest := ih rest.length
                (by rw [← hn]; exact cluster_shorter hcluster) rest rfl
              rw [composeGlyphs_some hcluster, hused, textOf_append,
                List.length_append, List.length_append]
              omega

/-- A composed syllable is shorter than what it was composed from. -/
theorem composeGlyphs_cluster_lt
    {g : Glyph} {gs rest : List Glyph} {sy : ℕ}
    (h : cluster (g :: gs) = some (sy, rest)) :
    (composeGlyphs (g :: gs)).length < (textOf (g :: gs)).length := by
  obtain ⟨used, hused, hlong, hthree⟩ := cluster_spec h
  have hrest := composeGlyphs_length rest
  rw [composeGlyphs_some h, hused, textOf_append, List.length_append,
    List.length_append]
  omega

theorem sound_of_unchanged
    (gs : List Glyph) (h : composeGlyphs gs = textOf gs) : ∀ g ∈ gs, g.Sound := by
  induction gs with
  | nil => simp
  | cons g gs ih =>
      cases hcluster : cluster (g :: gs) with
      | some res =>
          have hlt := composeGlyphs_cluster_lt hcluster
          rw [h] at hlt
          exact absurd hlt (lt_irrefl _)
      | none =>
          rw [composeGlyphs_none hcluster, textOf_cons] at h
          have hlen := congrArg List.length h
          rw [List.length_append, List.length_append] at hlen
          have hout := g.out_length
          have hrest := composeGlyphs_length gs
          obtain ⟨hbytes, htext⟩ := List.append_inj h (by omega)
          rw [List.forall_mem_cons]
          exact ⟨g.out_eq_iff.mp hbytes, ih htext⟩

/-! ## Sound text in the reading -/

theorem readingFrom_skip (x rest : Bytes) :
    readingFrom x.length (x ++ rest) = reading rest := by
  induction x with
  | nil => rfl
  | cons b x ih => exact ih

theorem reading_char
    {b : Byte} {x rest : Bytes} {cp : ℕ}
    (h : wellFormed (b :: (x ++ rest)) = some (x.length + 1, cp)) :
    reading (b :: (x ++ rest)) = .char cp :: reading rest := by
  rw [reading, readingFrom, h]
  simp only [Nat.add_sub_cancel, readingFrom_skip]

theorem reading_raw
    {b : Byte} {rest : Bytes} (h : wellFormed (b :: rest) = none) :
    reading (b :: rest) = .raw b :: reading rest := by
  rw [reading, readingFrom, h]
  rfl

theorem reading_stray
    {b : Byte} (hb : 0x80 ≤ b.toNat ∧ b.toNat < 0xC0 ∨ 0xF8 ≤ b.toNat) (rest : Bytes) :
    reading (b :: rest) = .raw b :: reading rest := by
  apply reading_raw
  unfold wellFormed
  simp only
  rw [if_neg (by omega), if_neg (by omega), if_neg (by omega), if_neg (by omega)]

/-- A sound character is read as itself or as opaque bytes. -/
def Glyph.pieces (g : Glyph) : List Piece :=
  match g.code with
  | some cp => if isScalar cp then [.char cp] else g.bytes.map .raw
  | none => g.bytes.map .raw

theorem reading_conts
    {x : Bytes} (hx : ∀ b ∈ x, isCont b = true) (rest : Bytes) :
    reading (x ++ rest) = x.map .raw ++ reading rest := by
  induction x with
  | nil => rfl
  | cons b x ih =>
      obtain ⟨hb, hx⟩ := List.forall_mem_cons.mp hx
      rw [List.cons_append, reading_stray (Or.inl ((isCont_iff b).mp hb)), ih hx]
      rfl

/-- A lead byte and its continuation bytes. -/
theorem reading_lead
    {b : Byte} {x rest : Bytes} {cp : ℕ} (hx : ∀ c ∈ x, isCont c = true)
    (h : wellFormed (b :: (x ++ rest)) =
      if isScalar cp then some (x.length + 1, cp) else none) :
    reading (b :: (x ++ rest)) =
      (if isScalar cp then [.char cp] else (b :: x).map .raw) ++ reading rest := by
  by_cases hscalar : isScalar cp = true
  · rw [if_pos hscalar] at h ⊢
    exact reading_char h
  · rw [if_neg hscalar] at h ⊢
    rw [reading_raw h, reading_conts hx]
    rfl

theorem reading_glyph {g : Glyph} (hsound : g.Sound) (rest : Bytes) :
    reading (g.bytes ++ rest) = g.pieces ++ reading rest := by
  cases g with
  | plain b lead =>
      have hscalar := (isScalar_iff b.toNat).mpr (by omega)
      apply reading_lead (x := [])
      · simp
      · simp [wellFormed, lead, hscalar]
  | two b0 b1 lead =>
      obtain ⟨hlow, hb1⟩ := hsound
      have hplain : ¬ b0.toNat < 0x80 := by omega
      have hcode : 0x80 ≤ code2 b0 b1 ∧ code2 b0 b1 < 0x800 := by
        unfold code2
        omega
      have hscalar := (isScalar_iff (code2 b0 b1)).mpr (by omega)
      apply reading_lead (x := [b1])
      · simp [hb1]
      · simp only [wellFormed, List.cons_append, List.nil_append, hplain, lead, hb1,
          hcode.1, hscalar, and_self, if_true, if_false]
        rfl
  | three b0 b1 b2 lead =>
      obtain ⟨hb1, hb2, hshort⟩ := hsound
      have hplain : ¬ b0.toNat < 0x80 := by omega
      have htwo : ¬ (0xC0 ≤ b0.toNat ∧ b0.toNat < 0xE0) := by omega
      have hcode : 0x800 ≤ code3 b0 b1 b2 := by
        rw [isCont_iff] at hb1
        unfold code3
        omega
      apply reading_lead (x := [b1, b2])
      · simp [hb1, hb2]
      · simp only [wellFormed, List.cons_append, List.nil_append, hplain, htwo,
          lead, hb1, hb2, hcode, true_and, and_self, if_true, if_false]
        rfl
  | four b0 b1 b2 b3 lead =>
      obtain ⟨hb1, hb2, hb3, hshort⟩ := hsound
      have hplain : ¬ b0.toNat < 0x80 := by omega
      have htwo : ¬ (0xC0 ≤ b0.toNat ∧ b0.toNat < 0xE0) := by omega
      have hthree : ¬ (0xE0 ≤ b0.toNat ∧ b0.toNat < 0xF0) := by omega
      have hcode : 0x10000 ≤ code4 b0 b1 b2 b3 := by
        rw [isCont_iff] at hb1
        unfold code4
        omega
      apply reading_lead (x := [b1, b2, b3])
      · simp [hb1, hb2, hb3]
      · simp only [wellFormed, List.cons_append, List.nil_append, hplain, htwo,
          hthree, lead, hb1, hb2, hb3, hcode, true_and, and_self, if_true, if_false]
        rfl
  | stray b lead => exact reading_stray lead rest

theorem Glyph.pieces_of_is
    {g : Glyph} {p : ℕ → Bool} (hp : p ∈ [isL, isV, isT, isLV])
    (hg : g.is p = true) : g.pieces = [.char g.cp] := by
  obtain ⟨hcode, hcp⟩ := Glyph.is_iff.mp hg
  have hscalar := (isScalar_iff g.cp).mpr (Or.inl (hangul_bounds hp hcp).2)
  unfold Glyph.pieces
  rw [hcode]
  simp [hscalar]

/-- What the reading keeps apart, the code keeps apart. -/
theorem cluster_none_of_reading
    {g : Glyph} {gs : List Glyph} (hsound : ∀ h ∈ g :: gs, h.Sound)
    (hnone : NoHangul (textOf (g :: gs))) : cluster (g :: gs) = none := by
  cases gs with
  | nil => rfl
  | cons v rest =>
      have hapart : ∀ p q : ℕ → Bool, p ∈ [isL, isV, isT, isLV] →
          q ∈ [isL, isV, isT, isLV] → g.is p = true → v.is q = true →
          ¬ Composable (.char g.cp) (.char v.cp) := by
        intro p q hp hq hg hv
        unfold NoHangul at hnone
        rw [textOf_cons, textOf_cons, reading_glyph (hsound g (by simp)),
          reading_glyph (hsound v (by simp)), Glyph.pieces_of_is hp hg,
          Glyph.pieces_of_is hq hv] at hnone
        exact (List.isChain_cons_cons.mp hnone).1
      simp only [cluster]
      rw [if_neg, if_neg]
      · rintro ⟨hg, hv⟩
        exact hapart isLV isT (by simp) (by simp) hg hv
          (Or.inr ⟨(Glyph.is_iff.mp hg).2, (Glyph.is_iff.mp hv).2⟩)
      · rintro ⟨hg, hv⟩
        exact hapart isL isV (by simp) (by simp) hg hv
          (Or.inl ⟨(Glyph.is_iff.mp hg).2, (Glyph.is_iff.mp hv).2⟩)

theorem unchanged_of_sound
    (gs : List Glyph) (hsound : ∀ g ∈ gs, g.Sound) (hnone : NoHangul (textOf gs)) :
    composeGlyphs gs = textOf gs := by
  induction gs with
  | nil => simp [composeGlyphs]
  | cons g gs ih =>
      have hrest : NoHangul (textOf gs) := by
        unfold NoHangul at hnone ⊢
        rw [textOf_cons, reading_glyph (hsound g (by simp))] at hnone
        exact hnone.right_of_append
      rw [composeGlyphs_none (cluster_none_of_reading hsound hnone), textOf_cons,
        g.out_eq_iff.mpr (hsound g (by simp)),
        ih (fun h hh => hsound h (by simp [hh])) hrest]

/-! ## Whole streams -/

theorem composed_eq_iff {src : Bytes} (hnone : NoHangul src) :
    composed src = src ↔ SoundText src := by
  constructor
  · intro heq
    obtain ⟨gs, tail, rfl, htail, -⟩ := exists_glyphs src
    rw [composed_text htail] at heq
    have hle := composeGlyphs_length gs
    have hlen := congrArg List.length heq
    rw [List.length_append] at hlen
    have hnil : tail = [] := List.length_eq_zero_iff.mp (by omega)
    rw [hnil, List.append_nil] at heq ⊢
    exact ⟨gs, rfl, sound_of_unchanged gs heq⟩
  · rintro ⟨gs, rfl, hsound⟩
    have hend : u8dec [] = .incomplete := rfl
    have htext := composed_text hend gs
    rw [List.append_nil] at htext
    rw [htext, unchanged_of_sound gs hsound hnone]

/-- Text without Hangul to compose passes unchanged if and only if it is
sound, whatever the chunks. -/
theorem txtRun_preserves_iff
    (chunks : List Bytes) (hsize : ∀ c ∈ chunks, c.length ≤ 4096)
    (hnone : NoHangul chunks.flatten) :
    (∃ outs : List Bytes, txtRun 8192 TxtStream.init chunks = outs.map some ∧
        outs.flatten = chunks.flatten) ↔
      SoundText chunks.flatten := by
  have hrun : txtRun 8192 TxtStream.init chunks =
      (HoldBack.feed composed safeEnd [] chunks).map some :=
    txtRun_feed le_rfl TxtStream.init chunks hsize
  have hall := HoldBack.feed_flatten safeEnd_safe [] chunks
  rw [List.nil_append] at hall
  rw [← composed_eq_iff hnone, ← hall]
  constructor
  · rintro ⟨outs, houts, hflat⟩
    rw [hrun] at houts
    have hinj := List.map_injective_iff.mpr (Option.some_injective Bytes) houts
    rw [← hflat, ← hinj]
  · intro heq
    exact ⟨_, hrun, heq⟩

instance (src : Bytes) : Decidable (NoHangul src) :=
  inferInstanceAs (Decidable ((reading src).IsChain fun a b => ¬ Composable a b))

/-- An accented letter cut in two. -/
theorem txtRun_preserves_accent :
    ∃ outs : List Bytes, txtRun 8192 TxtStream.init [[0x61, 0xC3], [0xA9]] =
        outs.map some ∧
      outs.flatten = [0x61, 0xC3, 0xA9] :=
  (txtRun_preserves_iff [[0x61, 0xC3], [0xA9]] (by decide) (by decide)).mpr
    ⟨[.plain 0x61 (by decide), .two 0xC3 0xA9 (by decide)], rfl, by
      simp only [List.forall_mem_cons]
      exact ⟨trivial, ⟨by decide, by decide⟩, by simp⟩⟩

/-- A Latin-1 letter in front of an `A`: the `A` is overwritten. -/
theorem txtRun_corrupts_latin1 :
    NoHangul [0xC3, 0x41] ∧
      txtRun 8192 TxtStream.init [[0xC3, 0x41]] = [some [0xC3, 0x81], some []] ∧
      ([[0xC3, 0x81], []] : List Bytes).flatten ≠ [0xC3, 0x41] := by
  decide +kernel

end GrandCross
