import GrandCross.TextConv

/-!
# Characters of the text conversion

Any byte string is a sequence of characters as `u8dec` reads them and an
incomplete one at the end.  Over the characters composition is a function of
its own, and the loop of `compose` computes it.
-/

namespace GrandCross

open CText

/-! ## Bits -/

theorem low6_eq (b : Byte) : low6 b = b.toNat % 64 :=
  Nat.and_two_pow_sub_one_eq_mod b.toNat 6

theorem low6_lt (b : Byte) : low6 b < 2 ^ 6 := by
  rw [low6_eq]
  exact Nat.mod_lt _ (by norm_num)

theorem bits_three (a : ℕ) {b c : ℕ} (hb : b < 2 ^ 6) (hc : c < 2 ^ 6) :
    a <<< 12 ||| b <<< 6 ||| c = a * 4096 + b * 64 + c := by
  have hlow : b <<< 6 ||| c = b * 64 + c := shiftLeft_or b 6 hc
  rw [Nat.or_assoc, hlow, shiftLeft_or a 12 (by omega)]
  omega

theorem bits_four
    (a : ℕ) {b c d : ℕ} (hb : b < 2 ^ 6) (hc : c < 2 ^ 6) (hd : d < 2 ^ 6) :
    a <<< 18 ||| b <<< 12 ||| c <<< 6 ||| d =
      a * 262144 + b * 4096 + c * 64 + d := by
  have hlow : b <<< 12 ||| c <<< 6 ||| d = b * 4096 + c * 64 + d :=
    bits_three b hc hd
  rw [Nat.or_assoc, Nat.or_assoc, ← Nat.or_assoc (b <<< 12), hlow,
    shiftLeft_or a 18 (by omega)]
  omega

theorem lead_two : ∀ n < 256, n &&& 0xE0 = 0xC0 ↔ 0xC0 ≤ n ∧ n < 0xE0 := by
  decide +kernel

theorem lead_three : ∀ n < 256, n &&& 0xF0 = 0xE0 ↔ 0xE0 ≤ n ∧ n < 0xF0 := by
  decide +kernel

theorem lead_four : ∀ n < 256, n &&& 0xF8 = 0xF0 ↔ 0xF0 ≤ n ∧ n < 0xF8 := by
  decide +kernel

def code2 (b0 b1 : Byte) : ℕ := b0.toNat % 32 * 64 + b1.toNat % 64

def code3 (b0 b1 b2 : Byte) : ℕ :=
  b0.toNat % 16 * 4096 + b1.toNat % 64 * 64 + b2.toNat % 64

def code4 (b0 b1 b2 b3 : Byte) : ℕ :=
  b0.toNat % 8 * 262144 + b1.toNat % 64 * 4096 + b2.toNat % 64 * 64 + b3.toNat % 64

theorem code2_bits (b0 b1 : Byte) :
    (b0.toNat &&& 0x1F) <<< 6 ||| low6 b1 = code2 b0 b1 := by
  have hand : b0.toNat &&& 0x1F = b0.toNat % 32 :=
    Nat.and_two_pow_sub_one_eq_mod _ 5
  rw [shiftLeft_or _ 6 (low6_lt b1), hand, low6_eq]
  rfl

theorem code3_bits (b0 b1 b2 : Byte) :
    (b0.toNat &&& 0x0F) <<< 12 ||| low6 b1 <<< 6 ||| low6 b2 = code3 b0 b1 b2 := by
  have hand : b0.toNat &&& 0x0F = b0.toNat % 16 :=
    Nat.and_two_pow_sub_one_eq_mod _ 4
  rw [bits_three _ (low6_lt b1) (low6_lt b2), hand, low6_eq, low6_eq]
  rfl

theorem code4_bits (b0 b1 b2 b3 : Byte) :
    (b0.toNat &&& 0x07) <<< 18 ||| low6 b1 <<< 12 ||| low6 b2 <<< 6 ||| low6 b3 =
      code4 b0 b1 b2 b3 := by
  have hand : b0.toNat &&& 0x07 = b0.toNat % 8 :=
    Nat.and_two_pow_sub_one_eq_mod _ 3
  rw [bits_four _ (low6_lt b1) (low6_lt b2) (low6_lt b3), hand, low6_eq, low6_eq,
    low6_eq]
  rfl

/-! ## Characters -/

/-- A character as `u8dec` reads it; `stray` is a byte that starts none. -/
inductive Glyph where
  | plain (b : Byte) (lead : b.toNat < 0x80)
  | two (b0 b1 : Byte) (lead : 0xC0 ≤ b0.toNat ∧ b0.toNat < 0xE0)
  | three (b0 b1 b2 : Byte) (lead : 0xE0 ≤ b0.toNat ∧ b0.toNat < 0xF0)
  | four (b0 b1 b2 b3 : Byte) (lead : 0xF0 ≤ b0.toNat ∧ b0.toNat < 0xF8)
  | stray (b : Byte) (lead : 0x80 ≤ b.toNat ∧ b.toNat < 0xC0 ∨ 0xF8 ≤ b.toNat)

def Glyph.bytes : Glyph → Bytes
  | .plain b _ => [b]
  | .two b0 b1 _ => [b0, b1]
  | .three b0 b1 b2 _ => [b0, b1, b2]
  | .four b0 b1 b2 b3 _ => [b0, b1, b2, b3]
  | .stray b _ => [b]

def Glyph.code : Glyph → Option ℕ
  | .plain b _ => some b.toNat
  | .two b0 b1 _ => some (code2 b0 b1)
  | .three b0 b1 b2 _ => some (code3 b0 b1 b2)
  | .four b0 b1 b2 b3 _ => some (code4 b0 b1 b2 b3)
  | .stray _ _ => none

def Dec.of (k : ℕ) : Option ℕ → Dec
  | some cp => .char k cp
  | none => .invalid

/-- `u8dec` reads a character whatever follows. -/
theorem Glyph.reads (g : Glyph) (rest : Bytes) :
    u8dec (g.bytes ++ rest) = .of g.bytes.length g.code := by
  cases g with
  | plain b lead => simp [Glyph.bytes, Glyph.code, u8dec, lead, Dec.of]
  | two b0 b1 lead =>
      have hplain : ¬ b0.toNat < 0x80 := by omega
      have hlead := (lead_two b0.toNat b0.toNat_lt).mpr lead
      simp only [Glyph.bytes, u8dec, List.cons_append, hplain, hlead, if_true,
        if_false, code2_bits]
      rfl
  | three b0 b1 b2 lead =>
      have hplain : ¬ b0.toNat < 0x80 := by omega
      have htwo := mt (lead_two b0.toNat b0.toNat_lt).mp (by omega)
      have hlead := (lead_three b0.toNat b0.toNat_lt).mpr lead
      simp only [Glyph.bytes, u8dec, List.cons_append, hplain, htwo, hlead, if_true,
        if_false, code3_bits]
      rfl
  | four b0 b1 b2 b3 lead =>
      have hplain : ¬ b0.toNat < 0x80 := by omega
      have htwo := mt (lead_two b0.toNat b0.toNat_lt).mp (by omega)
      have hthree := mt (lead_three b0.toNat b0.toNat_lt).mp (by omega)
      have hlead := (lead_four b0.toNat b0.toNat_lt).mpr lead
      simp only [Glyph.bytes, u8dec, List.cons_append, hplain, htwo, hthree, hlead,
        if_true, if_false, code4_bits]
      rfl
  | stray b lead =>
      have hplain : ¬ b.toNat < 0x80 := by omega
      have htwo := mt (lead_two b.toNat b.toNat_lt).mp (by omega)
      have hthree := mt (lead_three b.toNat b.toNat_lt).mp (by omega)
      have hfour := mt (lead_four b.toNat b.toNat_lt).mp (by omega)
      simp only [Glyph.bytes, u8dec, List.cons_append, hplain, htwo, hthree, hfour,
        if_false]
      rfl

theorem Glyph.length_bounds (g : Glyph) :
    0 < g.bytes.length ∧ g.bytes.length ≤ 4 := by
  cases g <;> simp [Glyph.bytes]

theorem Glyph.bytes_ne_nil (g : Glyph) : g.bytes ≠ [] :=
  List.ne_nil_of_length_pos g.length_bounds.1

/-- What is left of the input starts with a character or is too short for
one. -/
theorem glyph_or_incomplete (src : Bytes) :
    (u8dec src = .incomplete ∧ src.length ≤ 3) ∨
      ∃ (g : Glyph) (rest : Bytes), src = g.bytes ++ rest := by
  cases src with
  | nil => exact Or.inl ⟨rfl, by simp⟩
  | cons b0 src =>
      by_cases hplain : b0.toNat < 0x80
      · exact Or.inr ⟨.plain b0 hplain, src, rfl⟩
      by_cases htwo : 0xC0 ≤ b0.toNat ∧ b0.toNat < 0xE0
      · cases src with
        | nil =>
            have hlead := (lead_two b0.toNat b0.toNat_lt).mpr htwo
            left
            simp [u8dec, hplain, hlead]
        | cons b1 src => exact Or.inr ⟨.two b0 b1 htwo, src, rfl⟩
      by_cases hthree : 0xE0 ≤ b0.toNat ∧ b0.toNat < 0xF0
      · have hlead := (lead_three b0.toNat b0.toNat_lt).mpr hthree
        have hskip := mt (lead_two b0.toNat b0.toNat_lt).mp htwo
        rcases src with _ | ⟨b1, _ | ⟨b2, src⟩⟩
        · left
          simp [u8dec, hplain, hskip, hlead]
        · left
          simp [u8dec, hplain, hskip, hlead]
        · exact Or.inr ⟨.three b0 b1 b2 hthree, src, rfl⟩
      by_cases hfour : 0xF0 ≤ b0.toNat ∧ b0.toNat < 0xF8
      · have hlead := (lead_four b0.toNat b0.toNat_lt).mpr hfour
        have hskip := mt (lead_two b0.toNat b0.toNat_lt).mp htwo
        have hskip' := mt (lead_three b0.toNat b0.toNat_lt).mp hthree
        rcases src with _ | ⟨b1, _ | ⟨b2, _ | ⟨b3, src⟩⟩⟩
        · left
          simp [u8dec, hplain, hskip, hskip', hlead]
        · left
          simp [u8dec, hplain, hskip, hskip', hlead]
        · left
          simp [u8dec, hplain, hskip, hskip', hlead]
        · exact Or.inr ⟨.four b0 b1 b2 b3 hfour, src, rfl⟩
      · exact Or.inr ⟨.stray b0 (by omega), src, rfl⟩

def textOf (gs : List Glyph) : Bytes := gs.flatMap Glyph.bytes

@[simp] theorem textOf_nil : textOf [] = [] := rfl

@[simp] theorem textOf_cons (g : Glyph) (gs : List Glyph) :
    textOf (g :: gs) = g.bytes ++ textOf gs := rfl

@[simp] theorem textOf_append (gs hs : List Glyph) :
    textOf (gs ++ hs) = textOf gs ++ textOf hs := List.flatMap_append

/-- A byte string as characters and an incomplete one behind them. -/
theorem exists_glyphs (src : Bytes) :
    ∃ gs tail, src = textOf gs ++ tail ∧ u8dec tail = .incomplete ∧
      tail.length ≤ 3 := by
  induction hn : src.length using Nat.strong_induction_on generalizing src with
  | _ n ih =>
      rcases glyph_or_incomplete src with ⟨hinc, hlen⟩ | ⟨g, rest, rfl⟩
      · exact ⟨[], src, rfl, hinc, hlen⟩
      · have hpos := g.length_bounds.1
        rw [List.length_append] at hn
        obtain ⟨gs, tail, rfl, htail⟩ := ih rest.length (by omega) rest rfl
        exact ⟨g :: gs, tail, by simp, htail⟩

/-! ## Composition over characters -/

def Glyph.is (p : ℕ → Bool) (g : Glyph) : Bool := g.code.any p

def Glyph.cp (g : Glyph) : ℕ := g.code.getD 0

/-- A character on its own: encoded again, or passed through. -/
def Glyph.out (g : Glyph) : Bytes :=
  match g.code with
  | some cp => u8enc cp
  | none => g.bytes

/-- The syllable the first characters compose to, and the rest. -/
def cluster : List Glyph → Option (ℕ × List Glyph)
  | l :: v :: rest =>
      if l.is isL ∧ v.is isV then
        let sy := sBase + (l.cp - lBase) * nCnt + (v.cp - vBase) * tCnt
        match rest with
        | t :: more =>
            if t.is isT then some (sy + (t.cp - tBase), more) else some (sy, rest)
        | [] => some (sy, rest)
      else if l.is isLV ∧ v.is isT then some (l.cp + (v.cp - tBase), rest)
      else none
  | _ => none

theorem Glyph.is_iff {p : ℕ → Bool} {g : Glyph} :
    g.is p = true ↔ g.code = some g.cp ∧ p g.cp = true := by
  unfold Glyph.is Glyph.cp
  cases g.code <;> simp

theorem isL_iff (c : ℕ) : isL c = true ↔ 0x1100 ≤ c ∧ c < 0x1113 :=
  decide_eq_true_iff

theorem isV_iff (c : ℕ) : isV c = true ↔ 0x1161 ≤ c ∧ c < 0x1176 :=
  decide_eq_true_iff

theorem isT_iff (c : ℕ) : isT c = true ↔ 0x11A7 < c ∧ c < 0x11C3 :=
  decide_eq_true_iff

theorem isLV_iff (c : ℕ) :
    isLV c = true ↔ (0xAC00 ≤ c ∧ c < 0xD7A4) ∧ (c - 0xAC00) % 28 = 0 := by
  have hS : isS c = true ↔ 0xAC00 ≤ c ∧ c < 0xD7A4 := decide_eq_true_iff
  rw [isLV, decide_eq_true_iff, hS]
  rfl

theorem u8enc_length (c : ℕ) :
    (u8enc c).length =
      if c < 0x80 then 1 else if c < 0x800 then 2 else if c < 0x10000 then 3 else 4 := by
  unfold u8enc
  split_ifs <;> rfl

theorem Glyph.cp_width
    {g : Glyph} {cp : ℕ} (hcode : g.code = some cp) :
    (u8enc cp).length ≤ g.bytes.length ∧
      (0x800 ≤ cp → 3 ≤ g.bytes.length) := by
  rw [u8enc_length]
  cases g with
  | plain b lead =>
      simp only [Glyph.code, Option.some.injEq] at hcode
      simp only [Glyph.bytes, List.length_cons, List.length_nil]
      split_ifs <;> omega
  | two b0 b1 lead =>
      simp only [Glyph.code, code2, Option.some.injEq] at hcode
      simp only [Glyph.bytes, List.length_cons, List.length_nil]
      split_ifs <;> omega
  | three b0 b1 b2 lead =>
      simp only [Glyph.code, code3, Option.some.injEq] at hcode
      simp only [Glyph.bytes, List.length_cons, List.length_nil]
      split_ifs <;> omega
  | four b0 b1 b2 b3 lead =>
      simp only [Glyph.bytes, List.length_cons, List.length_nil]
      split_ifs <;> omega
  | stray b lead => simp [Glyph.code] at hcode

theorem Glyph.out_length (g : Glyph) : g.out.length ≤ g.bytes.length := by
  unfold Glyph.out
  cases hcode : g.code with
  | none => exact le_rfl
  | some cp => exact (Glyph.cp_width hcode).1

theorem Glyph.stray_length {g : Glyph} (hcode : g.code = none) :
    g.bytes.length = 1 := by
  cases g with
  | stray b lead => rfl
  | _ => simp [Glyph.code] at hcode

theorem cluster_stray {g : Glyph} (hcode : g.code = none) (gs : List Glyph) :
    cluster (g :: gs) = none := by
  have his : ∀ p : ℕ → Bool, g.is p = false := by simp [Glyph.is, hcode]
  cases gs with
  | nil => rfl
  | cons v rest => simp [cluster, his]

/-- Letters and open syllables take three bytes and are no surrogates. -/
theorem hangul_bounds
    {p : ℕ → Bool} (hp : p ∈ [isL, isV, isT, isLV]) {c : ℕ} (hc : p c = true) :
    0x800 ≤ c ∧ c < 0xD800 := by
  simp only [List.mem_cons, List.not_mem_nil, or_false] at hp
  rcases hp with rfl | rfl | rfl | rfl
  · rw [isL_iff] at hc
    omega
  · rw [isV_iff] at hc
    omega
  · rw [isT_iff] at hc
    omega
  · rw [isLV_iff] at hc
    omega

theorem Glyph.wide
    {g : Glyph} {p : ℕ → Bool} (hp : p ∈ [isL, isV, isT, isLV])
    (hg : g.is p = true) : 3 ≤ g.bytes.length := by
  obtain ⟨hcode, hcp⟩ := Glyph.is_iff.mp hg
  exact (Glyph.cp_width hcode).2 (hangul_bounds hp hcp).1

theorem u8enc_syllable {n : ℕ} (hlow : 0xAC00 ≤ n) (hhigh : n < 0xD7A4) :
    (u8enc n).length = 3 := by
  rw [u8enc_length, if_neg (by omega), if_neg (by omega), if_pos (by omega)]

/-- A syllable takes at least six bytes and is written with three. -/
theorem cluster_spec
    {gs rest : List Glyph} {sy : ℕ} (h : cluster gs = some (sy, rest)) :
    ∃ used, gs = used ++ rest ∧ 6 ≤ (textOf used).length ∧ (u8enc sy).length = 3 := by
  match gs with
  | [] => simp [cluster] at h
  | [_] => simp [cluster] at h
  | l :: v :: more =>
      simp only [cluster] at h
      split_ifs at h with hjamo hlv
      · have hl := (Glyph.is_iff.mp hjamo.1).2
        have hv := (Glyph.is_iff.mp hjamo.2).2
        have hlwide := Glyph.wide (by simp) hjamo.1
        have hvwide := Glyph.wide (by simp) hjamo.2
        rw [isL_iff] at hl
        rw [isV_iff] at hv
        have hbase : 0xAC00 ≤ sBase + (l.cp - lBase) * nCnt + (v.cp - vBase) * tCnt ∧
            sBase + (l.cp - lBase) * nCnt + (v.cp - vBase) * tCnt + 27 < 0xD7A4 := by
          simp only [sBase, lBase, nCnt, vBase, tCnt, vCnt]
          omega
        have htwo : 6 ≤ (textOf [l, v]).length := by
          simp
          omega
        split at h
        · rename_i t tail
          split_ifs at h with ht
          · simp only [Option.some.injEq, Prod.mk.injEq] at h
            obtain ⟨rfl, rfl⟩ := h
            have htcp := (Glyph.is_iff.mp ht).2
            rw [isT_iff] at htcp
            refine ⟨[l, v, t], rfl, ?_, ?_⟩
            · simp
              omega
            · apply u8enc_syllable
              · omega
              · simp only [tBase]
                omega
          · simp only [Option.some.injEq, Prod.mk.injEq] at h
            obtain ⟨rfl, rfl⟩ := h
            exact ⟨[l, v], rfl, htwo, u8enc_syllable hbase.1 (by omega)⟩
        · simp only [Option.some.injEq, Prod.mk.injEq] at h
          obtain ⟨rfl, rfl⟩ := h
          exact ⟨[l, v], rfl, htwo, u8enc_syllable hbase.1 (by omega)⟩
      · simp only [Option.some.injEq, Prod.mk.injEq] at h
        obtain ⟨rfl, rfl⟩ := h
        have hl := (Glyph.is_iff.mp hlv.1).2
        have ht := (Glyph.is_iff.mp hlv.2).2
        have hlwide := Glyph.wide (by simp) hlv.1
        have htwide := Glyph.wide (by simp) hlv.2
        rw [isLV_iff] at hl
        rw [isT_iff] at ht
        refine ⟨[l, v], rfl, ?_, ?_⟩
        · simp
          omega
        · apply u8enc_syllable
          · omega
          · simp only [tBase]
            omega

theorem cluster_shorter
    {gs rest : List Glyph} {sy : ℕ} (h : cluster gs = some (sy, rest)) :
    rest.length < gs.length := by
  obtain ⟨used, rfl, hlong, -⟩ := cluster_spec h
  have hne : used ≠ [] := by
    rintro rfl
    simp at hlong
  have hpos := List.length_pos_of_ne_nil hne
  rw [List.length_append]
  omega

def composeGlyphs : List Glyph → Bytes
  | [] => []
  | g :: gs =>
      match _h : cluster (g :: gs) with
      | some (sy, rest) => u8enc sy ++ composeGlyphs rest
      | none => g.out ++ composeGlyphs gs
termination_by gs => gs.length
decreasing_by
  · exact cluster_shorter _h
  · simp

theorem composeGlyphs_some
    {g : Glyph} {gs rest : List Glyph} {sy : ℕ}
    (h : cluster (g :: gs) = some (sy, rest)) :
    composeGlyphs (g :: gs) = u8enc sy ++ composeGlyphs rest := by
  rw [composeGlyphs]
  split
  · rename_i heq
    rw [h] at heq
    obtain ⟨rfl, rfl⟩ := Prod.mk.inj (Option.some.inj heq)
    rfl
  · rename_i heq
    rw [h] at heq
    exact absurd heq (by simp)

theorem composeGlyphs_none
    {g : Glyph} {gs : List Glyph} (h : cluster (g :: gs) = none) :
    composeGlyphs (g :: gs) = g.out ++ composeGlyphs gs := by
  rw [composeGlyphs]
  split
  · rename_i heq
    rw [h] at heq
    exact absurd heq (by simp)
  · rfl

/-! ## The loop composes characters -/

section Loop

variable {tail : Bytes} (htail : u8dec tail = .incomplete)
include htail

theorem u8dec_text (gs : List Glyph) :
    u8dec (textOf gs ++ tail) =
      match gs with
      | [] => .incomplete
      | g :: _ => .of g.bytes.length g.code := by
  cases gs with
  | nil => exact htail
  | cons g gs =>
      rw [textOf_cons, List.append_assoc]
      exact g.reads _

omit htail in
theorem drop_bytes (g : Glyph) (rest : Bytes) (n : ℕ) :
    (g.bytes ++ rest).drop (g.bytes.length + n) = rest.drop n := by
  rw [← List.drop_drop, List.drop_left]

omit htail in
/-- Behind the end of the input there is no character. -/
theorem guarded {src : Bytes} {k : ℕ} (h : ¬ k < src.length) :
    u8dec (src.drop k) = .incomplete := by
  rw [List.drop_eq_nil_of_le (by omega)]
  rfl

omit htail in
theorem jamoCluster_front (g : Glyph) (more : Bytes) (cp : ℕ) :
    jamoCluster (g.bytes ++ more) g.bytes.length cp =
      if isL cp then
        match u8dec more with
        | .char k2 cp2 =>
            if isV cp2 then
              match u8dec (more.drop k2) with
              | .char k3 cp3 =>
                  if isT cp3 then
                    some (sBase + (cp - lBase) * nCnt + (cp2 - vBase) * tCnt +
                      (cp3 - tBase), g.bytes.length + k2 + k3)
                  else some (sBase + (cp - lBase) * nCnt + (cp2 - vBase) * tCnt,
                    g.bytes.length + k2)
              | _ => some (sBase + (cp - lBase) * nCnt + (cp2 - vBase) * tCnt,
                  g.bytes.length + k2)
            else none
        | _ => none
      else none := by
  unfold jamoCluster
  by_cases hL : isL cp
  · by_cases hk : g.bytes.length < (g.bytes ++ more).length
    · rw [if_pos ⟨hL, hk⟩, if_pos hL, List.drop_left]
      cases u8dec more with
      | incomplete => rfl
      | invalid => rfl
      | char k2 cp2 =>
          by_cases hV : isV cp2
          · simp only [hV, if_true]
            by_cases hadv : g.bytes.length + k2 < (g.bytes ++ more).length
            · rewrite [if_pos hadv, drop_bytes]
              rfl
            · have hnone := guarded hadv
              rw [drop_bytes] at hnone
              rw [if_neg hadv, hnone]
          · simp only [hV, if_false, Bool.false_eq_true]
    · have hnone := guarded hk
      rw [List.drop_left] at hnone
      rw [if_neg (by tauto), if_pos hL, hnone]
  · rw [if_neg (by tauto), if_neg hL]

omit htail in
theorem syllableCluster_front (g : Glyph) (more : Bytes) (cp : ℕ) :
    syllableCluster (g.bytes ++ more) g.bytes.length cp =
      if isLV cp then
        match u8dec more with
        | .char k2 cp2 =>
            if isT cp2 then some (cp + (cp2 - tBase), g.bytes.length + k2) else none
        | _ => none
      else none := by
  unfold syllableCluster
  by_cases hLV : isLV cp
  · by_cases hk : g.bytes.length < (g.bytes ++ more).length
    · rewrite [if_pos ⟨hLV, hk⟩, if_pos hLV, List.drop_left]
      rfl
    · have hnone := guarded hk
      rw [List.drop_left] at hnone
      rw [if_neg (by tauto), if_pos hLV, hnone]
  · rw [if_neg (by tauto), if_neg hLV]

/-- The clusters of the code are those of the characters. -/
theorem clusters_eq (g : Glyph) (gs : List Glyph) {cp : ℕ} (hcode : g.code = some cp) :
    match cluster (g :: gs) with
    | some (sy, rest) => ∃ adv,
        (jamoCluster (textOf (g :: gs) ++ tail) g.bytes.length cp).or
            (syllableCluster (textOf (g :: gs) ++ tail) g.bytes.length cp) =
          some (sy, adv) ∧
        (textOf (g :: gs) ++ tail).drop adv = textOf rest ++ tail
    | none =>
        (jamoCluster (textOf (g :: gs) ++ tail) g.bytes.length cp).or
            (syllableCluster (textOf (g :: gs) ++ tail) g.bytes.length cp) = none := by
  rw [textOf_cons, List.append_assoc, jamoCluster_front, syllableCluster_front,
    u8dec_text htail]
  have hgis : ∀ p : ℕ → Bool, g.is p = p cp := by simp [Glyph.is, hcode]
  have hgcp : g.cp = cp := by simp [Glyph.cp, hcode]
  match gs with
  | [] => simp [cluster]
  | v :: rest =>
      cases hv : v.code with
      | none =>
          have hvis : ∀ p : ℕ → Bool, v.is p = false := by simp [Glyph.is, hv]
          simp [cluster, hvis, Dec.of, hv]
      | some cp2 =>
          have hvis : ∀ p : ℕ → Bool, v.is p = p cp2 := by simp [Glyph.is, hv]
          have hvcp : v.cp = cp2 := by simp [Glyph.cp, hv]
          have hskip : (textOf (v :: rest) ++ tail).drop v.bytes.length =
              textOf rest ++ tail := by simp
          have hskip2 : (g.bytes ++ (textOf (v :: rest) ++ tail)).drop
              (g.bytes.length + v.bytes.length) = textOf rest ++ tail := by
            rw [drop_bytes, hskip]
          simp only [cluster, hv, Dec.of, hskip, u8dec_text htail]
          simp only [hgis, hgcp, hvis, hvcp]
          by_cases hjamo : isL cp ∧ isV cp2
          · rw [if_pos hjamo]
            simp only [hjamo.1, hjamo.2, if_true]
            cases rest with
            | nil => exact ⟨_, rfl, hskip2⟩
            | cons t more =>
                have hskip3 : (g.bytes ++ (textOf (v :: t :: more) ++ tail)).drop
                    (g.bytes.length + v.bytes.length + t.bytes.length) =
                      textOf more ++ tail := by
                  rw [← List.drop_drop, hskip2]
                  simp
                cases ht : t.code with
                | none =>
                    have htis : t.is isT = false := by simp [Glyph.is, ht]
                    simp only [ht, htis, Bool.false_eq_true, if_false]
                    exact ⟨_, rfl, hskip2⟩
                | some cp3 =>
                    have htis : t.is isT = isT cp3 := by simp [Glyph.is, ht]
                    have htcp : t.cp = cp3 := by simp [Glyph.cp, ht]
                    simp only [ht, htis, htcp]
                    by_cases hT : isT cp3
                    · simp only [hT, if_true]
                      exact ⟨_, rfl, hskip3⟩
                    · simp only [hT, Bool.false_eq_true, if_false]
                      exact ⟨_, rfl, hskip2⟩
          · rw [if_neg hjamo]
            have hnojamo : ∀ x : Option (ℕ × ℕ),
                (if isL cp then if isV cp2 then x else none else none) = none := by
              intro x
              split_ifs with hL hV
              · exact absurd ⟨hL, hV⟩ hjamo
              · rfl
              · rfl
            simp only [hnojamo, Option.none_or]
            by_cases hlv : isLV cp ∧ isT cp2
            · simp only [hlv.1, hlv.2, and_self, if_true]
              exact ⟨_, rfl, hskip2⟩
            · rw [if_neg hlv]
              show _ = none
              split_ifs with hLV hT
              · exact absurd ⟨hLV, hT⟩ hlv
              · rfl
              · rfl

/-- `compose` writes the composition of the characters if the buffer holds the
input. -/
theorem composeLoop_eq
    {omax fuel : ℕ} (gs : List Glyph) {out : Bytes}
    (hfuel : (textOf gs ++ tail).length ≤ fuel)
    (hroom : out.length + (textOf gs).length ≤ omax) :
    composeLoop omax fuel (textOf gs ++ tail) out =
      some (out ++ composeGlyphs gs) := by
  induction hn : gs.length using Nat.strong_induction_on generalizing gs fuel out with
  | _ n ih =>
      match gs, fuel with
      | [], 0 => simp [composeLoop, composeGlyphs]
      | [], fuel + 1 => simp [composeLoop, composeGlyphs, htail]
      | g :: gs, 0 =>
          have hpos := g.length_bounds.1
          simp only [textOf_cons, List.length_append] at hfuel
          omega
      | g :: gs, fuel + 1 =>
          have hpos := g.length_bounds.1
          have hne : textOf (g :: gs) ++ tail ≠ [] := by
            simp [g.bytes_ne_nil]
          have hdec : u8dec (textOf (g :: gs) ++ tail) =
              .of g.bytes.length g.code := u8dec_text htail (g :: gs)
          have hdrop : (textOf (g :: gs) ++ tail).drop g.bytes.length =
              textOf gs ++ tail := by simp
          have hlen : (textOf (g :: gs) ++ tail).length =
              g.bytes.length + (textOf gs ++ tail).length := by simp
          have htext : (textOf (g :: gs)).length =
              g.bytes.length + (textOf gs).length := by simp
          unfold composeLoop
          rw [if_neg hne, hdec]
          cases hcode : g.code with
          | none =>
              have hone := Glyph.stray_length hcode
              have hcluster : cluster (g :: gs) = none := cluster_stray hcode gs
              have htake : (textOf (g :: gs) ++ tail).take 1 = g.bytes := by
                rw [← hone]
                simp
              have hout : g.out = g.bytes := by simp [Glyph.out, hcode]
              rw [hone] at hdrop
              simp only [Dec.of, hdrop, htake]
              rw [if_neg (by omega), ih gs.length (by simp [← hn]) gs
                (by omega) (by rw [List.length_append]; omega) rfl,
                composeGlyphs_none hcluster, hout, List.append_assoc]
          | some cp =>
              have hclusters := clusters_eq htail g gs hcode
              cases hcluster : cluster (g :: gs) with
              | none =>
                  have hwidth := (Glyph.cp_width hcode).1
                  have hout : g.out = u8enc cp := by simp [Glyph.out, hcode]
                  rw [hcluster] at hclusters
                  simp only [Dec.of, hclusters, hdrop]
                  rw [if_neg (by omega), ih gs.length (by simp [← hn]) gs
                    (by omega) (by rw [List.length_append]; omega) rfl,
                    composeGlyphs_none hcluster, hout, List.append_assoc]
              | some res =>
                  obtain ⟨sy, rest⟩ := res
                  obtain ⟨used, hused, hlong, hthree⟩ := cluster_spec hcluster
                  rw [hcluster] at hclusters
                  obtain ⟨adv, hcode', hrest⟩ := hclusters
                  have hall : (textOf (g :: gs)).length =
                      (textOf used).length + (textOf rest).length := by
                    rw [hused, textOf_append, List.length_append]
                  have hbytes : (textOf (g :: gs) ++ tail).length =
                      (textOf used).length + (textOf rest ++ tail).length := by
                    rw [hused, textOf_append, List.append_assoc, List.length_append]
                  simp only [Dec.of, hcode', hrest]
                  rw [if_neg (by omega), ih rest.length
                    (by rw [← hn]; exact cluster_shorter hcluster) rest
                    (by omega) (by rw [List.length_append]; omega) rfl,
                    composeGlyphs_some hcluster, List.append_assoc]

end Loop

end GrandCross
