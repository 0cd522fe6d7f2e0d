import GrandCross.Hangul
import GrandCross.TextFidelity

/-!
# Composition of Unicode text

The characters `compose` reads are code points and single bytes.  What it
writes is the encoding of their Hangul composition, so on the encoding of a
text it computes the composition of the text, and what it wrote it writes
again.
-/

namespace GrandCross

open CText

def utf8 (u : List Char) : Bytes := u.flatMap String.utf8EncodeChar

theorem u8enc_char (c : Char) : u8enc c.toNat = String.utf8EncodeChar c := by
  have hval : c.val.toNat = c.toNat := rfl
  have hlt : c.toNat < 0x110000 := by
    rcases c.valid with h | h
    · exact lt_trans h (by norm_num)
    · exact h.2
  unfold String.utf8EncodeChar
  simp only [hval]
  by_cases hone : c.toNat < 0x80
  · rw [if_pos (by omega), u8enc, if_pos hone]
  by_cases htwo : c.toNat < 0x800
  · have hlead : c.toNat / 64 % 32 = c.toNat / 64 := by omega
    rw [if_neg (by omega), if_pos (by omega), u8enc_two (by omega) htwo, hlead]
    simp only [Nat.add_comm]
  by_cases hthree : c.toNat < 0x10000
  · have hlead : c.toNat / 4096 % 16 = c.toNat / 4096 := by omega
    rw [if_neg (by omega), if_neg (by omega), if_pos (by omega),
      u8enc_three (by omega) hthree, hlead]
    simp only [Nat.add_comm]
  · have hlead : c.toNat / 262144 % 8 = c.toNat / 262144 := by omega
    rw [if_neg (by omega), if_neg (by omega), if_neg (by omega),
      u8enc_four (by omega) (by omega), hlead]
    simp only [Nat.add_comm]

/-! ## Pieces -/

def Piece.out : Piece → Bytes
  | .char cp => u8enc cp
  | .raw b => [b]

def Piece.pair : Piece → Piece → Option Piece
  | .char c, .char d => (Hangul.pairCode c d).map .char
  | _, _ => none

/-- What `compose` makes of a character before it looks at the next one. -/
def Glyph.piece (g : Glyph) : Piece :=
  match g with
  | .stray b _ => .raw b
  | _ => .char g.cp

theorem Glyph.out_piece (g : Glyph) : g.piece.out = g.out := by
  cases g <;> rfl

theorem Glyph.piece_of_code {g : Glyph} (h : g.code = some g.cp) :
    g.piece = .char g.cp := by
  cases g with
  | stray b lead => simp [Glyph.code] at h
  | _ => rfl

theorem Piece.pair_joined
    (a b c d : Piece) (h : a.pair b = some c) : d.pair c = none := by
  match a, b with
  | .char x, .char y =>
      obtain ⟨s, hs, rfl⟩ := Option.map_eq_some_iff.mp h
      cases d with
      | raw e => rfl
      | char z =>
          simp [Piece.pair, Hangul.pairCode_behind (Hangul.pairCode_syllable hs).1]
  | .char _, .raw _ => simp [Piece.pair] at h
  | .raw _, _ => simp [Piece.pair] at h

/-- The constants of the code are those of the standard. -/
theorem pairCode_eq (c d : ℕ) :
    Hangul.pairCode c d =
      if isL c ∧ isV d then some (sBase + (c - lBase) * nCnt + (d - vBase) * tCnt)
      else if isLV c ∧ isT d then some (c + (d - tBase))
      else none := by
  unfold Hangul.pairCode
  have hlv : sBase + (c - lBase) * nCnt + (d - vBase) * tCnt =
      0xAC00 + ((c - 0x1100) * 21 + (d - 0x1161)) * 28 := by
    simp only [sBase, lBase, nCnt, vBase, tCnt, vCnt]
    omega
  rw [hlv]
  refine if_congr ?_ rfl (if_congr ?_ rfl rfl)
  · rw [isL_iff, isV_iff]
    omega
  · rw [isLV_iff, isT_iff]
    omega

theorem Piece.pair_char (c : ℕ) (h : Glyph) :
    (Piece.char c).pair h.piece =
      if isL c ∧ h.is isV then
        some (.char (sBase + (c - lBase) * nCnt + (h.cp - vBase) * tCnt))
      else if isLV c ∧ h.is isT then some (.char (c + (h.cp - tBase)))
      else none := by
  by_cases hh : h.code = some h.cp
  · have hhis : ∀ p : ℕ → Bool, h.is p = p h.cp := by
      intro p
      rw [Glyph.is, hh]
      rfl
    rw [Glyph.piece_of_code hh, Piece.pair, pairCode_eq]
    simp only [hhis, apply_ite (Option.map Piece.char), Option.map_some, Option.map_none]
  · have hnot : ∀ p : ℕ → Bool, ¬ h.is p = true := fun p hp =>
      hh (Glyph.is_iff.mp hp).1
    rw [if_neg (fun hc => hnot _ hc.2), if_neg (fun hc => hnot _ hc.2)]
    cases h with
    | stray b lead => rfl
    | _ => exact absurd rfl hh

theorem Glyph.pair_eq (g h : Glyph) :
    g.piece.pair h.piece =
      if g.is isL ∧ h.is isV then
        some (.char (sBase + (g.cp - lBase) * nCnt + (h.cp - vBase) * tCnt))
      else if g.is isLV ∧ h.is isT then some (.char (g.cp + (h.cp - tBase)))
      else none := by
  by_cases hg : g.code = some g.cp
  · have hgis : ∀ p : ℕ → Bool, g.is p = p g.cp := by
      intro p
      rw [Glyph.is, hg]
      rfl
    rw [Glyph.piece_of_code hg, Piece.pair_char, hgis, hgis]
  · have hnot : ∀ p : ℕ → Bool, ¬ g.is p = true := fun p hp =>
      hg (Glyph.is_iff.mp hp).1
    rw [if_neg (fun hc => hnot _ hc.1), if_neg (fun hc => hnot _ hc.1)]
    cases g with
    | stray b lead => rfl
    | _ => exact absurd rfl hg

/-- A character that is no `L` and no open syllable takes nothing more. -/
theorem Piece.pair_closed
    {c : ℕ} (hL : ¬ isL c = true) (hLV : ¬ isLV c = true) (h : Glyph) :
    (Piece.char c).pair h.piece = none := by
  rw [Piece.pair_char, if_neg (fun hc => hL hc.1), if_neg (fun hc => hLV hc.1)]

theorem merge_closed
    {p : Piece} {gs : List Glyph} (h : ∀ g ∈ gs.head?, p.pair g.piece = none) :
    Neighbours.mergeFrom Piece.pair p (gs.map Glyph.piece) =
      p :: Neighbours.merge Piece.pair (gs.map Glyph.piece) := by
  apply Neighbours.mergeFrom_closed
  cases gs with
  | nil => simp
  | cons g gs => simpa using h

/-- The lookahead of `compose` finds what reading from left to right finds. -/
theorem merge_cluster (g : Glyph) (gs : List Glyph) :
    Neighbours.merge Piece.pair ((g :: gs).map Glyph.piece) =
      match cluster (g :: gs) with
      | some (sy, rest) =>
          .char sy :: Neighbours.merge Piece.pair (rest.map Glyph.piece)
      | none => g.piece :: Neighbours.merge Piece.pair (gs.map Glyph.piece) := by
  rw [List.map_cons, Neighbours.merge_cons]
  cases gs with
  | nil => rfl
  | cons v rest =>
      have hpair := Glyph.pair_eq g v
      simp only [cluster]
      split_ifs at hpair ⊢ with hjamo hlv
      · have hg := (Glyph.is_iff.mp hjamo.1).2
        have hv := (Glyph.is_iff.mp hjamo.2).2
        rw [isL_iff] at hg
        rw [isV_iff] at hv
        rw [List.map_cons, Neighbours.mergeFrom_some hpair]
        generalize hsy : sBase + (g.cp - lBase) * nCnt + (v.cp - vBase) * tCnt = sy
        have hopen : ¬ isL sy = true ∧ isLV sy = true := by
          rw [isL_iff, isLV_iff]
          simp only [sBase, lBase, nCnt, vBase, tCnt, vCnt] at hsy
          omega
        cases rest with
        | nil => rfl
        | cons t more =>
            have hnext := Piece.pair_char sy t
            rw [if_neg (fun hc => hopen.1 hc.1)] at hnext
            by_cases ht : t.is isT = true
            · have htcp := (Glyph.is_iff.mp ht).2
              rw [if_pos ⟨hopen.2, ht⟩] at hnext
              simp only [ht, if_true]
              rw [List.map_cons, Neighbours.mergeFrom_some hnext]
              apply merge_closed
              intro x _
              have hbound := hopen.2
              rw [isLV_iff] at hbound
              rw [isT_iff] at htcp
              simp only [tBase]
              apply Piece.pair_closed
              · rw [isL_iff]
                omega
              · rw [isLV_iff]
                omega
            · rw [if_neg (fun hc => ht hc.2)] at hnext
              simp only [ht, Bool.false_eq_true, if_false]
              apply merge_closed
              rintro x ⟨⟩
              exact hnext
      · have hg := (Glyph.is_iff.mp hlv.1).2
        have hv := (Glyph.is_iff.mp hlv.2).2
        rw [isLV_iff] at hg
        rw [isT_iff] at hv
        rw [List.map_cons, Neighbours.mergeFrom_some hpair]
        apply merge_closed
        intro x _
        simp only [tBase]
        apply Piece.pair_closed
        · rw [isL_iff]
          omega
        · rw [isLV_iff]
          omega
      · apply merge_closed
        rintro x ⟨⟩
        exact hpair

theorem composeGlyphs_merge (gs : List Glyph) :
    composeGlyphs gs =
      (Neighbours.merge Piece.pair (gs.map Glyph.piece)).flatMap Piece.out := by
  induction hn : gs.length using Nat.strong_induction_on generalizing gs with
  | _ n ih =>
      cases gs with
      | nil => simp [composeGlyphs, Neighbours.merge]
      | cons g gs =>
          have hmerge := merge_cluster g gs
          cases hcluster : cluster (g :: gs) with
          | none =>
              rw [hcluster] at hmerge
              rw [composeGlyphs_none hcluster, ih gs.length (by simp [← hn]) gs rfl, hmerge,
                List.flatMap_cons, Glyph.out_piece]
          | some res =>
              obtain ⟨sy, rest⟩ := res
              rw [hcluster] at hmerge
              rw [composeGlyphs_some hcluster, ih rest.length
                (by rw [← hn]; exact cluster_shorter hcluster) rest rfl, hmerge,
                List.flatMap_cons]
              rfl

/-! ## Reading what was written -/

/-- Pieces that are read back as they were written. -/
def Piece.Whole : Piece → Prop
  | .char cp => cp < 0x200000
  | .raw b => 0x80 ≤ b.toNat ∧ b.toNat < 0xC0 ∨ 0xF8 ≤ b.toNat

theorem Glyph.piece_whole (g : Glyph) : g.piece.Whole := by
  cases g with
  | plain b lead =>
      show b.toNat < 0x200000
      omega
  | two b0 b1 lead =>
      show code2 b0 b1 < 0x200000
      unfold code2
      omega
  | three b0 b1 b2 lead =>
      show code3 b0 b1 b2 < 0x200000
      unfold code3
      omega
  | four b0 b1 b2 b3 lead =>
      show code4 b0 b1 b2 b3 < 0x200000
      unfold code4
      omega
  | stray b lead => exact lead

theorem Piece.pair_whole (a b c : Piece) (h : a.pair b = some c) : c.Whole := by
  match a, b with
  | .char x, .char y =>
      obtain ⟨s, hs, rfl⟩ := Option.map_eq_some_iff.mp h
      have hbound := (Hangul.pairCode_syllable hs).2
      show s < 0x200000
      omega
  | .char _, .raw _ => simp [Piece.pair] at h
  | .raw _, _ => simp [Piece.pair] at h

theorem toNat_ofNat_lt {n : ℕ} (hn : n < 256) : (UInt8.ofNat n).toNat = n := by
  rw [UInt8.toNat_ofNat', Nat.mod_eq_of_lt hn]

theorem Piece.exists_glyph {p : Piece} (hp : p.Whole) :
    ∃ g : Glyph, g.piece = p ∧ g.bytes = p.out := by
  cases p with
  | raw b => exact ⟨.stray b hp, rfl, rfl⟩
  | char cp =>
      have hlt : cp < 0x200000 := hp
      by_cases hone : cp < 0x80
      · have h0 := toNat_ofNat_lt (n := cp) (by omega)
        refine ⟨.plain (UInt8.ofNat cp) (by omega), ?_, ?_⟩
        · exact congrArg Piece.char h0
        · simp [Piece.out, u8enc, hone, Glyph.bytes]
      by_cases htwo : cp < 0x800
      · have h0 := toNat_ofNat_lt (n := 0xC0 + cp / 64) (by omega)
        have h1 := toNat_ofNat_lt (n := 0x80 + cp % 64) (by omega)
        refine ⟨.two _ _ (by rw [h0]; omega), ?_, (u8enc_two (by omega) htwo).symm⟩
        apply congrArg Piece.char
        show code2 _ _ = cp
        rw [code2, h0, h1]
        omega
      by_cases hthree : cp < 0x10000
      · have h0 := toNat_ofNat_lt (n := 0xE0 + cp / 4096) (by omega)
        have h1 := toNat_ofNat_lt (n := 0x80 + cp / 64 % 64) (by omega)
        have h2 := toNat_ofNat_lt (n := 0x80 + cp % 64) (by omega)
        refine ⟨.three _ _ _ (by rw [h0]; omega), ?_, (u8enc_three (by omega) hthree).symm⟩
        apply congrArg Piece.char
        show code3 _ _ _ = cp
        rw [code3, h0, h1, h2]
        omega
      · have h0 := toNat_ofNat_lt (n := 0xF0 + cp / 262144) (by omega)
        have h1 := toNat_ofNat_lt (n := 0x80 + cp / 4096 % 64) (by omega)
        have h2 := toNat_ofNat_lt (n := 0x80 + cp / 64 % 64) (by omega)
        have h3 := toNat_ofNat_lt (n := 0x80 + cp % 64) (by omega)
        refine ⟨.four _ _ _ _ (by rw [h0]; omega), ?_, (u8enc_four (by omega) hlt).symm⟩
        apply congrArg Piece.char
        show code4 _ _ _ _ = cp
        rw [code4, h0, h1, h2, h3]
        omega

/-- The characters of encoded pieces are the pieces. -/
theorem exists_glyphs_of_pieces {ps : List Piece} (hps : ∀ p ∈ ps, p.Whole) :
    ∃ gs : List Glyph, gs.map Glyph.piece = ps ∧ textOf gs = ps.flatMap Piece.out := by
  induction ps with
  | nil => exact ⟨[], rfl, rfl⟩
  | cons p ps ih =>
      obtain ⟨hp, hps⟩ := List.forall_mem_cons.mp hps
      obtain ⟨g, hpiece, hbytes⟩ := Piece.exists_glyph hp
      obtain ⟨gs, hpieces, htext⟩ := ih hps
      refine ⟨g :: gs, by rw [List.map_cons, hpiece, hpieces], ?_⟩
      rw [textOf_cons, hbytes, htext, List.flatMap_cons]

/-- `compose` on encoded pieces, with nothing incomplete behind them. -/
theorem compose_pieces
    {ps : List Piece} (hps : ∀ p ∈ ps, p.Whole) {omax : ℕ}
    (hroom : (ps.flatMap Piece.out).length ≤ omax) :
    compose (ps.flatMap Piece.out) omax =
      some ((Neighbours.merge Piece.pair ps).flatMap Piece.out) := by
  obtain ⟨gs, hpieces, htext⟩ := exists_glyphs_of_pieces hps
  have hend : u8dec [] = .incomplete := rfl
  rw [← htext] at hroom ⊢
  have heq := compose_text hend gs (by simpa using hroom)
  rw [List.append_nil] at heq
  rw [heq, composeGlyphs_merge, hpieces]

/-! ## Small buffers -/

theorem u8dec_char
    {src : Bytes} {k cp : ℕ} (h : u8dec src = .char k cp) :
    ∃ (g : Glyph) (gs : List Glyph) (tail : Bytes), src = textOf (g :: gs) ++ tail ∧
      u8dec tail = .incomplete ∧ k = g.bytes.length ∧ g.code = some cp := by
  obtain ⟨gs, tail, rfl, htail, -⟩ := exists_glyphs src
  cases gs with
  | nil =>
      rw [textOf_nil, List.nil_append, htail] at h
      exact absurd h (by simp)
  | cons g gs =>
      have hdec : u8dec (textOf (g :: gs) ++ tail) = .of g.bytes.length g.code :=
        u8dec_text htail (g :: gs)
      rw [h] at hdec
      cases hcode : g.code with
      | none => simp [hcode, Dec.of] at hdec
      | some cp' =>
          simp only [hcode, Dec.of, Dec.char.injEq] at hdec
          exact ⟨g, gs, tail, rfl, htail, hdec.1, by rw [hcode, hdec.2]⟩

/-- The checks of the loop count what it writes. -/
theorem written_le
    {src : Bytes} {k cp : ℕ} (h : u8dec src = .char k cp) :
    (u8enc cp).length ≤ k ∧ ∀ sy adv,
      (jamoCluster src k cp).or (syllableCluster src k cp) = some (sy, adv) →
        (u8enc sy).length = 3 := by
  obtain ⟨g, gs, tail, rfl, htail, rfl, hcode⟩ := u8dec_char h
  refine ⟨(Glyph.cp_width hcode).1, ?_⟩
  intro sy adv hfound
  have hclusters := clusters_eq htail g gs hcode
  cases hcluster : cluster (g :: gs) with
  | none =>
      rw [hcluster] at hclusters
      rw [hclusters] at hfound
      exact absurd hfound (by simp)
  | some res =>
      rw [hcluster] at hclusters
      obtain ⟨adv', heq, -⟩ := hclusters
      rw [heq] at hfound
      obtain ⟨_, -, -, hthree⟩ := cluster_spec hcluster
      rw [← (Prod.mk.inj (Option.some.inj hfound)).1]
      exact hthree

/-- What was written fits, and a larger buffer changes nothing. -/
theorem composeLoop_some
    {omax fuel : ℕ} {src out res : Bytes} (hout : out.length ≤ omax)
    (h : composeLoop omax fuel src out = some res) :
    res.length ≤ omax ∧
      ∀ large, omax ≤ large → composeLoop large fuel src out = some res := by
  induction fuel generalizing src out with
  | zero =>
      obtain rfl : out = res := Option.some.inj h
      exact ⟨hout, fun _ _ => rfl⟩
  | succ fuel ih =>
      unfold composeLoop at h ⊢
      by_cases hnil : src = []
      · simp only [hnil, if_true] at h ⊢
        obtain rfl : out = res := Option.some.inj h
        exact ⟨hout, fun _ _ => rfl⟩
      · simp only [hnil, if_false] at h ⊢
        cases hdec : u8dec src with
        | incomplete =>
            simp only [hdec] at h
            obtain rfl : out = res := Option.some.inj h
            exact ⟨hout, fun _ _ => rfl⟩
        | invalid =>
            simp only [hdec] at h ⊢
            split_ifs at h with hfull
            have hone : (src.take 1).length ≤ 1 := List.length_take_le _ _
            obtain ⟨hres, hlarge⟩ := ih (by rw [List.length_append]; omega) h
            refine ⟨hres, fun large hle => ?_⟩
            rw [if_neg (by omega)]
            exact hlarge large hle
        | char k cp =>
            obtain ⟨hwidth, hthree⟩ := written_le hdec
            simp only [hdec] at h ⊢
            cases hfound : (jamoCluster src k cp).or (syllableCluster src k cp) with
            | none =>
                simp only [hfound] at h ⊢
                split_ifs at h with hfull
                obtain ⟨hres, hlarge⟩ := ih (by rw [List.length_append]; omega) h
                refine ⟨hres, fun large hle => ?_⟩
                rw [if_neg (by omega)]
                exact hlarge large hle
            | some found =>
                obtain ⟨sy, adv⟩ := found
                have hlen := hthree sy adv hfound
                simp only [hfound] at h ⊢
                split_ifs at h with hfull
                obtain ⟨hres, hlarge⟩ := ih (by rw [List.length_append]; omega) h
                refine ⟨hres, fun large hle => ?_⟩
                rw [if_neg (by omega)]
                exact hlarge large hle

/-- Whatever the buffer, what `compose` returns is the composition. -/
theorem compose_some
    {src res : Bytes} {omax : ℕ} (h : compose src omax = some res) :
    res = composed src ∧ res.length ≤ omax := by
  obtain ⟨hlen, hlarge⟩ := composeLoop_some (Nat.zero_le omax) h
  have hfits : compose src (max omax src.length) = some (composed src) :=
    compose_fits (le_max_right omax src.length)
  rw [compose, hlarge _ (le_max_left omax src.length)] at hfits
  exact ⟨Option.some.inj hfits, hlen⟩

/-! ## Unicode text -/

theorem utf8_pieces (u : List Char) :
    utf8 u = (u.map fun c => Piece.char c.toNat).flatMap Piece.out := by
  rw [utf8, List.flatMap_map]
  exact congrArg (List.flatMap · u) (funext fun c => (u8enc_char c).symm)

theorem compose_utf8 (u : List Char) : composed (utf8 u) = utf8 (Hangul.compose u) := by
  have hwhole : ∀ p ∈ u.map (fun c => Piece.char c.toNat), p.Whole := by
    intro p hp
    obtain ⟨c, -, rfl⟩ := List.mem_map.mp hp
    show c.toNat < 0x200000
    rcases c.valid with h | h
    · exact lt_trans h (by norm_num)
    · exact lt_trans h.2 (by norm_num)
  have hpair : ∀ a b : Char, (Piece.char a.toNat).pair (.char b.toNat) =
      (Hangul.pair a b).map fun c => Piece.char c.toNat := by
    intro a b
    rw [Piece.pair, ← Hangul.pair_toNat, Option.map_map]
    rfl
  have hfits := compose_fits (le_refl (utf8 u).length)
  rw [utf8_pieces u] at hfits ⊢
  rw [compose_pieces hwhole le_rfl] at hfits
  rw [← Option.some.inj hfits, Neighbours.merge_map hpair, utf8_pieces]
  rfl

theorem composed_idem (src : Bytes) : composed (composed src) = composed src := by
  obtain ⟨gs, tail, rfl, htail, -⟩ := exists_glyphs src
  have hwhole : ∀ p ∈ Neighbours.merge Piece.pair (gs.map Glyph.piece), p.Whole := by
    apply Neighbours.merge_forall Piece.pair_whole
    intro p hp
    obtain ⟨g, -, rfl⟩ := List.mem_map.mp hp
    exact g.piece_whole
  have hfits := compose_fits (le_refl (composeGlyphs gs).length)
  rw [composed_text htail]
  rw [composeGlyphs_merge] at hfits ⊢
  rw [compose_pieces hwhole le_rfl, Neighbours.merge_idem Piece.pair_joined] at hfits
  exact (Option.some.inj hfits).symm

/-- `compose` on Unicode text is Hangul composition, it undoes the
decomposition of syllables, and composing again changes nothing.  It fails
only for want of room. -/
theorem compose_hangul :
    (∀ (u : List Char) (omax : ℕ),
      compose (utf8 u) omax = some (utf8 (Hangul.compose u)) ∨
        (compose (utf8 u) omax = none ∧ omax < (utf8 u).length)) ∧
    (∀ (w : List Char) (omax : ℕ), (∀ c ∈ w, Hangul.IsSyllable c) →
      (utf8 (w.flatMap Hangul.decompose)).length ≤ omax →
        compose (utf8 (w.flatMap Hangul.decompose)) omax = some (utf8 w)) ∧
    (∀ (src out : Bytes) (omax : ℕ),
      compose src omax = some out → compose out omax = some out) := by
  refine ⟨?_, ?_, ?_⟩
  · intro u omax
    cases hres : compose (utf8 u) omax with
    | some res =>
        left
        rw [(compose_some hres).1, compose_utf8]
    | none =>
        refine Or.inr ⟨rfl, ?_⟩
        by_contra hroom
        rw [compose_fits (not_lt.mp hroom)] at hres
        exact absurd hres (by simp)
  · intro w omax hw hroom
    rw [compose_fits hroom, compose_utf8, Hangul.compose_decompose w hw]
  · intro src out omax h
    obtain ⟨rfl, hlen⟩ := compose_some h
    rw [compose_fits hlen, composed_idem]

end GrandCross
