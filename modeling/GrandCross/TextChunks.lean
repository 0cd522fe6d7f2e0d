import GrandCross.HoldBack
import GrandCross.TextUnits

/-!
# Text conversion in chunks

A cut where no character joins the next one splits the composition.
`safe_end` finds such a cut whatever follows, so the chunks of a stream do not
matter, and what it holds back fits the array.
-/

namespace GrandCross

open CText

/-! ## Safe cuts -/

/-- Characters that may end up in one syllable. -/
def Joins (u v : Glyph) : Prop :=
  (u.is isL ∧ v.is isV) ∨ ((u.is isV ∨ u.is isLV) ∧ v.is isT)

def Cut (before after : List Glyph) : Prop :=
  ∀ u ∈ before.getLast?, ∀ v ∈ after.head?, ¬ Joins u v

theorem cluster_append
    {before after : List Glyph} (hne : before ≠ []) (hcut : Cut before after) :
    cluster (before ++ after) =
      (cluster before).map fun res => (res.1, res.2 ++ after) := by
  match before with
  | [] => exact absurd rfl hne
  | [u] =>
      cases after with
      | nil => rfl
      | cons v rest =>
          have hno : ¬ Joins u v := hcut u rfl v rfl
          unfold Joins at hno
          have hjamo : ¬ (u.is isL = true ∧ v.is isV = true) := by tauto
          have hlv : ¬ (u.is isLV = true ∧ v.is isT = true) := by tauto
          simp [cluster, hjamo, hlv]
  | [u, v] =>
      simp only [List.cons_append, List.nil_append, cluster]
      split_ifs with hjamo hlv
      · cases after with
        | nil => rfl
        | cons t rest =>
            have hno : ¬ Joins v t := hcut v rfl t rfl
            unfold Joins at hno
            have hT : ¬ t.is isT = true := by tauto
            simp [hT]
      · rfl
      · rfl
  | u :: v :: t :: more =>
      simp only [List.cons_append, cluster]
      split_ifs <;> rfl

theorem Cut.of_suffix
    {used rest after : List Glyph} (h : Cut (used ++ rest) after) : Cut rest after := by
  intro u hu v hv
  refine h u ?_ v hv
  rw [Option.mem_def] at hu ⊢
  rw [List.getLast?_append, hu]
  rfl

theorem composeGlyphs_append
    (before : List Glyph) {after : List Glyph} (hcut : Cut before after) :
    composeGlyphs (before ++ after) = composeGlyphs before ++ composeGlyphs after := by
  induction hn : before.length using Nat.strong_induction_on generalizing before with
  | _ n ih =>
      cases before with
      | nil => simp [composeGlyphs]
      | cons g gs =>
          have happend := cluster_append (by simp) hcut
          rw [List.cons_append] at happend ⊢
          cases hcluster : cluster (g :: gs) with
          | none =>
              rw [hcluster] at happend
              rw [composeGlyphs_none happend, composeGlyphs_none hcluster,
                ih gs.length (by simp [← hn]) gs
                  (Cut.of_suffix (show Cut ([g] ++ gs) after from hcut)) rfl,
                List.append_assoc]
          | some res =>
              obtain ⟨sy, rest⟩ := res
              obtain ⟨used, hused, -⟩ := cluster_spec hcluster
              rw [hcluster] at happend
              rw [composeGlyphs_some happend, composeGlyphs_some hcluster,
                ih rest.length (by rw [← hn]; exact cluster_shorter hcluster) rest
                  (Cut.of_suffix (hused ▸ hcut)) rfl, List.append_assoc]

/-! ## Where `safe_end` cuts -/

/-- One character seen by `safe_end`. -/
def Seen.see (seen : Seen) (g : Glyph) : Seen :=
  ⟨seen.last, some ⟨seen.complete, g.code⟩, seen.complete + g.bytes.length⟩

theorem safeScan_eq
    {tail : Bytes} (htail : u8dec tail = .incomplete) {fuel : ℕ} (gs : List Glyph)
    (seen : Seen) (hfuel : (textOf gs ++ tail).length ≤ fuel) :
    safeScan fuel (textOf gs ++ tail) seen = gs.foldl Seen.see seen := by
  induction gs generalizing fuel seen with
  | nil =>
      cases fuel with
      | zero => rfl
      | succ fuel => simp [safeScan, htail]
  | cons g gs ih =>
      have hpos := g.length_bounds.1
      have hne : textOf (g :: gs) ++ tail ≠ [] := by
        simp [g.bytes_ne_nil]
      have hdec : u8dec (textOf (g :: gs) ++ tail) = .of g.bytes.length g.code :=
        u8dec_text htail (g :: gs)
      have hdrop : (textOf (g :: gs) ++ tail).drop g.bytes.length =
          textOf gs ++ tail := by simp
      have hlen : (textOf (g :: gs) ++ tail).length =
          g.bytes.length + (textOf gs ++ tail).length := by simp
      cases fuel with
      | zero => omega
      | succ fuel =>
          unfold safeScan
          rw [if_neg hne, hdec, List.foldl_cons, ← ih _ (by omega : _ ≤ fuel)]
          cases hcode : g.code with
          | none =>
              have hone := Glyph.stray_length hcode
              rw [hone] at hdrop
              simp only [Dec.of, hdrop, Seen.see, hcode, hone]
          | some cp => simp only [Dec.of, hdrop, Seen.see, hcode]

theorem seen_complete (gs : List Glyph) (seen : Seen) :
    (gs.foldl Seen.see seen).complete = seen.complete + (textOf gs).length := by
  induction gs generalizing seen with
  | nil => simp
  | cons g gs ih =>
      rw [List.foldl_cons, ih]
      simp [Seen.see]
      omega

theorem not_joins_start
    {v : Glyph} (hv : v.is isL ∨ v.is isLV) (u : Glyph) : ¬ Joins u v := by
  have hcodes : ¬ v.is isV ∧ ¬ v.is isT := by
    constructor <;> intro h
    · rcases hv with hv | hv <;>
        simp only [Glyph.is_iff, isL_iff, isV_iff, isLV_iff] at hv h <;> omega
    · rcases hv with hv | hv <;>
        simp only [Glyph.is_iff, isL_iff, isT_iff, isLV_iff] at hv h <;> omega
  unfold Joins
  tauto

theorem not_joins_vowel
    {u v : Glyph} (hu : ¬ u.is isL) (hv : v.is isV) : ¬ Joins u v := by
  have hcode : ¬ v.is isT := by
    intro h
    simp only [Glyph.is_iff, isV_iff, isT_iff] at hv h
    omega
  unfold Joins
  tauto

theorem cut_nil (after : List Glyph) : Cut [] after := by
  intro u hu
  simp at hu

theorem cut_cons
    {before after : List Glyph} {v : Glyph}
    (h : ∀ u ∈ before.getLast?, ¬ Joins u v) : Cut before (v :: after) := by
  intro u hu w hw
  rw [List.head?_cons, Option.mem_some_iff] at hw
  subst hw
  exact h u hu

/-- `safe_end` cuts in front of at most two characters and the incomplete one,
where nothing that follows joins. -/
theorem safeEnd_cut
    {tail : Bytes} (htail : u8dec tail = .incomplete) (gs : List Glyph) :
    ∃ before after, gs = before ++ after ∧
      safeEnd (textOf gs ++ tail) = (textOf before).length ∧
      after.length ≤ 2 ∧ ∀ more, Cut before (after ++ more) := by
  unfold safeEnd
  simp only [safeScan_eq htail gs _ le_rfl]
  rcases List.eq_nil_or_concat gs with rfl | ⟨hs, v, rfl⟩
  · exact ⟨[], [], rfl, rfl, by simp, fun more => cut_nil _⟩
  have hcomplete := seen_complete hs ⟨none, none, 0⟩
  rw [Nat.zero_add] at hcomplete
  simp only [List.concat_eq_append, List.foldl_append, List.foldl_cons,
    List.foldl_nil, Seen.see, hcomplete]
  have hmark : ∀ (p : ℕ → Bool) (n : ℕ) (g : Glyph), Mark.is p ⟨n, g.code⟩ = g.is p :=
    fun _ _ _ => rfl
  simp only [hmark]
  by_cases hL : v.is isL
  · rw [if_pos hL]
    exact ⟨hs, [v], rfl, rfl, by simp, fun more =>
      cut_cons fun u _ => not_joins_start (Or.inl hL) u⟩
  rw [if_neg hL]
  by_cases hV : v.is isV
  · rw [if_pos hV]
    rcases List.eq_nil_or_concat hs with rfl | ⟨ts, u, rfl⟩
    · exact ⟨[], [v], rfl, rfl, by simp, fun more => cut_nil _⟩
    have hfront := seen_complete ts ⟨none, none, 0⟩
    rw [Nat.zero_add] at hfront
    simp only [List.concat_eq_append, List.foldl_append, List.foldl_cons,
      List.foldl_nil, Seen.see, hfront, hmark]
    by_cases hu : u.is isL
    · rw [if_pos hu]
      exact ⟨ts, [u, v], by simp, rfl, by simp, fun more =>
        cut_cons fun w _ => not_joins_start (Or.inl hu) w⟩
    · rw [if_neg hu]
      refine ⟨ts ++ [u], [v], rfl, rfl, by simp, fun more => cut_cons ?_⟩
      intro w hw
      rw [List.getLast?_append, List.getLast?_singleton] at hw
      simp only [Option.some_or, Option.mem_some_iff] at hw
      subst hw
      exact not_joins_vowel hu hV
  rw [if_neg hV]
  by_cases hLV : v.is isLV
  · rw [if_pos hLV]
    exact ⟨hs, [v], rfl, rfl, by simp, fun more =>
      cut_cons fun u _ => not_joins_start (Or.inr hLV) u⟩
  · rw [if_neg hLV]
    refine ⟨hs ++ [v], [], by simp, by simp, by simp, ?_⟩
    intro more u hu w hw
    rw [List.getLast?_append, List.getLast?_singleton] at hu
    simp only [Option.some_or, Option.mem_some_iff] at hu
    subst hu
    unfold Joins
    tauto

/-! ## Whole streams -/

/-- The composition of a whole byte string. -/
def composed (src : Bytes) : Bytes := (compose src src.length).getD []

theorem compose_text
    {tail : Bytes} (htail : u8dec tail = .incomplete) (gs : List Glyph) {omax : ℕ}
    (hroom : (textOf gs ++ tail).length ≤ omax) :
    compose (textOf gs ++ tail) omax = some (composeGlyphs gs) := by
  unfold compose
  rw [composeLoop_eq htail gs le_rfl]
  · rfl
  · rw [List.length_append] at hroom
    simp only [List.length_nil]
    omega

theorem composed_text
    {tail : Bytes} (htail : u8dec tail = .incomplete) (gs : List Glyph) :
    composed (textOf gs ++ tail) = composeGlyphs gs := by
  unfold composed
  rw [compose_text htail gs le_rfl]
  rfl

/-- Into a buffer that holds the input, `compose` never fails. -/
theorem compose_fits {src : Bytes} {omax : ℕ} (hroom : src.length ≤ omax) :
    compose src omax = some (composed src) := by
  obtain ⟨gs, tail, rfl, htail, -⟩ := exists_glyphs src
  rw [compose_text htail gs hroom, composed_text htail]

theorem safeEnd_safe : HoldBack.SafeCut composed safeEnd := by
  intro x y
  obtain ⟨gs, tail, rfl, htail, -⟩ := exists_glyphs x
  obtain ⟨before, after, rfl, hend, -, hcut⟩ := safeEnd_cut htail gs
  obtain ⟨more, tail', hmore, htail', -⟩ := exists_glyphs (tail ++ y)
  have htake : (textOf (before ++ after) ++ tail).take (textOf before).length =
      textOf before ++ [] := by simp
  have hdrop : (textOf (before ++ after) ++ tail).drop (textOf before).length =
      textOf after ++ tail := by simp
  rw [hend, htake, hdrop, List.append_assoc, List.append_assoc, hmore,
    ← List.append_assoc, ← List.append_assoc, ← textOf_append, ← textOf_append,
    composed_text htail', composed_text htail', composed_text (by rfl),
    List.append_assoc, composeGlyphs_append before (hcut more)]

/-- What is held fits the array: two characters and an incomplete one. -/
theorem held_fits (src : Bytes) : (src.drop (safeEnd src)).length ≤ pendMax := by
  obtain ⟨gs, tail, rfl, htail, hshort⟩ := exists_glyphs src
  obtain ⟨before, after, rfl, hend, htwo, -⟩ := safeEnd_cut htail gs
  have hbytes : (textOf after).length ≤ 4 * after.length := by
    clear hend htwo
    induction after with
    | nil => simp
    | cons g gs ih =>
        have hg := g.length_bounds.2
        simp only [textOf_cons, List.length_append, List.length_cons]
        omega
  have hdrop : (textOf (before ++ after) ++ tail).drop (textOf before).length =
      textOf after ++ tail := by simp
  rw [hend, hdrop, List.length_append]
  unfold pendMax
  omega

theorem splice_eq
    {s : TxtStream} {input : Bytes} (hsize : input.length ≤ 4096) :
    splice s input = s.pend ++ input := by
  have hfits := s.fits
  unfold pendMax at hfits
  apply splice_append
  intro _
  unfold joinMax
  omega

theorem hold_pend (src : Bytes) :
    (hold (src.drop (safeEnd src))).pend = src.drop (safeEnd src) :=
  List.take_of_length_le (held_fits src)

theorem txtOut_eq
    {s : TxtStream} {input : Bytes} {omax : ℕ} (hsize : input.length ≤ 4096)
    (hroom : joinMax ≤ omax) :
    (txtOut s input omax).1 =
        some (composed ((s.pend ++ input).take (safeEnd (s.pend ++ input)))) ∧
      (txtOut s input omax).2.pend =
        (s.pend ++ input).drop (safeEnd (s.pend ++ input)) := by
  have hfits := s.fits
  unfold pendMax at hfits
  unfold joinMax at hroom
  unfold txtOut
  simp only [splice_eq hsize]
  refine ⟨compose_fits ?_, hold_pend _⟩
  rw [List.length_take, List.length_append]
  omega

theorem txtFlush_eq
    {s : TxtStream} {omax : ℕ} (hroom : joinMax ≤ omax) :
    (txtFlush s omax).1 = some (composed s.pend) := by
  unfold txtFlush
  split_ifs with hnil
  · rw [hnil]
    rfl
  · have hfits := s.fits
    unfold pendMax at hfits
    unfold joinMax at hroom
    exact compose_fits (by omega)

/-- The chunks of a run are those of the composition with hold-back. -/
theorem txtRun_feed
    {omax : ℕ} (hroom : joinMax ≤ omax) (s : TxtStream) (chunks : List Bytes)
    (hsize : ∀ c ∈ chunks, c.length ≤ 4096) :
    txtRun omax s chunks =
      (HoldBack.feed composed safeEnd s.pend chunks).map some := by
  induction chunks generalizing s with
  | nil => simp [txtRun, HoldBack.feed, txtFlush_eq hroom]
  | cons c chunks ih =>
      obtain ⟨hout, hheld⟩ := txtOut_eq (s := s) (hsize c (by simp)) hroom
      rw [txtRun, HoldBack.feed, List.map_cons, hout,
        ih _ fun d hd => hsize d (by simp [hd]), hheld]

/-- Whatever the chunks, the conversion writes the composition of the whole
stream; no call fails and what is held fits the array. -/
theorem txtRun_chunking
    (chunks : List Bytes) (hsize : ∀ c ∈ chunks, c.length ≤ 4096) {omax : ℕ}
    (hroom : chunks.flatten.length ≤ omax) :
    (∃ outs : List Bytes, txtRun 8192 TxtStream.init chunks = outs.map some ∧
      compose chunks.flatten omax = some outs.flatten) ∧
    ∀ done c later, chunks = done ++ c :: later →
      (splice (txtAfter 8192 TxtStream.init done) c).length -
        safeEnd (splice (txtAfter 8192 TxtStream.init done) c) ≤ pendMax := by
  constructor
  · refine ⟨HoldBack.feed composed safeEnd [] chunks, ?_, ?_⟩
    · exact txtRun_feed le_rfl TxtStream.init chunks hsize
    · rw [HoldBack.feed_flatten safeEnd_safe, List.nil_append]
      exact compose_fits hroom
  · intro done c later _
    have hheld := held_fits (splice (txtAfter 8192 TxtStream.init done) c)
    rwa [List.length_drop] at hheld

theorem txtRun_chunking_syllable :
    ∃ outs : List Bytes, txtRun 8192 TxtStream.init
        [[0xE1, 0x84, 0x80, 0xE1], [0x85], [0xA1, 0xE1, 0x86, 0xA8]] =
          outs.map some ∧
      compose [0xE1, 0x84, 0x80, 0xE1, 0x85, 0xA1, 0xE1, 0x86, 0xA8] 9 =
        some outs.flatten :=
  (txtRun_chunking [[0xE1, 0x84, 0x80, 0xE1], [0x85], [0xA1, 0xE1, 0x86, 0xA8]]
    (by decide) (by decide : _ ≤ 9)).1

end GrandCross
