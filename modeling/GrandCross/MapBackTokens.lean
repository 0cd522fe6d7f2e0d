import GrandCross.PathMap

/-!
# What the reverse mapping rewrites

`pm_back_line` tries every entry at every byte.  Its replacements are made
explicit as positions of the line; each of them should be at the beginning of
a token and end at a boundary.  Which lines keep to that is a property of the
tokens of the line: a prefix is found at the beginning of a token only, and
nothing is found inside one or between them.
-/

namespace GrandCross

open CText

/-! ## Replacements -/

/-- How much of the token behind a match is converted. -/
def PmEntry.converted (e : PmEntry) (rest : Bytes) : ℕ :=
  if e.sep = backslash then (rest.takeWhile inToken).length else 0

/-- The replacements of the scanner: where each begins, and its entry. -/
def pmEdits (maps : List PmEntry) : ℕ → ℕ → Bytes → List (ℕ × PmEntry)
  | 0, _, _ => []
  | _ + 1, _, [] => []
  | fuel + 1, i, b :: line =>
      match pmFind maps (b :: line) with
      | none => pmEdits maps fuel (i + 1) line
      | some e =>
          let rest := (b :: line).drop e.remote.length
          (i, e) :: pmEdits maps fuel (i + e.remote.length + e.converted rest)
            (rest.drop (e.converted rest))

/-- The line from position `i` on, with replacements; the rest is copied. -/
def applyEdits (i : ℕ) (line : Bytes) : List (ℕ × PmEntry) → Bytes
  | [] => line
  | (j, e) :: edits =>
      let rest := line.drop (j - i + e.remote.length)
      line.take (j - i) ++ pfxNorm e.loc ++ (rest.take (e.converted rest)).map tokenBack ++
        applyEdits (j + e.remote.length + e.converted rest)
          (rest.drop (e.converted rest)) edits

/-- Behind the remote prefix the token ends, a separator stands, or the prefix
ends with its own separator. -/
def MatchEnds (e : PmEntry) (rest : Bytes) : Prop :=
  (∀ b ∈ rest.head?, inToken b = false ∨ b = e.sep) ∨ e.remote.getLast? = some e.sep

/-- What the reverse mapping is for: a token begins with the whole remote
prefix of the entry, and a boundary follows. -/
structure RealAt (maps : List PmEntry) (line : Bytes) (i : ℕ) (e : PmEntry) : Prop where
  entry : e ∈ maps ∧ e.remote ≠ []
  whole : atMatch (e.sep = backslash) (line.drop i) e.remote = some e.remote.length
  start : (∀ b ∈ (line.take i).getLast?, inToken b = false) ∧
    ∃ b ∈ (line.drop i).head?, inToken b = true
  ends : MatchEnds e (line.drop (i + e.remote.length))

section Scan

variable {maps : List PmEntry}

theorem pmFind_some {line : Bytes} {e : PmEntry} (h : pmFind maps line = some e) :
    e ∈ maps ∧ 0 < e.remote.length ∧
      atMatch (e.sep = backslash) line e.remote = some e.remote.length := by
  have hmem := List.mem_of_find?_eq_some h
  have hmatch := List.find?_some h
  cases hat : atMatch (e.sep = backslash) line e.remote with
  | none => simp [hat] at hmatch
  | some n =>
      obtain ⟨rfl, -⟩ := atMatch_some hat
      exact ⟨hmem, by simpa [hat] using hmatch, rfl⟩

theorem pmEdits_fuel
    {fuel i : ℕ} {line : Bytes} (hfuel : line.length ≤ fuel) :
    pmEdits maps fuel i line = pmEdits maps line.length i line := by
  induction fuel using Nat.strong_induction_on generalizing i line with
  | _ fuel ih =>
      cases line with
      | nil => cases fuel <;> rfl
      | cons b line =>
          obtain ⟨fuel, rfl⟩ : ∃ k, fuel = k + 1 := ⟨fuel - 1, by simp at hfuel; omega⟩
          rw [List.length_cons] at hfuel ⊢
          rw [pmEdits, pmEdits]
          cases hfind : pmFind maps (b :: line) with
          | none =>
              dsimp only
              exact ih fuel (by omega) (by omega)
          | some e =>
              dsimp only
              obtain ⟨-, hpos, -⟩ := pmFind_some hfind
              congr 1
              have hrest : (((b :: line).drop e.remote.length).drop
                  (e.converted ((b :: line).drop e.remote.length))).length ≤
                    line.length := by
                rw [List.length_drop, List.length_drop, List.length_cons]
                omega
              rw [ih fuel (by omega) (by omega), ih line.length (by omega) hrest]

/-- The replacements in a line that stands at position `i`. -/
def editsAt (maps : List PmEntry) (i : ℕ) (line : Bytes) : List (ℕ × PmEntry) :=
  pmEdits maps line.length i line

theorem editsAt_nil (i : ℕ) : editsAt maps i [] = [] := rfl

theorem editsAt_none
    {i : ℕ} {b : Byte} {line : Bytes} (h : pmFind maps (b :: line) = none) :
    editsAt maps i (b :: line) = editsAt maps (i + 1) line := by
  unfold editsAt
  rw [List.length_cons, pmEdits, h]

theorem editsAt_some
    {i : ℕ} {line : Bytes} {e : PmEntry} (h : pmFind maps line = some e) :
    editsAt maps i line =
      (i, e) :: editsAt maps
        (i + e.remote.length + e.converted (line.drop e.remote.length))
        ((line.drop e.remote.length).drop
          (e.converted (line.drop e.remote.length))) := by
  obtain ⟨-, hpos, hmatch⟩ := pmFind_some h
  cases line with
  | nil =>
      obtain ⟨-, front, rest, hline, hlen, -⟩ := atMatch_some hmatch
      have hnil := (List.append_eq_nil_iff.mp hline.symm).1
      rw [hnil, List.length_nil] at hlen
      omega
  | cons b line =>
      unfold editsAt
      rw [List.length_cons, pmEdits, h]
      dsimp only
      rw [pmEdits_fuel]
      rw [List.length_drop, List.length_drop, List.length_cons]
      omega

theorem editsAt_ge (i : ℕ) (line : Bytes) : ∀ p ∈ editsAt maps i line, i ≤ p.1 := by
  induction hn : line.length using Nat.strong_induction_on generalizing i line with
  | _ n ih =>
      subst hn
      cases line with
      | nil => simp [editsAt_nil]
      | cons b line =>
          cases hfind : pmFind maps (b :: line) with
          | none =>
              rw [editsAt_none hfind]
              intro p hp
              have := ih _ (by simp) (i + 1) line rfl p hp
              omega
          | some e =>
              obtain ⟨-, hpos, -⟩ := pmFind_some hfind
              rw [editsAt_some hfind]
              intro p hp
              rcases List.mem_cons.mp hp with rfl | hmem
              · exact le_rfl
              · have hshort : (((b :: line).drop e.remote.length).drop
                    (e.converted ((b :: line).drop e.remote.length))).length <
                      (b :: line).length := by
                  rw [List.length_drop, List.length_drop, List.length_cons]
                  omega
                have := ih _ hshort _ _ rfl p hmem
                omega

theorem applyEdits_cons
    {i : ℕ} (b : Byte) (line : Bytes) {edits : List (ℕ × PmEntry)}
    (h : ∀ p ∈ edits, i + 1 ≤ p.1) :
    applyEdits i (b :: line) edits = b :: applyEdits (i + 1) line edits := by
  cases edits with
  | nil => rfl
  | cons p edits =>
      obtain ⟨j, e⟩ := p
      have hj : i + 1 ≤ j := h (j, e) (by simp)
      have htake : j - i = (j - (i + 1)) + 1 := by omega
      have hdrop : j - i + e.remote.length = (j - (i + 1) + e.remote.length) + 1 := by omega
      simp only [applyEdits]
      rw [hdrop, htake, List.drop_succ_cons, List.take_succ_cons]
      rfl

theorem pmSubst_fuel
    {fuel : ℕ} {line : Bytes} (hfuel : line.length ≤ fuel) (i : ℕ) :
    pmSubst maps fuel line = applyEdits i line (editsAt maps i line) := by
  induction fuel generalizing i line with
  | zero =>
      obtain rfl : line = [] := List.length_eq_zero_iff.mp (by omega)
      rfl
  | succ fuel ih =>
      cases line with
      | nil => rfl
      | cons b line =>
          rw [List.length_cons] at hfuel
          rw [pmSubst]
          cases hfind : pmFind maps (b :: line) with
          | none =>
              dsimp only
              rw [editsAt_none hfind, applyEdits_cons b line (editsAt_ge (i + 1) line),
                ih (by omega) (i + 1)]
          | some e =>
              obtain ⟨-, hpos, -⟩ := pmFind_some hfind
              rw [editsAt_some hfind]
              simp only [applyEdits, Nat.sub_self, Nat.zero_add, List.take_zero,
                List.nil_append]
              generalize hrest : (b :: line).drop e.remote.length = rest
              have hlen : rest.length ≤ fuel := by
                rw [← hrest, List.length_drop, List.length_cons]
                omega
              unfold PmEntry.converted
              split_ifs with hsep
              · have htoken : rest.take (rest.takeWhile inToken).length =
                    rest.takeWhile inToken :=
                  (List.prefix_iff_eq_take.mp (List.takeWhile_prefix _)).symm
                have hbehind : (rest.drop (rest.takeWhile inToken).length).length ≤ fuel := by
                  rw [List.length_drop]
                  omega
                rw [htoken, ← ih hbehind, List.append_assoc]
              · simp [← ih hlen (i + e.remote.length)]

/-- The line with every replacement made. -/
def rewritten (maps : List PmEntry) (line : Bytes) : Bytes :=
  pmSubst maps line.length line

theorem rewritten_eq (i : ℕ) (line : Bytes) :
    rewritten maps line = applyEdits i line (editsAt maps i line) :=
  pmSubst_fuel le_rfl i

theorem rewritten_none
    {b : Byte} {line : Bytes} (h : pmFind maps (b :: line) = none) :
    rewritten maps (b :: line) = b :: rewritten maps line := by
  rw [rewritten_eq 0, rewritten_eq 1, editsAt_none h,
    applyEdits_cons b line (editsAt_ge 1 line)]

theorem rewritten_some
    {e : PmEntry} {front token rest : Bytes}
    (h : pmFind maps (front ++ (token ++ rest)) = some e)
    (hfront : front.length = e.remote.length)
    (htoken : e.converted (token ++ rest) = token.length) :
    rewritten maps (front ++ (token ++ rest)) =
      pfxNorm e.loc ++ (token.map tokenBack ++ rewritten maps rest) := by
  rw [rewritten_eq 0, editsAt_some h, ← hfront, List.drop_left, htoken, List.drop_left]
  simp only [applyEdits, Nat.sub_self, Nat.zero_add, List.take_zero, List.nil_append]
  rw [← hfront, List.drop_left, htoken, List.drop_left, List.take_left, ← rewritten_eq,
    List.append_assoc]

/-! ## Reading a line token by token -/

/-- The token at the front, as far as it goes. -/
structure TokenSplit (token rest : Bytes) : Prop where
  inside : ∀ b ∈ token, inToken b = true
  ends : ∀ b ∈ rest.head?, inToken b = false

/-- Nothing is found at any byte of the token. -/
def NoneIn (maps : List PmEntry) (token rest : Bytes) : Prop :=
  ∀ i < token.length, pmFind maps ((token ++ rest).drop i) = none

/-- The line is made of delimiters, tokens in which nothing is found, and
tokens at the beginning of which an entry is found whose prefix ends at a
boundary, with nothing found behind it unless the token is converted.  The
number is the length with the prefixes exchanged. -/
inductive RealLine (maps : List PmEntry) : Bytes → ℕ → Prop where
  | nil : RealLine maps [] 0
  | gap {b : Byte} {line : Bytes} {n : ℕ} (hb : inToken b = false)
      (hnone : pmFind maps (b :: line) = none) (h : RealLine maps line n) :
      RealLine maps (b :: line) (n + 1)
  | plain {token rest : Bytes} {n : ℕ} (htoken : TokenSplit token rest) (hne : token ≠ [])
      (hnone : NoneIn maps token rest) (h : RealLine maps rest n) :
      RealLine maps (token ++ rest) (token.length + n)
  | prefixed {e : PmEntry} {front token rest : Bytes} {n : ℕ}
      (hfind : pmFind maps (front ++ (token ++ rest)) = some e)
      (hfront : front.length = e.remote.length)
      (hstart : ∃ b ∈ front.head?, inToken b = true)
      (hends : MatchEnds e (token ++ rest)) (htoken : TokenSplit token rest)
      (hbehind : e.sep = backslash ∨
        (∃ b ∈ front.getLast?, inToken b = true) ∧ NoneIn maps token rest)
      (h : RealLine maps rest n) :
      RealLine maps (front ++ (token ++ rest))
        ((pfxNorm e.loc).length + (token.length + n))
  /-- The prefix itself holds the end of its last token. -/
  | closed {e : PmEntry} {front rest : Bytes} {n : ℕ}
      (hfind : pmFind maps (front ++ rest) = some e)
      (hfront : front.length = e.remote.length)
      (hstart : ∃ b ∈ front.head?, inToken b = true) (hends : MatchEnds e rest)
      (hsep : e.sep ≠ backslash) (hlast : ∀ b ∈ front.getLast?, inToken b = false)
      (h : RealLine maps rest n) :
      RealLine maps (front ++ rest) ((pfxNorm e.loc).length + n)

/-- All replacements in the part of the line behind `pre` are real. -/
def RealEdits (maps : List PmEntry) (pre cur : Bytes) : Prop :=
  ∀ p ∈ editsAt maps pre.length cur, RealAt maps (pre ++ cur) p.1 p.2

/-- Between `pre` and `cur` no token goes on. -/
def AtBoundary (pre cur : Bytes) : Prop :=
  (∀ b ∈ pre.getLast?, inToken b = false) ∨ ∀ b ∈ cur.head?, inToken b = false

theorem realEdits_none
    {pre line : Bytes} {b : Byte} (h : pmFind maps (b :: line) = none) :
    RealEdits maps pre (b :: line) ↔ RealEdits maps (pre ++ [b]) line := by
  unfold RealEdits
  rw [editsAt_none h, List.length_append, List.length_singleton, List.append_assoc,
    List.singleton_append]

theorem realAt_iff
    {pre front rest : Bytes} {e : PmEntry} (hfind : pmFind maps (front ++ rest) = some e)
    (hfront : front.length = e.remote.length) :
    RealAt maps (pre ++ (front ++ rest)) pre.length e ↔
      (∀ b ∈ pre.getLast?, inToken b = false) ∧ (∃ b ∈ front.head?, inToken b = true) ∧
        MatchEnds e rest := by
  obtain ⟨hmem, hpos, hmatch⟩ := pmFind_some hfind
  have hne : front ≠ [] := List.ne_nil_of_length_pos (hfront ▸ hpos)
  have hhead : (front ++ rest).head? = front.head? := List.head?_append_of_ne_nil _ hne
  have hdrop : (pre ++ (front ++ rest)).drop (pre.length + e.remote.length) = rest := by
    rw [← hfront, ← List.length_append, ← List.append_assoc, List.drop_left]
  constructor
  · intro h
    have hstart := h.start
    have hends := h.ends
    rw [List.take_left, List.drop_left, hhead] at hstart
    rw [hdrop] at hends
    exact ⟨hstart.1, hstart.2, hends⟩
  · rintro ⟨hpre, hstart, hends⟩
    refine ⟨⟨hmem, List.ne_nil_of_length_pos hpos⟩, ?_, ?_, ?_⟩
    · rwa [List.drop_left]
    · rw [List.take_left, List.drop_left, hhead]
      exact ⟨hpre, hstart⟩
    · rw [hdrop]
      exact hends

theorem realEdits_some
    {pre front token rest : Bytes} {e : PmEntry}
    (hfind : pmFind maps (front ++ (token ++ rest)) = some e)
    (hfront : front.length = e.remote.length)
    (htoken : e.converted (token ++ rest) = token.length) :
    RealEdits maps pre (front ++ (token ++ rest)) ↔
      ((∀ b ∈ pre.getLast?, inToken b = false) ∧ (∃ b ∈ front.head?, inToken b = true) ∧
        MatchEnds e (token ++ rest)) ∧ RealEdits maps (pre ++ front ++ token) rest := by
  rw [← realAt_iff hfind hfront]
  unfold RealEdits
  rw [editsAt_some hfind, ← hfront, List.drop_left, htoken, List.drop_left]
  simp only [List.mem_cons, forall_eq_or_imp, List.length_append, List.append_assoc]
  rw [Nat.add_assoc]

theorem converted_of_token
    {e : PmEntry} {token rest : Bytes} (hsep : e.sep = backslash)
    (htoken : TokenSplit token rest) : e.converted (token ++ rest) = token.length := by
  have hrest : rest.takeWhile inToken = [] := by
    cases rest with
    | nil => rfl
    | cons b rest => exact List.takeWhile_cons_of_neg (by simp [htoken.ends b rfl])
  unfold PmEntry.converted
  rw [if_pos hsep, List.takeWhile_append_of_pos htoken.inside, hrest, List.append_nil]

theorem converted_of_sep {e : PmEntry} (hsep : e.sep ≠ backslash) (rest : Bytes) :
    e.converted rest = 0 :=
  if_neg hsep

theorem exists_token (line : Bytes) :
    ∃ token rest, line = token ++ rest ∧ TokenSplit token rest := by
  refine ⟨line.takeWhile inToken, line.dropWhile inToken, List.takeWhile_append_dropWhile.symm,
    ?_, ?_⟩
  · intro b hb
    exact List.mem_takeWhile_imp hb
  · intro b hb
    have hnot := List.head?_dropWhile_not inToken line
    rw [Option.mem_def.mp hb] at hnot
    simpa using hnot

/-! ## The scanner inside a token and between tokens -/

theorem noneIn_cons (b : Byte) (token rest : Bytes) :
    NoneIn maps (b :: token) rest ↔
      pmFind maps (b :: (token ++ rest)) = none ∧ NoneIn maps token rest := by
  constructor
  · intro h
    exact ⟨h 0 (by simp), fun i hi => h (i + 1) (by simpa using hi)⟩
  · rintro ⟨hfind, h⟩ i hi
    cases i with
    | zero => exact hfind
    | succ i => exact h i (by simpa using hi)

/-- Inside a token every replacement is wrong. -/
theorem realEdits_token
    {pre token rest : Bytes} (hpre : ∃ b ∈ pre.getLast?, inToken b = true)
    (htoken : ∀ b ∈ token, inToken b = true) :
    RealEdits maps pre (token ++ rest) ↔
      NoneIn maps token rest ∧ RealEdits maps (pre ++ token) rest := by
  induction token generalizing pre with
  | nil => simp [NoneIn]
  | cons b token ih =>
      cases hfind : pmFind maps (b :: (token ++ rest)) with
      | none =>
          have hnext : ∃ c ∈ (pre ++ [b]).getLast?, inToken c = true :=
            ⟨b, by simp, htoken b (by simp)⟩
          rw [List.cons_append, realEdits_none hfind,
            ih hnext fun c hc => htoken c (by simp [hc]), noneIn_cons, List.append_assoc,
            List.singleton_append]
          simp [hfind]
      | some e =>
          refine iff_of_false ?_ ?_
          · intro hkept
            have hreal := hkept (pre.length, e) (by
              rw [List.cons_append, editsAt_some hfind]
              simp)
            obtain ⟨c, hc, hin⟩ := hpre
            have hnot := hreal.start.1 c (by rwa [List.take_left])
            rw [hin] at hnot
            cases hnot
          · rintro ⟨hnone, -⟩
            rw [noneIn_cons, hfind] at hnone
            cases hnone.1

/-- Between tokens every replacement is wrong. -/
theorem realEdits_gap
    {pre line : Bytes} {b : Byte} (hb : inToken b = false) :
    RealEdits maps pre (b :: line) ↔
      pmFind maps (b :: line) = none ∧ RealEdits maps (pre ++ [b]) line := by
  cases hfind : pmFind maps (b :: line) with
  | none => simp [realEdits_none hfind]
  | some e =>
      refine iff_of_false ?_ (by simp)
      intro hkept
      have hreal := hkept (pre.length, e) (by
        rw [editsAt_some hfind]
        simp)
      obtain ⟨c, hc, hin⟩ := hreal.start.2
      rw [List.drop_left] at hc
      obtain rfl : b = c := by simpa using hc
      rw [hb] at hin
      cases hin

/-- At the first byte of a token at which nothing is found. -/
theorem realEdits_plain
    {pre token rest : Bytes} (hne : token ≠ []) (htoken : TokenSplit token rest) :
    pmFind maps (token ++ rest) = none →
      (RealEdits maps pre (token ++ rest) ↔
        NoneIn maps token rest ∧ RealEdits maps (pre ++ token) rest) := by
  intro hfind
  obtain ⟨b, token, rfl⟩ := List.exists_cons_of_ne_nil hne
  have hlast : ∃ c ∈ (pre ++ [b]).getLast?, inToken c = true :=
    ⟨b, by simp, htoken.inside b (by simp)⟩
  rw [List.cons_append] at hfind
  rw [List.cons_append, realEdits_none hfind,
    realEdits_token hlast fun c hc => htoken.inside c (by simp [hc]), noneIn_cons,
    List.append_assoc, List.singleton_append]
  simp [hfind]

/-! ## Lines with real replacements only -/

theorem rewritten_token
    {token rest : Bytes} (h : NoneIn maps token rest) :
    rewritten maps (token ++ rest) = token ++ rewritten maps rest := by
  induction token with
  | nil => rfl
  | cons b token ih =>
      obtain ⟨hfind, hnone⟩ := (noneIn_cons b token rest).mp h
      rw [List.cons_append, rewritten_none hfind, ih hnone, List.cons_append]

theorem atBoundary_of_rest
    {token rest : Bytes} (htoken : TokenSplit token rest) (pre : Bytes) : AtBoundary pre rest :=
  .inr htoken.ends

theorem boundary_start
    {pre line : Bytes} (h : AtBoundary pre line)
    (hstart : ∃ b ∈ line.head?, inToken b = true) :
    ∀ b ∈ pre.getLast?, inToken b = false := by
  rcases h with hpre | hline
  · exact hpre
  · obtain ⟨b, hb, hin⟩ := hstart
    rw [hline b hb] at hin
    cases hin

theorem head?_front {front rest : Bytes} (h : ∃ b ∈ front.head?, inToken b = true) :
    ∃ b ∈ (front ++ rest).head?, inToken b = true := by
  obtain ⟨b, hb, hin⟩ := h
  exact ⟨b, by rw [List.head?_append]; simp [Option.mem_def.mp hb], hin⟩

theorem getLast?_append_front (pre : Bytes) {front : Bytes} (hne : front ≠ []) :
    (pre ++ front).getLast? = front.getLast? :=
  List.getLast?_append_of_ne_nil pre hne

/-- A line that is read token by token is rewritten in real places only, and
to the length that the reading says. -/
theorem RealLine.realEdits
    {line : Bytes} {n : ℕ} (h : RealLine maps line n) :
    (∀ pre, AtBoundary pre line → RealEdits maps pre line) ∧
      (rewritten maps line).length = n := by
  induction h with
  | nil => exact ⟨fun pre _ => by simp [RealEdits, editsAt_nil], rfl⟩
  | gap hb hnone _ ih =>
      refine ⟨fun pre _ => ?_, ?_⟩
      · exact (realEdits_gap hb).mpr ⟨hnone, ih.1 _ (.inl (by simpa using hb))⟩
      · rw [rewritten_none hnone, List.length_cons, ih.2]
  | @plain token rest n htoken hne hnone _ ih =>
      refine ⟨fun pre _ => ?_, ?_⟩
      · have hfind := hnone 0 (List.length_pos_of_ne_nil hne)
        exact (realEdits_plain hne htoken hfind).mpr
          ⟨hnone, ih.1 _ (atBoundary_of_rest htoken _)⟩
      · rw [rewritten_token hnone, List.length_append, ih.2]
  | @prefixed e front token rest n hfind hfront hstart hends htoken hbehind _ ih =>
      by_cases hsep : e.sep = backslash
      · have hconv := converted_of_token hsep htoken
        refine ⟨fun pre hpre => ?_, ?_⟩
        · exact (realEdits_some hfind hfront hconv).mpr
            ⟨⟨boundary_start hpre (head?_front hstart), hstart, hends⟩,
              ih.1 _ (atBoundary_of_rest htoken _)⟩
        · rw [rewritten_some hfind hfront hconv]
          simp [ih.2]
      · obtain ⟨hlast, hnone⟩ := hbehind.resolve_left hsep
        have hfind' : pmFind maps (front ++ ([] ++ (token ++ rest))) = some e := hfind
        have hconv : e.converted ([] ++ (token ++ rest)) = ([] : Bytes).length :=
          converted_of_sep hsep _
        obtain ⟨b, hb, hin⟩ := hlast
        have hne : front ≠ [] := by
          rintro rfl
          simp at hb
        refine ⟨fun pre hpre => ?_, ?_⟩
        · refine (realEdits_some hfind' hfront hconv).mpr
            ⟨⟨boundary_start hpre (head?_front hstart), hstart, hends⟩, ?_⟩
          rw [List.append_nil]
          refine (realEdits_token ⟨b, ?_, hin⟩ htoken.inside).mpr
            ⟨hnone, ih.1 _ (atBoundary_of_rest htoken _)⟩
          rwa [getLast?_append_front pre hne]
        · have hlen := congrArg List.length (rewritten_some hfind' hfront hconv)
          rw [List.nil_append, rewritten_token hnone] at hlen
          simpa [ih.2] using hlen
  | @closed e front rest n hfind hfront hstart hends hsep hlast _ ih =>
      have hfind' : pmFind maps (front ++ ([] ++ rest)) = some e := hfind
      have hconv : e.converted ([] ++ rest) = ([] : Bytes).length := converted_of_sep hsep _
      have hne : front ≠ [] := by
        rintro rfl
        simp at hstart
      refine ⟨fun pre hpre => ?_, ?_⟩
      · refine (realEdits_some hfind' hfront hconv).mpr
          ⟨⟨boundary_start hpre (head?_front hstart), hstart, hends⟩, ih.1 _ (.inl ?_)⟩
        rwa [List.append_nil, getLast?_append_front pre hne]
      · have hlen := congrArg List.length (rewritten_some hfind' hfront hconv)
        simpa [ih.2] using hlen

/-- The case of an entry found at the beginning of a token, where shorter lines
are read token by token. -/
theorem exists_realLine_found
    {pre front token rest : Bytes} {e : PmEntry}
    (hfind : pmFind maps (front ++ (token ++ rest)) = some e)
    (hfront : front.length = e.remote.length)
    (hstart : ∃ b ∈ front.head?, inToken b = true) (htoken : TokenSplit token rest)
    (h : RealEdits maps pre (front ++ (token ++ rest)))
    (ih : ∀ pre' line, line.length ≤ (token ++ rest).length → AtBoundary pre' line →
      RealEdits maps pre' line → ∃ n, RealLine maps line n) :
    ∃ n, RealLine maps (front ++ (token ++ rest)) n := by
  have hshort : rest.length ≤ (token ++ rest).length := by
    rw [List.length_append]
    omega
  by_cases hsep : e.sep = backslash
  · obtain ⟨⟨-, -, hends⟩, hrest⟩ :=
      (realEdits_some hfind hfront (converted_of_token hsep htoken)).mp h
    obtain ⟨n, hn⟩ := ih _ rest hshort (atBoundary_of_rest htoken _) hrest
    exact ⟨_, .prefixed hfind hfront hstart hends htoken (.inl hsep) hn⟩
  · have hfind' : pmFind maps (front ++ ([] ++ (token ++ rest))) = some e := hfind
    have hconv : e.converted ([] ++ (token ++ rest)) = ([] : Bytes).length :=
      converted_of_sep hsep _
    obtain ⟨⟨-, -, hends⟩, hbehind⟩ := (realEdits_some hfind' hfront hconv).mp h
    have hne : front ≠ [] := by
      rintro rfl
      simp at hstart
    rw [List.append_nil] at hbehind
    by_cases hlast : ∃ b ∈ front.getLast?, inToken b = true
    · have hopen := hlast
      rw [← getLast?_append_front pre hne] at hopen
      obtain ⟨hnone, hrest⟩ := (realEdits_token hopen htoken.inside).mp hbehind
      obtain ⟨n, hn⟩ := ih _ rest hshort (atBoundary_of_rest htoken _) hrest
      exact ⟨_, .prefixed hfind hfront hstart hends htoken (.inr ⟨hlast, hnone⟩) hn⟩
    · have hclosed : ∀ b ∈ front.getLast?, inToken b = false := fun b hb => by
        by_contra hin
        exact hlast ⟨b, hb, by simpa using hin⟩
      have hboundary : AtBoundary (pre ++ front) (token ++ rest) := by
        left
        rwa [getLast?_append_front pre hne]
      obtain ⟨n, hn⟩ := ih _ _ le_rfl hboundary hbehind
      exact ⟨_, .closed hfind hfront hstart hends hsep hclosed hn⟩

/-- A line that is rewritten in real places only is read token by token. -/
theorem exists_realLine
    {pre line : Bytes} (hpre : AtBoundary pre line) (h : RealEdits maps pre line) :
    ∃ n, RealLine maps line n := by
  induction hn : line.length using Nat.strong_induction_on generalizing pre line with
  | _ n ih =>
      subst hn
      cases line with
      | nil => exact ⟨0, .nil⟩
      | cons b line =>
          by_cases hb : inToken b = true
          · cases hfind : pmFind maps (b :: line) with
            | none =>
                obtain ⟨token, rest, hline, htoken⟩ := exists_token (b :: line)
                have hne : token ≠ [] := by
                  rintro rfl
                  rw [List.nil_append] at hline
                  have hnot := htoken.ends b (by simp [← hline])
                  rw [hb] at hnot
                  cases hnot
                have hlen := congrArg List.length hline
                rw [List.length_append] at hlen
                have hpos := List.length_pos_of_ne_nil hne
                rw [hline] at h hfind ⊢
                obtain ⟨hnone, hrest⟩ := (realEdits_plain hne htoken hfind).mp h
                obtain ⟨m, hm⟩ := ih rest.length (by omega)
                  (atBoundary_of_rest htoken (pre ++ token)) hrest rfl
                exact ⟨_, .plain htoken hne hnone hm⟩
            | some e =>
                obtain ⟨-, hpos, hmatch⟩ := pmFind_some hfind
                obtain ⟨-, front, rest₀, hline, hfront, -⟩ := atMatch_some hmatch
                have hstart : ∃ c ∈ front.head?, inToken c = true := by
                  cases front with
                  | nil =>
                      rw [List.length_nil] at hfront
                      omega
                  | cons c front =>
                      obtain rfl : b = c := (List.cons.inj hline).1
                      exact ⟨b, rfl, hb⟩
                have hlen := congrArg List.length hline
                rw [List.length_append] at hlen
                obtain ⟨token, rest, rfl, htoken⟩ := exists_token rest₀
                rw [List.length_append] at hlen
                rw [hline] at h hfind ⊢
                refine exists_realLine_found hfind hfront hstart htoken h ?_
                intro pre' line' hshort hpre' hkept'
                rw [List.length_append] at hshort
                exact ih line'.length (by omega) hpre' hkept' rfl
          · have hb : inToken b = false := by simpa using hb
            obtain ⟨hnone, hrest⟩ := (realEdits_gap hb).mp h
            obtain ⟨m, hm⟩ := ih line.length (by simp)
              (.inl (by simpa using hb) : AtBoundary (pre ++ [b]) line) hrest rfl
            exact ⟨_, .gap hb hnone hm⟩

end Scan

/-! ## The reverse mapping of a line -/

def entries (kv : List GcdsKv) (host : Bytes) : List PmEntry := (pmMaps kv host).map pmEntry

/-- The line is rewritten in real places only, and nothing of it is lost. -/
structure OnlyReal (kv : List GcdsKv) (host line : Bytes) (size : ℕ) : Prop where
  real : ∀ p ∈ editsAt (entries kv host) 0 line, RealAt (entries kv host) line p.1 p.2
  whole : pmBackLine kv host line size =
    applyEdits 0 line (editsAt (entries kv host) 0 line)

theorem pmBackLine_eq (kv : List GcdsKv) (host line : Bytes) (size : ℕ) :
    pmBackLine kv host line size =
      if pmMaps kv host = [] then line
      else (rewritten (entries kv host) line).take (min (size - 1) backMax) := by
  unfold pmBackLine
  dsimp only
  split_ifs
  · rfl
  · simp only [gcdsStrlcpy]
    rw [pmBackLoop_eq _ _ _ (by simp), List.nil_append, List.take_take]
    rfl

/-- The reverse mapping rewrites real remote paths only, and loses nothing,
exactly for the lines that are read token by token and whose new text fits the
two buffers. -/
theorem map_back_only_real_iff
    (kv : List GcdsKv) (host line : Bytes) (size : ℕ) :
    OnlyReal kv host line size ↔
      pmMaps kv host = [] ∨
        ∃ n, RealLine (entries kv host) line n ∧ n ≤ backMax ∧ n ≤ size - 1 := by
  have hnoMaps (hnil : pmMaps kv host = []) : editsAt (entries kv host) 0 line = [] := by
    have hempty : entries kv host = [] := by
      unfold entries
      rw [hnil]
      rfl
    rw [hempty]
    generalize 0 = i
    induction line generalizing i with
    | nil => rfl
    | cons b line ih =>
        rw [editsAt_none rfl]
        exact ih (i + 1)
  constructor
  · rintro ⟨hreal, hwhole⟩
    by_cases hnil : pmMaps kv host = []
    · exact .inl hnil
    · right
      obtain ⟨n, hn⟩ := exists_realLine (.inl (by simp) : AtBoundary [] line) hreal
      rw [pmBackLine_eq, if_neg hnil, ← rewritten_eq, List.take_eq_self_iff,
        hn.realEdits.2] at hwhole
      exact ⟨n, hn, by omega, by omega⟩
  · rintro (hnil | ⟨n, hn, hback, hsize⟩)
    · refine ⟨by simp [hnoMaps hnil], ?_⟩
      rw [pmBackLine_eq, if_pos hnil, hnoMaps hnil]
      rfl
    · have hreal : RealEdits (entries kv host) [] line := hn.realEdits.1 [] (.inl (by simp))
      refine ⟨hreal, ?_⟩
      rw [pmBackLine_eq]
      split_ifs with hnil
      · rw [hnoMaps hnil]
        rfl
      · rw [← rewritten_eq, List.take_of_length_le]
        rw [hn.realEdits.2]
        omega

/-- `Z:\project` is not below `Z:\proj`, but its beginning is replaced. -/
theorem map_back_rewrites_project :
    pmBackLine [⟨ascii "host.h.map.1", ascii "/l|Z:\\proj"⟩] (ascii "h")
        (ascii "Z:\\project") 1024 = ascii "/lect" ∧
      ¬ OnlyReal [⟨ascii "host.h.map.1", ascii "/l|Z:\\proj"⟩] (ascii "h")
        (ascii "Z:\\project") 1024 := by
  refine ⟨by decide +kernel, ?_⟩
  intro h
  have hmem : (0, ⟨ascii "/l", ascii "Z:\\proj", none⟩) ∈
      editsAt (entries [⟨ascii "host.h.map.1", ascii "/l|Z:\\proj"⟩] (ascii "h")) 0
        (ascii "Z:\\project") := by
    decide +kernel
  rcases (h.real _ hmem).ends with hboundary | hsep
  · have hnext := hboundary 101 (by decide +kernel)
    revert hnext
    decide +kernel
  · revert hsep
    decide +kernel

end GrandCross
