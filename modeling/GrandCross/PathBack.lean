import GrandCross.ClientStream
import GrandCross.PathMap

/-!
# Mapping a directory there and back

The remote directory of a mapped working directory is put through the
replacement of output lines.  The local directory comes back unless the
separator between prefix and rest was dropped on the way, or the rest holds
the remote prefix once more.
-/

namespace GrandCross

open CText

/-! ## Forward -/

theorem pfxTrim_le (pfx : Bytes) (n : ℕ) : pfxTrim pfx n ≤ n := by
  induction n using Nat.strong_induction_on with
  | _ n ih =>
      match n with
      | 0 => exact le_rfl
      | 1 => exact le_rfl
      | n + 2 =>
          rw [pfxTrim]
          split_ifs
          · exact (ih (n + 1) (by omega)).trans (by omega)
          · exact le_rfl

theorem pfxNorm_length (pfx : Bytes) : (pfxNorm pfx).length = pfxNormLen pfx :=
  List.length_take_of_le (pfxTrim_le pfx pfx.length)

/-- Two or more bytes do not end with a slash. -/
theorem pfxTrim_last (pfx : Bytes) {n : ℕ} (h : 2 ≤ pfxTrim pfx n) :
    pfx[pfxTrim pfx n - 1]? ≠ some fwdSlash := by
  induction n using Nat.strong_induction_on with
  | _ n ih =>
      match n with
      | 0 => simp [pfxTrim] at h
      | 1 => simp [pfxTrim] at h
      | n + 2 =>
          rw [pfxTrim] at h ⊢
          split_ifs at h ⊢ with hslash
          · exact ih (n + 1) (by omega) h
          · simpa using hslash

theorem pfxNorm_ne_cons (pfx : Bytes) (c : Byte) {x : Bytes}
    (hx : x.getLast? = some fwdSlash) : pfxNorm pfx ≠ c :: x := by
  intro heq
  have hxne : x ≠ [] := by
    rintro rfl
    simp at hx
  have hpos := List.length_pos_of_ne_nil hxne
  have hlen := pfxNorm_length pfx
  rw [heq, List.length_cons] at hlen
  have hlast := pfxTrim_last pfx (n := pfx.length) (by
    rw [← pfxNormLen]
    omega)
  rw [← pfxNormLen] at hlast
  have hget : (pfxNorm pfx).getLast? = pfx[pfxNormLen pfx - 1]? := by
    rw [List.getLast?_eq_getElem?, pfxNorm_length, pfxNorm, List.getElem?_take_of_lt (by omega)]
  rw [heq, List.getLast?_cons_of_ne_nil hxne, hx] at hget
  exact hlast hget.symm

/-- The separator in place of a slash. -/
def sepOf (sep b : Byte) : Byte := if b = fwdSlash then sep else b

theorem pmBuildLoop_some
    {size : ℕ} {sep : Byte} {out rest r : Bytes}
    (h : pmBuildLoop size sep out rest = some r) : r = out ++ rest.map (sepOf sep) := by
  induction rest generalizing out with
  | nil =>
      rw [List.map_nil, List.append_nil]
      exact (Option.some.inj h).symm
  | cons b rest ih =>
      rw [pmBuildLoop] at h
      split_ifs at h
      all_goals
        rw [ih h, List.append_assoc]
        simp [sepOf, *]

theorem pmBuild_some
    {size : ℕ} {sep : Byte} {remote rest r : Bytes}
    (h : pmBuild size remote rest sep = some r) :
    r = remote ++ (pmRest remote rest sep).map (sepOf sep) := by
  unfold pmBuild at h
  split_ifs at h with hlong
  have hcopy : (gcdsStrlcpy remote size).1 = remote := by
    have hlen : ¬ size ≤ remote.length := hlong
    exact List.take_of_length_le (by omega)
  rw [hcopy] at h
  exact pmBuildLoop_some h

theorem pfxMatch_some
    {cwd pfx : Bytes} {m : ℕ} (h : pfxMatch cwd pfx = some m) :
    m = pfxNormLen pfx ∧ 0 < m ∧ cwd = pfxNorm pfx ++ cwd.drop m ∧
      ∀ c ∈ (cwd.drop m).head?, c = fwdSlash := by
  unfold pfxMatch at h
  dsimp only at h
  split_ifs at h with hno
  push Not at hno
  have hfront : cwd = pfxNorm pfx ++ cwd.drop (pfxNormLen pfx) := by
    rw [pfxNorm, ← hno.2, List.take_append_drop]
  have hpos := Nat.pos_of_ne_zero hno.1
  cases hnext : cwd[pfxNormLen pfx]? with
  | none =>
      rw [hnext] at h
      obtain rfl := Option.some.inj h
      refine ⟨rfl, hpos, hfront, ?_⟩
      rw [List.head?_drop, hnext]
      simp
  | some c =>
      rw [hnext] at h
      simp only at h
      split_ifs at h with hslash
      obtain rfl := Option.some.inj h
      refine ⟨rfl, hpos, hfront, ?_⟩
      rw [List.head?_drop, hnext]
      rintro d ⟨⟩
      exact hslash

/-- The directory of a host with one entry: its prefix and the rest, which is
empty or starts with a slash. -/
theorem pmCwd_single
    {kv : List GcdsKv} {host v p r : Bytes} {size : ℕ} (hsingle : pmMaps kv host = [v])
    (h : pmCwd kv host (some p) size = .mapped r) :
    ∃ rest, rest = p.drop (pfxNormLen (pmEntry v).loc) ∧
      p = pfxNorm (pmEntry v).loc ++ rest ∧ pfxNorm (pmEntry v).loc ≠ [] ∧
      (∀ c ∈ rest.head?, c = fwdSlash) ∧
      r = (pmEntry v).remote ++
        (pmRest (pmEntry v).remote rest (pmEntry v).cwdSep).map
          (sepOf (pmEntry v).cwdSep) := by
  unfold pmCwd at h
  rw [hsingle] at h
  cases hmatch : pfxMatch p (pmEntry v).loc with
  | none => simp [pmBest, hmatch] at h
  | some m =>
      obtain ⟨rfl, hpos, hfront, hhead⟩ := pfxMatch_some hmatch
      simp only [pmBest, hmatch, Option.all_none, if_true] at h
      cases hbuild : pmBuild size (pmEntry v).remote
          (p.drop (pfxNormLen (pmEntry v).loc)) (pmEntry v).cwdSep with
      | none => simp [hbuild] at h
      | some out =>
          simp only [hbuild, PmResult.mapped.injEq] at h
          subst h
          refine ⟨_, rfl, hfront, ?_, hhead, pmBuild_some hbuild⟩
          apply List.ne_nil_of_length_pos
          rw [pfxNorm_length]
          exact hpos

/-! ## Back -/

theorem pmFind_front
    {e : PmEntry} (hremote : e.remote ≠ []) (rest : Bytes) :
    pmFind [e] (e.remote ++ rest) = some e := by
  have hpos := List.length_pos_of_ne_nil hremote
  simp [pmFind, atMatch_front, hpos]

theorem pmFind_empty {e : PmEntry} (hremote : e.remote = []) (line : Bytes) :
    pmFind [e] line = none := by
  have hmatch : atMatch (e.sep = backslash) line e.remote = some 0 := by
    rw [hremote]
    cases line <;> rfl
  simp [pmFind, hmatch]

theorem atMatch_exact
    {hay needle : Bytes} {n : ℕ} (h : atMatch false hay needle = some n) :
    needle <+: hay := by
  induction needle generalizing hay n with
  | nil => exact List.nil_prefix
  | cons c needle ih =>
      cases hay with
      | nil => simp [atMatch] at h
      | cons b hay =>
          rw [atMatch] at h
          split_ifs at h with hhead
          obtain ⟨k, hk, -⟩ := Option.map_eq_some_iff.mp h
          have heq : b = c := by simpa [byteEq] using hhead
          rw [heq]
          exact List.cons_prefix_cons.mpr ⟨rfl, ih hk⟩

theorem pmSubst_empty
    {e : PmEntry} (hremote : e.remote = []) {fuel : ℕ} {line : Bytes}
    (hfuel : line.length ≤ fuel) : pmSubst [e] fuel line = line :=
  pmSubst_none hfuel fun x _ => pmFind_empty hremote x

/-- The remote prefix at the front, then the rest of the line. -/
theorem pmSubst_front
    {e : PmEntry} (hremote : e.remote ≠ []) (fuel : ℕ) (rest : Bytes) :
    pmSubst [e] (fuel + 1) (e.remote ++ rest) =
      pfxNorm e.loc ++
        if e.sep = backslash then
          (rest.takeWhile inToken).map tokenBack ++
            pmSubst [e] fuel (rest.drop (rest.takeWhile inToken).length)
        else pmSubst [e] fuel rest := by
  obtain ⟨c, remote, hcons⟩ := List.exists_cons_of_ne_nil hremote
  have hfind := pmFind_front hremote rest
  have hdrop : (e.remote ++ rest).drop e.remote.length = rest := List.drop_left
  rw [hcons, List.cons_append] at hfind hdrop ⊢
  rw [pmSubst, hfind]
  dsimp only
  rw [hcons, hdrop]

section Exact

/-! Without token conversion every occurrence of the remote prefix is
replaced. -/

variable {e : PmEntry} (hremote : e.remote ≠ []) (hsep : e.sep ≠ backslash)
include hremote hsep

theorem pmSubst_step (fuel : ℕ) (b : Byte) (line : Bytes) :
    (∃ rest, b :: line = e.remote ++ rest ∧
      pmSubst [e] (fuel + 1) (b :: line) = pfxNorm e.loc ++ pmSubst [e] fuel rest) ∨
    (¬ e.remote <+: b :: line ∧
      pmSubst [e] (fuel + 1) (b :: line) = b :: pmSubst [e] fuel line) := by
  by_cases hfront : e.remote <+: b :: line
  · obtain ⟨rest, hrest⟩ := hfront
    left
    refine ⟨rest, hrest.symm, ?_⟩
    rw [← hrest, pmSubst_front hremote, if_neg hsep]
  · right
    refine ⟨hfront, ?_⟩
    have hnone : pmFind [e] (b :: line) = none := by
      have hci : decide (e.sep = backslash) = false := decide_eq_false hsep
      cases hmatch : atMatch false (b :: line) e.remote with
      | none => simp [pmFind, hci, hmatch]
      | some n => exact absurd (atMatch_exact hmatch) hfront
    rw [pmSubst, hnone]

theorem pmSubst_length
    {fuel : ℕ} {line : Bytes} (hfuel : line.length ≤ fuel) :
    ((pfxNorm e.loc).length ≤ e.remote.length →
        (pmSubst [e] fuel line).length ≤ line.length) ∧
      (e.remote.length ≤ (pfxNorm e.loc).length →
        line.length ≤ (pmSubst [e] fuel line).length) := by
  have hpos := List.length_pos_of_ne_nil hremote
  induction fuel generalizing line with
  | zero =>
      have hnil : line = [] := List.length_eq_zero_iff.mp (by omega)
      simp [hnil, pmSubst]
  | succ fuel ih =>
      cases line with
      | nil => simp [pmSubst]
      | cons b line =>
          rcases pmSubst_step hremote hsep fuel b line with ⟨rest, hline, hsubst⟩ |
              ⟨-, hsubst⟩
          · have hlen := congrArg List.length hline
            rw [List.length_append] at hlen
            obtain ⟨hle, hge⟩ := ih (show rest.length ≤ fuel by omega)
            rw [hsubst, List.length_append]
            constructor
            · intro hshort
              have := hle hshort
              omega
            · intro hlong
              have := hge hlong
              omega
          · obtain ⟨hle, hge⟩ := ih (show line.length ≤ fuel by simpa using hfuel)
            simp only [hsubst, List.length_cons]
            exact ⟨fun h => Nat.succ_le_succ (hle h), fun h => Nat.succ_le_succ (hge h)⟩

/-- A replaced occurrence that shifts the rest by at most one byte. -/
theorem pmSubst_occurrence
    {fuel : ℕ} {rest : Bytes} (hfuel : rest.length ≤ fuel) (shift : Bytes)
    (hshift : shift.length ≤ 1)
    (h : pfxNorm e.loc ++ pmSubst [e] fuel rest = shift ++ e.remote ++ rest) :
    pfxNorm e.loc = shift ++ e.remote := by
  obtain ⟨hle, hge⟩ := pmSubst_length hremote hsep hfuel
  have hlen := congrArg List.length h
  simp only [List.length_append] at hlen
  refine (List.append_inj h ?_).1
  rw [List.length_append]
  rcases lt_trichotomy (pfxNorm e.loc).length (shift.length + e.remote.length) with
      hlt | heq | hgt
  · have := hle (by omega)
    omega
  · exact heq
  · have := hge (by omega)
    omega

theorem pmSubst_self
    {fuel : ℕ} {line : Bytes} (hfuel : line.length ≤ fuel) :
    pmSubst [e] fuel line = line ↔ pfxNorm e.loc = e.remote ∨ ¬ e.remote <:+: line := by
  have hpos := List.length_pos_of_ne_nil hremote
  induction fuel generalizing line with
  | zero =>
      have hnil : line = [] := List.length_eq_zero_iff.mp (by omega)
      subst hnil
      simp [pmSubst, hremote]
  | succ fuel ih =>
      cases line with
      | nil => simp [pmSubst, hremote]
      | cons b line =>
          rcases pmSubst_step hremote hsep fuel b line with ⟨rest, hline, hsubst⟩ |
              ⟨hno, hsubst⟩
          · have hlen := congrArg List.length hline
            rw [List.length_append] at hlen
            have hoccurs : e.remote <:+: b :: line :=
              List.IsPrefix.isInfix ⟨rest, hline.symm⟩
            rw [hsubst]
            constructor
            · intro heq
              rw [hline] at heq
              exact Or.inl (pmSubst_occurrence hremote hsep
                (show rest.length ≤ fuel by omega) [] (by simp) heq)
            · intro hsame
              have hsame := hsame.resolve_right (not_not_intro hoccurs)
              rw [hline, hsame, (ih (show rest.length ≤ fuel by omega)).mpr (Or.inl hsame)]
          · have hrest := ih (show line.length ≤ fuel by simpa using hfuel)
            rw [hsubst, List.infix_cons_iff, List.cons.injEq]
            tauto

theorem pmSubst_shifted
    {fuel : ℕ} {line : Bytes} (hfuel : line.length ≤ fuel)
    (hend : e.remote.getLast? = some fwdSlash) (c : Byte) :
    pmSubst [e] fuel line ≠ c :: line := by
  have hpos := List.length_pos_of_ne_nil hremote
  induction fuel generalizing line c with
  | zero => simp [pmSubst]
  | succ fuel ih =>
      cases line with
      | nil => simp [pmSubst]
      | cons b line =>
          rcases pmSubst_step hremote hsep fuel b line with ⟨rest, hline, hsubst⟩ |
              ⟨-, hsubst⟩
          · have hlen := congrArg List.length hline
            rw [List.length_append] at hlen
            intro heq
            rw [hsubst, hline] at heq
            exact pfxNorm_ne_cons e.loc c hend
              (pmSubst_occurrence hremote hsep (show rest.length ≤ fuel by omega) [c]
                (by simp) heq)
          · rw [hsubst]
            intro heq
            obtain ⟨-, heq⟩ := List.cons.inj heq
            exact ih (by simpa using hfuel) b heq

end Exact

/-! ## There and back -/

/-- The condition on entry and directory: there is a remote prefix, the
separator behind it is not dropped, and without token conversion the rest of
the directory does not hold the remote prefix, unless it is the local one. -/
def ComesBack (v p : Bytes) : Prop :=
  let e := pmEntry v
  let rest := p.drop (pfxNormLen e.loc)
  e.remote ≠ [] ∧
    (rest = [] ∨ e.remote.getLast? ≠ some e.cwdSep) ∧
    (e.cwdSep = backslash ∨ pfxNorm e.loc = e.remote ∨ ¬ e.remote <:+: rest)

theorem pmBackLine_single
    {kv : List GcdsKv} {host v line p : Bytes} (hsingle : pmMaps kv host = [v])
    (hp : p.length < 512) :
    pmBackLine kv host line mbLine = p ↔ pmSubst [pmEntry v] line.length line = p := by
  have hback : backMax = 2046 := rfl
  unfold pmBackLine
  rw [hsingle, if_neg (by simp)]
  simp only [List.map_cons, List.map_nil, gcdsStrlcpy]
  rw [pmBackLoop_eq _ _ _ (by simp), List.nil_append, List.take_take]
  have hmin : min (mbLine - 1) backMax = 2046 := rfl
  rw [hmin]
  constructor
  · intro heq
    have hlen := congrArg List.length heq
    rw [List.length_take] at hlen
    rw [List.take_of_length_le (by omega)] at heq
    exact heq
  · rintro heq
    rw [heq, List.take_of_length_le (by omega)]

theorem pmRest_cases
    (remote : Bytes) {rest : Bytes} (sep : Byte) (hhead : ∀ c ∈ rest.head?, c = fwdSlash) :
    (pmRest remote rest sep = rest ∧ (rest = [] ∨ remote.getLast? ≠ some sep)) ∨
      (rest = fwdSlash :: pmRest remote rest sep ∧ remote.getLast? = some sep) := by
  cases rest with
  | nil => exact Or.inl ⟨by simp [pmRest], Or.inl rfl⟩
  | cons c rest =>
      have hc : c = fwdSlash := hhead c rfl
      subst hc
      by_cases hlast : remote.getLast? = some sep
      · exact Or.inr ⟨by simp [pmRest, hlast], hlast⟩
      · exact Or.inl ⟨by simp [pmRest, hlast], Or.inr hlast⟩

theorem PmEntry.sep_eq_iff (e : PmEntry) : e.sep = backslash ↔ e.cwdSep = backslash := by
  unfold PmEntry.cwdSep
  split_ifs with hnul
  · rw [hnul]
    decide
  · rfl

/-- The bytes of a directory that the replacement of tokens keeps. -/
def PlainPath (p : Bytes) : Prop :=
  ∀ b ∈ p, b ≠ sp ∧ b ≠ tab ∧ b ≠ dquote ∧ b ≠ backslash

/-- A token with the separators of the remote system. -/
theorem token_back
    {x : Bytes} (hx : PlainPath x) :
    (x.map (sepOf backslash)).takeWhile inToken = x.map (sepOf backslash) ∧
      (x.map (sepOf backslash)).map tokenBack = x := by
  constructor
  · rw [List.takeWhile_eq_self_iff]
    intro c hc
    obtain ⟨b, hb, rfl⟩ := List.mem_map.mp hc
    obtain ⟨hsp, htab, hquote, -⟩ := hx b hb
    unfold sepOf
    split_ifs
    · rfl
    · simp [inToken, hsp, htab, hquote]
  · rw [List.map_map]
    conv_rhs => rw [← List.map_id x]
    apply List.map_congr_left
    intro b hb
    have hb := (hx b hb).2.2.2
    by_cases hslash : b = fwdSlash
    · simp [sepOf, tokenBack, hslash]
    · simp [sepOf, tokenBack, hslash, hb]

theorem map_sepOf_slash (x : Bytes) : x.map (sepOf fwdSlash) = x := by
  conv_rhs => rw [← List.map_id x]
  apply List.map_congr_left
  intro b _
  unfold sepOf
  split_ifs with hslash
  · exact hslash.symm
  · rfl

/-- What the remote directory is replaced by. -/
theorem pmSubst_mapped
    {e : PmEntry} (hremote : e.remote ≠ []) (hsep : e.cwdSep = fwdSlash ∨ e.cwdSep = backslash)
    {x : Bytes} (hx : PlainPath x) :
    pmSubst [e] (e.remote ++ x.map (sepOf e.cwdSep)).length
        (e.remote ++ x.map (sepOf e.cwdSep)) =
      pfxNorm e.loc ++
        if e.cwdSep = backslash then x
        else pmSubst [e] (e.remote.length + x.length - 1) x := by
  have hpos := List.length_pos_of_ne_nil hremote
  have hfuel : (e.remote ++ x.map (sepOf e.cwdSep)).length =
      e.remote.length + x.length - 1 + 1 := by
    rw [List.length_append, List.length_map]
    omega
  rw [hfuel, pmSubst_front hremote]
  rcases hsep with hslash | hback
  · have hne : e.cwdSep ≠ backslash := by
      rw [hslash]
      decide
    rw [if_neg (mt e.sep_eq_iff.mp hne), if_neg hne, hslash, map_sepOf_slash]
  · obtain ⟨htoken, hconv⟩ := token_back hx
    rw [if_pos (e.sep_eq_iff.mpr hback), if_pos hback, hback, htoken, hconv,
      List.drop_length]
    cases e.remote.length + x.length - 1 <;> simp [pmSubst]

/-- The line that consists of the remote directory is rewritten to the local
one if and only if entry and directory come back. -/
theorem pm_round_trip_iff
    (file host v p r : Bytes)
    (hsingle : pmMaps (confLoad file confEntMax) host = [v])
    (hsep : (pmEntry v).cwdSep = fwdSlash ∨ (pmEntry v).cwdSep = backslash)
    (hlen : p.length < 512) (hplain : PlainPath p)
    (hmapped : pmCwd (confLoad file confEntMax) host (some p) confValMax = .mapped r) :
    pmBackLine (confLoad file confEntMax) host r mbLine = p ↔ ComesBack v p := by
  rw [pmBackLine_single hsingle hlen]
  obtain ⟨rest, hrest, hfront, hloc, hhead, rfl⟩ := pmCwd_single hsingle hmapped
  unfold ComesBack
  dsimp only
  rw [← hrest]
  generalize pmEntry v = e at *
  by_cases hremote : e.remote = []
  · -- Nothing is replaced, and the local prefix is missing.
    rw [pmSubst_empty hremote le_rfl]
    refine iff_of_false ?_ (fun h => h.1 hremote)
    intro heq
    have hnodrop : pmRest e.remote rest e.cwdSep = rest := by
      simp [pmRest, hremote]
    have hsize := congrArg List.length heq
    rw [hnodrop, hremote, hfront, List.nil_append, List.length_map,
      List.length_append] at hsize
    exact hloc (List.length_eq_zero_iff.mp (by omega))
  · have hplainrest : PlainPath rest := fun b hb => hplain b (by
      rw [hfront]
      exact List.mem_append_right _ hb)
    rcases pmRest_cases e.remote e.cwdSep hhead with ⟨hkept, hjunction⟩ |
        ⟨hdropped, hend⟩
    · rw [hkept, pmSubst_mapped hremote hsep hplainrest]
      conv_lhs => rw [hfront]
      rw [List.append_cancel_left_eq]
      split_ifs with hback
      · exact iff_of_true rfl ⟨hremote, hjunction, Or.inl hback⟩
      · rw [pmSubst_self hremote (fun h => hback (e.sep_eq_iff.mp h)) (by
          have := List.length_pos_of_ne_nil hremote
          omega)]
        tauto
    · have hplainx : PlainPath (pmRest e.remote rest e.cwdSep) := fun b hb =>
        hplainrest b (by
          rw [hdropped]
          exact List.mem_cons_of_mem _ hb)
      have hne : rest ≠ [] := by
        rw [hdropped]
        simp
      refine iff_of_false ?_ (fun h => h.2.1.elim hne fun hlast => hlast hend)
      rw [pmSubst_mapped hremote hsep hplainx]
      intro heq
      rw [hfront, List.append_cancel_left_eq] at heq
      generalize pmRest e.remote rest e.cwdSep = x at hdropped heq
      rw [hdropped] at heq
      split_ifs at heq with hback
      · -- The token comes back one byte short.
        have hsize := congrArg List.length heq
        rw [List.length_cons] at hsize
        omega
      · have hslash := hsep.resolve_right hback
        rw [hslash] at hend
        exact pmSubst_shifted hremote (fun h => hback (e.sep_eq_iff.mp h)) (by
          have := List.length_pos_of_ne_nil hremote
          omega) hend fwdSlash heq

/-- A directory below a mapped drive path. -/
theorem pm_round_trip_drive :
    pmCwd (confLoad (ascii "host.h.map.1 = /l/|Z:\\proj\n") confEntMax) (ascii "h")
        (some (ascii "/l/src")) confValMax = .mapped (ascii "Z:\\proj\\src") ∧
      pmBackLine (confLoad (ascii "host.h.map.1 = /l/|Z:\\proj\n") confEntMax) (ascii "h")
        (ascii "Z:\\proj\\src") mbLine = ascii "/l/src" := by
  have hmapped : pmCwd (confLoad (ascii "host.h.map.1 = /l/|Z:\\proj\n") confEntMax)
      (ascii "h") (some (ascii "/l/src")) confValMax =
        .mapped (ascii "Z:\\proj\\src") := by decide +kernel
  refine ⟨hmapped, (pm_round_trip_iff _ _ (ascii "/l/|Z:\\proj") _ _ (by decide +kernel)
    (by decide) (by decide) ?_ hmapped).mpr ?_⟩
  · have hall : ((ascii "/l/src").all fun b =>
        decide (b ≠ sp ∧ b ≠ tab ∧ b ≠ dquote ∧ b ≠ backslash)) = true := by decide
    exact fun b hb => of_decide_eq_true (List.all_eq_true.mp hall b hb)
  · refine ⟨by decide, Or.inr (by decide), Or.inl (by decide)⟩

/-- The root of a drive ends with the separator: the one behind the local
prefix is lost on the way back. -/
theorem pm_round_trip_loses_separator :
    pmMaps (confLoad (ascii "host.h.map.1 = /l|Z:\\\n") confEntMax) (ascii "h") =
        [ascii "/l|Z:\\"] ∧
      pmCwd (confLoad (ascii "host.h.map.1 = /l|Z:\\\n") confEntMax) (ascii "h")
        (some (ascii "/l/src")) confValMax = .mapped (ascii "Z:\\src") ∧
      pmBackLine (confLoad (ascii "host.h.map.1 = /l|Z:\\\n") confEntMax) (ascii "h")
        (ascii "Z:\\src") mbLine = ascii "/lsrc" ∧
      ascii "/lsrc" ≠ ascii "/l/src" := by
  decide +kernel

end GrandCross
