import GrandCross.PathBack
import GrandCross.PathComponents

/-!
# The mapping of the working directory

What the mapping rules say about a working directory given by its
components, and when `pm_cwd` does it.  An entry for the root is not found
above other directories, and a directory that does not fit the buffer of
`getcwd` is not mapped at all.
-/

namespace GrandCross

open CText

/-! ## The mapping rules -/

/-- The prefix without its trailing slashes; the root stays. -/
def stripSlashes (loc : Bytes) : Bytes :=
  let p := loc.rdropWhile (· = fwdSlash)
  if p = [] then loc.take 1 else p

/-- The prefix is the directory of the first `k` components. -/
def Covers (loc : Bytes) (comps : List Bytes) (k : ℕ) : Prop :=
  k ≤ comps.length ∧ stripSlashes loc = Comps.text fwdSlash (comps.take k)

/-- The remote prefix, one separator, and the components behind the first
`k`. -/
def PmEntry.remoteDir (e : PmEntry) (comps : List Bytes) (k : ℕ) : Bytes :=
  if comps.drop k = [] then e.remote
  else
    e.remote ++ (if e.remote.getLast? = some e.cwdSep then [] else [e.cwdSep]) ++
      [e.cwdSep].intercalate (comps.drop k)

/-- `e` covers the directory, no entry with a longer prefix does, and no
earlier one with an equally long prefix. -/
structure Longest (maps : List PmEntry) (comps : List Bytes) (e : PmEntry) (k : ℕ) :
    Prop where
  covers : Covers e.loc comps k
  longest : ∀ e' ∈ maps, ∀ j, Covers e'.loc comps j →
    (stripSlashes e'.loc).length ≤ (stripSlashes e.loc).length
  first : ∃ before behind, maps = before ++ e :: behind ∧
    ∀ e' ∈ before, ∀ j, Covers e'.loc comps j →
      (stripSlashes e'.loc).length < (stripSlashes e.loc).length

/-- The result that the rules ask for. -/
inductive CwdMapped (maps : List PmEntry) (comps : List Bytes) (size : ℕ) :
    PmResult → Prop where
  | unmapped (h : ∀ e ∈ maps, ∀ k, ¬ Covers e.loc comps k) :
      CwdMapped maps comps size .unmapped
  | mapped (e : PmEntry) (k : ℕ) (h : Longest maps comps e k)
      (hfits : (e.remoteDir comps k).length < size) :
      CwdMapped maps comps size (.mapped (e.remoteDir comps k))
  | overflow (e : PmEntry) (k : ℕ) (h : Longest maps comps e k)
      (hfits : size ≤ (e.remoteDir comps k).length) :
      CwdMapped maps comps size .overflow

/-- `getcwd` into a buffer of 512 bytes. -/
def getcwd (comps : List Bytes) : Option Bytes :=
  let dir := Comps.text fwdSlash comps
  if dir.length < 512 then some dir else none

/-- No entry covers the directory, or the directory fits the buffer and,
unless it is the root, an entry other than the root's covers it. -/
def CwdReached (maps : List PmEntry) (comps : List Bytes) : Prop :=
  (∀ e ∈ maps, ∀ k, ¬ Covers e.loc comps k) ∨
    (Comps.text fwdSlash comps).length < 512 ∧
      (comps = [] ∨ ∃ e ∈ maps, ∃ k, 0 < k ∧ Covers e.loc comps k)

/-! ## Prefixes -/

theorem stripSlashes_slash {loc : Bytes} (h : loc ≠ []) :
    stripSlashes (loc ++ [fwdSlash]) = stripSlashes loc := by
  unfold stripSlashes
  rw [List.rdropWhile_concat_pos _ _ _ (by simp)]
  dsimp only
  rw [List.take_append_of_le_length (List.length_pos_of_ne_nil h)]

theorem stripSlashes_other (loc : Bytes) {b : Byte} (hb : b ≠ fwdSlash) :
    stripSlashes (loc ++ [b]) = loc ++ [b] := by
  unfold stripSlashes
  rw [List.rdropWhile_concat_neg _ _ _ (by simpa using hb)]
  simp

theorem stripSlashes_single (b : Byte) : stripSlashes [b] = [b] := by
  by_cases hb : b = fwdSlash
  · rw [hb]
    rfl
  · exact stripSlashes_other [] hb

theorem pfxTrim_take (pfx : Bytes) {n : ℕ} (hn : n ≤ pfx.length) :
    pfx.take (pfxTrim pfx n) = stripSlashes (pfx.take n) := by
  induction n using Nat.strong_induction_on with
  | _ n ih =>
      match n with
      | 0 => rfl
      | 1 =>
          obtain ⟨b, rest, rfl⟩ := List.exists_cons_of_length_pos (show 0 < pfx.length by omega)
          exact (stripSlashes_single b).symm
      | n + 2 =>
          have htake : pfx.take (n + 2) = pfx.take (n + 1) ++ [pfx[n + 1]] := by
            rw [List.take_succ_eq_append_getElem]
          have hne : pfx.take (n + 1) ≠ [] := by
            apply List.ne_nil_of_length_pos
            rw [List.length_take]
            omega
          rw [pfxTrim, List.getElem?_eq_getElem (by omega)]
          simp only [Option.some.injEq]
          split_ifs with hslash
          · rw [ih (n + 1) (by omega) (by omega), htake, hslash, stripSlashes_slash hne]
          · rw [htake, stripSlashes_other _ hslash]

theorem pfxNorm_eq_strip (pfx : Bytes) : pfxNorm pfx = stripSlashes pfx := by
  have h := pfxTrim_take pfx (le_refl pfx.length)
  rwa [List.take_length] at h

theorem pfxMatch_front
    {loc rest : Bytes} (hne : stripSlashes loc ≠ [])
    (hrest : ∀ c ∈ rest.head?, c = fwdSlash) :
    pfxMatch (stripSlashes loc ++ rest) loc = some (stripSlashes loc).length := by
  have hlen : pfxNormLen loc = (stripSlashes loc).length := by
    rw [← pfxNorm_eq_strip, pfxNorm_length]
  have hfront : loc.take (stripSlashes loc).length = stripSlashes loc := by
    rw [← hlen]
    exact pfxNorm_eq_strip loc
  have hpos := List.length_pos_of_ne_nil hne
  unfold pfxMatch
  dsimp only
  rw [hlen, List.take_left, hfront, if_neg (by simp [hpos.ne'])]
  rw [List.getElem?_append_right le_rfl, Nat.sub_self, ← List.head?_eq_getElem?]
  cases hhead : rest.head? with
  | none => rfl
  | some c =>
      dsimp only
      rw [if_pos (hrest c (by simp [hhead]))]

section Directory

variable {comps : List Bytes} (hdir : Comps.Ok fwdSlash comps)
include hdir

/-- `pfx_match` finds the entries that cover the directory, but the root only
in the root itself. -/
theorem pfxMatch_iff (loc : Bytes) (m : ℕ) :
    pfxMatch (Comps.text fwdSlash comps) loc = some m ↔
      m = (stripSlashes loc).length ∧
        ∃ k, Covers loc comps k ∧ (comps = [] ∨ 0 < k) := by
  constructor
  · intro h
    obtain ⟨rfl, hpos, hfront, hhead⟩ := pfxMatch_some h
    have hlen : pfxNormLen loc = (stripSlashes loc).length := by
      rw [← pfxNorm_eq_strip, pfxNorm_length]
    rw [pfxNorm_eq_strip] at hfront
    refine ⟨hlen, ?_⟩
    by_cases hroot : comps = []
    · refine ⟨0, ⟨Nat.zero_le _, ?_⟩, .inl hroot⟩
      subst hroot
      have hone := congrArg List.length hfront
      rw [List.length_append] at hone
      have htext : (Comps.text fwdSlash ([] : List Bytes)).length = 1 := rfl
      have hrest : (Comps.text fwdSlash ([] : List Bytes)).drop (pfxNormLen loc) = [] := by
        apply List.eq_nil_of_length_eq_zero
        omega
      rw [hrest, List.append_nil] at hfront
      exact hfront.symm
    · rw [Comps.text_of_ne_nil _ hroot] at hfront hhead
      obtain ⟨k, hk, hp, -⟩ := Comps.joined_prefix hdir hfront.symm hhead
      have hzero : k ≠ 0 := by
        rintro rfl
        rw [List.take_zero, Comps.joined_nil] at hp
        rw [hlen, hp] at hpos
        exact absurd hpos (by simp)
      refine ⟨k, ⟨hk, ?_⟩, .inr (Nat.pos_of_ne_zero hzero)⟩
      rw [hp, Comps.text_of_ne_nil]
      simp [hzero, hroot]
  · rintro ⟨rfl, k, ⟨hk, hstrip⟩, hreach⟩
    rcases hreach with rfl | hpos
    · have hk0 : k = 0 := by simpa using hk
      subst hk0
      have hroot : stripSlashes loc = Comps.text fwdSlash [] := hstrip
      have hself : pfxMatch (stripSlashes loc ++ []) loc =
          some (stripSlashes loc).length :=
        pfxMatch_front (by rw [hroot]; simp [Comps.text]) (by simp)
      rw [List.append_nil] at hself
      rwa [← hroot]
    · have hne : comps ≠ [] := by
        rintro rfl
        simp at hk
        omega
      have htake : comps.take k ≠ [] := by simp [hne, hpos.ne']
      rw [Comps.text_of_ne_nil _ htake] at hstrip
      rw [Comps.text_of_ne_nil _ hne, ← Comps.joined_take_drop fwdSlash comps k, ← hstrip]
      refine pfxMatch_front ?_ (Comps.head?_joined _ _)
      rw [hstrip]
      exact fun hnil => htake (Comps.joined_eq_nil.mp hnil)

end Directory

/-! ## The longest match -/

/-- The best of a list of entries: a longest match, and the first of them. -/
structure Best (cwd : Bytes) (vs : List Bytes) (m : ℕ) (v : Bytes) : Prop where
  hit : pfxMatch cwd (pmEntry v).loc = some m
  longest : ∀ v' ∈ vs, ∀ m', pfxMatch cwd (pmEntry v').loc = some m' → m' ≤ m
  first : ∃ before behind, vs = before ++ v :: behind ∧
    ∀ v' ∈ before, ∀ m', pfxMatch cwd (pmEntry v').loc = some m' → m' < m

theorem pmBest_none_iff (cwd : Bytes) (vs : List Bytes) :
    pmBest cwd vs none = none ↔ ∀ v ∈ vs, pfxMatch cwd (pmEntry v).loc = none := by
  have hsome : ∀ (vs : List Bytes) b, pmBest cwd vs (some b) ≠ none := by
    intro vs
    induction vs with
    | nil => simp [pmBest]
    | cons v vs ih =>
        intro b
        rw [pmBest]
        split
        · exact ih b
        · split_ifs
          · exact ih _
          · exact ih b
  induction vs with
  | nil => simp [pmBest]
  | cons v vs ih =>
      rw [pmBest]
      cases hmatch : pfxMatch cwd (pmEntry v).loc with
      | none => simp [hmatch, ih]
      | some m =>
          simp only [Option.all_none, if_true, List.mem_cons, forall_eq_or_imp, hmatch,
            reduceCtorEq, false_and, iff_false]
          exact hsome vs _

theorem Best.cons
    {cwd : Bytes} {vs : List Bytes} {m : ℕ} {v w : Bytes} (h : Best cwd vs m v)
    (hw : ∀ n, pfxMatch cwd (pmEntry w).loc = some n → n < m) :
    Best cwd (w :: vs) m v := by
  obtain ⟨before, behind, rfl, hbefore⟩ := h.first
  refine ⟨h.hit, ?_, w :: before, behind, rfl, ?_⟩
  · intro v' hv' n hn
    rcases List.mem_cons.mp hv' with rfl | hmem
    · exact (hw n hn).le
    · exact h.longest v' hmem n hn
  · intro v' hv' n hn
    rcases List.mem_cons.mp hv' with rfl | hmem
    · exact hw n hn
    · exact hbefore v' hmem n hn

theorem best_head
    {cwd : Bytes} {vs : List Bytes} {m : ℕ} {w : Bytes}
    (hit : pfxMatch cwd (pmEntry w).loc = some m)
    (h : ∀ v' ∈ vs, ∀ m', pfxMatch cwd (pmEntry v').loc = some m' → m' ≤ m) :
    Best cwd (w :: vs) m w := by
  refine ⟨hit, ?_, [], vs, rfl, by simp⟩
  intro v' hv' n hn
  rcases List.mem_cons.mp hv' with rfl | hmem
  · rw [hit, Option.some.injEq] at hn
    exact hn.ge
  · exact h v' hmem n hn

/-- The scan from a best match so far: it stays, or a longer one is found. -/
theorem pmBest_some
    {cwd : Bytes} {vs : List Bytes} {best : Option (ℕ × Bytes)} {m : ℕ} {v : Bytes}
    (h : pmBest cwd vs best = some (m, v)) :
    (best = some (m, v) ∧
        ∀ v' ∈ vs, ∀ m', pfxMatch cwd (pmEntry v').loc = some m' → m' ≤ m) ∨
      (∀ b ∈ best, b.1 < m) ∧ Best cwd vs m v := by
  induction vs generalizing best with
  | nil => exact .inl ⟨h, by simp⟩
  | cons w vs ih =>
      rw [pmBest] at h
      cases hmatch : pfxMatch cwd (pmEntry w).loc with
      | none =>
          rw [hmatch] at h
          rcases ih h with ⟨hsame, hle⟩ | ⟨hlt, hbest⟩
          · exact .inl ⟨hsame, by simpa [hmatch] using hle⟩
          · exact .inr ⟨hlt, hbest.cons (by simp [hmatch])⟩
      | some n =>
          rw [hmatch] at h
          dsimp only at h
          split_ifs at h with hlonger
          · right
            rw [Option.all_eq_true] at hlonger
            rcases ih h with ⟨hsame, hle⟩ | ⟨hlt, hbest⟩
            · obtain ⟨rfl, rfl⟩ := Prod.mk.inj (Option.some.inj hsame)
              exact ⟨by simpa using hlonger, best_head hmatch hle⟩
            · have hn : n < m := hlt _ rfl
              refine ⟨?_, hbest.cons (by simpa [hmatch] using hn)⟩
              intro b hb
              have hbn : b.1 < n := by simpa using hlonger b hb
              omega
          · obtain ⟨b, hb, hnot⟩ : ∃ b ∈ best, n ≤ b.1 := by
              simpa [Option.all_eq_true] using hlonger
            rcases ih h with ⟨hsame, hle⟩ | ⟨hlt, hbest⟩
            · left
              refine ⟨hsame, ?_⟩
              rw [hsame, Option.mem_some_iff] at hb
              subst hb
              intro v' hv' m' hm'
              rcases List.mem_cons.mp hv' with rfl | hmem
              · rw [hmatch, Option.some.injEq] at hm'
                omega
              · exact hle v' hmem m' hm'
            · right
              have hbm := hlt b hb
              exact ⟨hlt, hbest.cons (by simpa [hmatch] using (by omega : n < m))⟩

/-! ## The remote directory -/

theorem pmBuildLoop_eq
    {size : ℕ} (sep : Byte) (rest : Bytes) {out : Bytes} (hout : out.length < size) :
    pmBuildLoop size sep out rest =
      if (out ++ rest.map (sepOf sep)).length < size then
        some (out ++ rest.map (sepOf sep))
      else none := by
  induction rest generalizing out with
  | nil => simp [pmBuildLoop, hout]
  | cons b rest ih =>
      have hshift : out ++ [if b = fwdSlash then sep else b] ++ rest.map (sepOf sep) =
          out ++ (b :: rest).map (sepOf sep) := by
        simp [sepOf]
      rw [pmBuildLoop]
      by_cases hfull : size - 1 ≤ out.length
      · rw [if_pos hfull, if_neg]
        rw [List.length_append, List.length_map, List.length_cons]
        omega
      · rw [if_neg hfull, ih (by rw [List.length_append, List.length_singleton]; omega),
          hshift]

theorem pmBuild_eq (size : ℕ) (remote rest : Bytes) (sep : Byte) :
    pmBuild size remote rest sep =
      if (remote ++ (pmRest remote rest sep).map (sepOf sep)).length < size then
        some (remote ++ (pmRest remote rest sep).map (sepOf sep))
      else none := by
  unfold pmBuild
  split_ifs with hlong hfits hfits
  · have hlen : size ≤ remote.length := hlong
    rw [List.length_append] at hfits
    omega
  · rfl
  all_goals
    have hlen : ¬ size ≤ remote.length := hlong
    have hcopy : (gcdsStrlcpy remote size).1 = remote := List.take_of_length_le (by omega)
    dsimp only
    rw [hcopy, pmBuildLoop_eq sep _ (by omega)]
  · exact if_pos hfits
  · exact if_neg hfits

theorem pmBuild_remoteDir
    {comps : List Bytes} (hdir : Comps.Ok fwdSlash comps) (e : PmEntry) (k size : ℕ) :
    pmBuild size e.remote (Comps.joined fwdSlash (comps.drop k)) e.cwdSep =
      if (e.remoteDir comps k).length < size then some (e.remoteDir comps k) else none := by
  have hbelow : Comps.Ok fwdSlash (comps.drop k) := fun c hc =>
    hdir c (List.mem_of_mem_drop hc)
  have hself : sepOf e.cwdSep fwdSlash = e.cwdSep := if_pos rfl
  have hmap : (Comps.joined fwdSlash (comps.drop k)).map (sepOf e.cwdSep) =
      Comps.joined e.cwdSep (comps.drop k) := by
    have hmap := Comps.joined_map (f := sepOf e.cwdSep) hbelow fun a ha => if_neg ha
    rwa [hself] at hmap
  have hdir : e.remote ++ (pmRest e.remote (Comps.joined fwdSlash (comps.drop k))
      e.cwdSep).map (sepOf e.cwdSep) = e.remoteDir comps k := by
    unfold pmRest PmEntry.remoteDir
    cases hrest : comps.drop k with
    | nil => simp
    | cons c rest =>
        rw [hrest] at hmap
        rw [if_neg (List.cons_ne_nil _ _)]
        split_ifs with hdrop hlast hlast
        · rw [List.map_drop, hmap, Comps.joined_drop_one]
          simp
        · exact absurd hdrop.2 hlast
        · exact absurd ⟨by simp, hlast⟩ hdrop
        · rw [hmap, List.append_assoc, ← Comps.joined_drop_one]
          simp
  rw [pmBuild_eq, hdir]

/-! ## The mapping -/

section Mapping

variable {kv : List GcdsKv} {host : Bytes} {comps : List Bytes}
  (hdir : Comps.Ok fwdSlash comps)

/-- A prefix that covers is at least as long as the root's, and longer when it
is not the root's. -/
theorem Covers.length_pos
    {loc : Bytes} {k : ℕ} (hdir : Comps.Ok fwdSlash comps) (h : Covers loc comps k)
    (hk : 0 < k) : 1 < (stripSlashes loc).length := by
  have hne : comps.take k ≠ [] := by
    intro hnil
    have hlen := h.1
    rcases List.take_eq_nil_iff.mp hnil with h0 | rfl
    · omega
    · simp at hlen
      omega
  rw [h.2, Comps.text_of_ne_nil _ hne]
  exact Comps.length_joined_of_cons (fun c hc => hdir c (List.mem_of_mem_take hc)) hne

theorem Covers.length_root
    {loc : Bytes} (h : Covers loc comps 0) : (stripSlashes loc).length = 1 := by
  rw [h.2]
  rfl

include hdir

/-- The scan finds nothing where no entry covers the directory, the root's left
aside in other directories. -/
theorem pmBest_unseen_iff :
    pmBest (Comps.text fwdSlash comps) (pmMaps kv host) none = none ↔
      ∀ e ∈ (pmMaps kv host).map pmEntry, ∀ k, (comps = [] ∨ 0 < k) →
        ¬ Covers e.loc comps k := by
  rw [pmBest_none_iff]
  constructor
  · intro hnone e he k hk hcovers
    obtain ⟨v, hv, rfl⟩ := List.mem_map.mp he
    have hm := (pfxMatch_iff hdir _ _).mpr ⟨rfl, k, hcovers, hk⟩
    rw [hnone v hv] at hm
    cases hm
  · intro hunseen v hv
    by_contra hsome
    obtain ⟨m, hm⟩ := Option.ne_none_iff_exists'.mp hsome
    obtain ⟨-, k, hcovers, hk⟩ := (pfxMatch_iff hdir _ _).mp hm
    exact hunseen _ (List.mem_map_of_mem hv) k hk hcovers

theorem unmapped_of_not_reached
    (h : ¬ CwdReached ((pmMaps kv host).map pmEntry) comps) (size : ℕ) :
    pmCwd kv host (getcwd comps) size = .unmapped := by
  unfold CwdReached at h
  push Not at h
  unfold pmCwd getcwd
  dsimp only
  split_ifs with hshort
  · obtain ⟨hroot, hnone⟩ := h.2 hshort
    have hbest : pmBest (Comps.text fwdSlash comps) (pmMaps kv host) none = none :=
      (pmBest_unseen_iff hdir).mpr fun e he k hk =>
        hnone e he k (hk.resolve_left hroot)
    dsimp only
    rw [hbest]
  · rfl

/-- What the scan finds is a longest entry. -/
theorem longest_of_best
    {m : ℕ} {v : Bytes}
    (h : Best (Comps.text fwdSlash comps) (pmMaps kv host) m v) :
    ∃ k, Longest ((pmMaps kv host).map pmEntry) comps (pmEntry v) k ∧
      (Comps.text fwdSlash comps).drop m = Comps.joined fwdSlash (comps.drop k) := by
  obtain ⟨hm, k, hcovers, hk⟩ := (pfxMatch_iff hdir _ _).mp h.hit
  -- an entry that the scan does not see is the root's, above another directory
  have hunseen : ∀ e' : PmEntry, ∀ j, Covers e'.loc comps j →
      pfxMatch (Comps.text fwdSlash comps) e'.loc =
          some (stripSlashes e'.loc).length ∨
        (stripSlashes e'.loc).length < m := by
    intro e' j hj
    by_cases hseen : comps = [] ∨ 0 < j
    · exact .inl ((pfxMatch_iff hdir _ _).mpr ⟨rfl, j, hj, hseen⟩)
    · push Not at hseen
      obtain rfl : j = 0 := by omega
      right
      have hlong := hcovers.length_pos hdir (hk.resolve_left hseen.1)
      rw [hj.length_root, hm]
      exact hlong
  obtain ⟨before, behind, hmaps, hbefore⟩ := h.first
  refine ⟨k, ⟨hcovers, ?_, before.map pmEntry, behind.map pmEntry, ?_, ?_⟩, ?_⟩
  · intro e' he' j hj
    obtain ⟨v', hv', rfl⟩ := List.mem_map.mp he'
    rw [← hm]
    rcases hunseen _ j hj with hseen | hshort
    · exact h.longest v' hv' _ hseen
    · exact hshort.le
  · simp [hmaps]
  · intro e' he' j hj
    obtain ⟨v', hv', rfl⟩ := List.mem_map.mp he'
    rw [← hm]
    rcases hunseen _ j hj with hseen | hshort
    · exact hbefore v' hv' _ hseen
    · exact hshort
  · rw [hm, hcovers.2]
    by_cases hroot : comps = []
    · subst hroot
      simp [Comps.text]
    · have htake : comps.take k ≠ [] := by
        simp [hroot, (hk.resolve_left hroot).ne']
      rw [Comps.text_of_ne_nil _ hroot, Comps.text_of_ne_nil _ htake,
        ← Comps.joined_take_drop fwdSlash comps k, List.drop_left]

/-- `pm_cwd` does what the mapping rules say exactly where the mapping is
reached: the directory fits the buffer of `getcwd`, and the longest entry that
covers it is not the root's, or it is the root. -/
theorem pm_cwd_rules_iff (kv : List GcdsKv) (host : Bytes) (size : ℕ) :
    CwdMapped ((pmMaps kv host).map pmEntry) comps size
        (pmCwd kv host (getcwd comps) size) ↔
      CwdReached ((pmMaps kv host).map pmEntry) comps := by
  constructor
  · intro hmapped
    by_contra hreach
    rw [unmapped_of_not_reached hdir hreach] at hmapped
    cases hmapped with
    | unmapped hnone => exact hreach (.inl hnone)
  · intro hreach
    unfold pmCwd
    rcases hreach with hcover | ⟨hshort, hreach⟩
    · unfold getcwd
      dsimp only
      split_ifs
      · dsimp only
        rw [(pmBest_unseen_iff hdir).mpr fun e he k _ => hcover e he k]
        exact .unmapped hcover
      · exact .unmapped hcover
    · have hgetcwd : getcwd comps = some (Comps.text fwdSlash comps) := if_pos hshort
      rw [hgetcwd]
      dsimp only
      cases hbest : pmBest (Comps.text fwdSlash comps) (pmMaps kv host) none with
      | none =>
          have hunseen := (pmBest_unseen_iff hdir).mp hbest
          rcases hreach with hroot | ⟨e, he, k, hk, hcovers⟩
          · exact .unmapped fun e he k => hunseen e he k (.inl hroot)
          · exact absurd hcovers (hunseen e he k (.inr hk))
      | some best =>
          obtain ⟨m, v⟩ := best
          have hfound : Best (Comps.text fwdSlash comps) (pmMaps kv host) m v := by
            rcases pmBest_some hbest with ⟨hno, -⟩ | ⟨-, hfound⟩
            · cases hno
            · exact hfound
          obtain ⟨k, hlongest, hdrop⟩ := longest_of_best hdir hfound
          dsimp only
          rw [hdrop, pmBuild_remoteDir hdir]
          by_cases hfits : ((pmEntry v).remoteDir comps k).length < size
          · rw [if_pos hfits]
            exact .mapped _ k hlongest hfits
          · rw [if_neg hfits]
            exact .overflow _ k hlongest (by omega)

end Mapping

def nestedConf : List GcdsKv :=
  [⟨ascii "host.h.map.1", ascii "/|Z:"⟩, ⟨ascii "host.h.map.2", ascii "/a/|R:/x"⟩,
    ⟨ascii "host.h.map.3", ascii "/a/b|S:\\y\\"⟩, ⟨ascii "host.h.map.4", ascii "/a/bc|T:"⟩]

/-- Three entries cover `/a/b/c/d`; the longest of them maps it. -/
theorem pm_cwd_rules_nested :
    CwdMapped ((pmMaps nestedConf (ascii "h")).map pmEntry)
        [ascii "a", ascii "b", ascii "c", ascii "d"] 256
        (pmCwd nestedConf (ascii "h") (getcwd [ascii "a", ascii "b", ascii "c", ascii "d"]) 256) ∧
      pmCwd nestedConf (ascii "h") (getcwd [ascii "a", ascii "b", ascii "c", ascii "d"]) 256 =
        .mapped (ascii "S:\\y\\c\\d") := by
  have hdir : Comps.Ok fwdSlash [ascii "a", ascii "b", ascii "c", ascii "d"] := by
    unfold Comps.Ok
    decide
  have hentry : pmEntry (ascii "/a/b|S:\\y\\") ∈
      (pmMaps nestedConf (ascii "h")).map pmEntry := by
    decide +kernel
  have hcovers : Covers (pmEntry (ascii "/a/b|S:\\y\\")).loc
      [ascii "a", ascii "b", ascii "c", ascii "d"] 2 :=
    ⟨by decide, by decide +kernel⟩
  exact ⟨(pm_cwd_rules_iff hdir nestedConf (ascii "h") 256).mpr
    (.inr ⟨by decide, .inr ⟨_, hentry, 2, by decide, hcovers⟩⟩), by decide +kernel⟩

def rootConf : List GcdsKv := [⟨ascii "host.h.map.1", ascii "/|Z:"⟩]

/-- In `/home` the same entry is not found. -/
theorem pm_cwd_misses_root :
    ¬ CwdMapped ((pmMaps rootConf (ascii "h")).map pmEntry) [ascii "home"] 256
      (pmCwd rootConf (ascii "h") (getcwd [ascii "home"]) 256) := by
  have hunmapped : pmCwd rootConf (ascii "h") (getcwd [ascii "home"]) 256 = .unmapped := by
    decide +kernel
  have hentry : ⟨ascii "/", ascii "Z:", none⟩ ∈
      (pmMaps rootConf (ascii "h")).map pmEntry := by
    decide +kernel
  rw [hunmapped]
  intro hmapped
  cases hmapped with
  | unmapped hnone => exact hnone _ hentry 0 ⟨Nat.zero_le _, by decide +kernel⟩

end GrandCross
