import GrandCross.DupCache
import GrandCross.ExportPaths

/-!
# Handles across a restart

A handle of an earlier server run is resolved by its index and verifier if
the new table happens to hold a path with that verifier there, and by hash
otherwise.  The search by hash finds the right path or none, but for the root
`/`, below which LOOKUP and the walk spell paths in two ways; the index finds
the right path exactly when no other path with the same verifier stands at
it.
-/

namespace GrandCross

open CText EarlyExit

/-! ## The search by hash -/

section Table

variable {root : Bytes} {t : Table}

/-- The table in step, with paths below the root only. -/
structure Good (root : Bytes) (t : Table) : Prop where
  ok : TableOk root t
  under : ∀ p ∈ t.paths, Under root p

theorem good_empty (root : Bytes) : Good root Table.empty :=
  ⟨tableOk_empty root, by simp [Table.empty]⟩

theorem Good.intern
    (hgood : Good root t) {path : Bytes} (hpath : Under root path) :
    Good root (intern root t path).2 :=
  ⟨hgood.ok.intern path, forall_mem_intern hgood.under hpath⟩

theorem Good.rebuild
    (hroot : RootOk root) (hgood : Good root t) (fs : FsView) :
    Good root (rebuild fs root t) := by
  apply rebuild_keeps (P := Good root) (D := Under root)
  · intro dir name hdir hname _ _
    exact walkChild_under hroot hdir hname
  · intro u child hchild hu
    exact hu.intern hchild
  · exact under_root root
  · intro hu
    exact ⟨⟨hu.ok.nodup, hu.ok.hi_eq, hu.ok.lo_eq, hu.ok.room⟩, hu.under⟩
  · exact hgood

theorem Good.fhToPath
    (hroot : RootOk root) (hgood : Good root t) (fs : FsView) (fh : Bytes) :
    Good root (fhToPath fs root t fh).2 := by
  have htable : (GrandCross.fhToPath fs root t fh).2 = t ∨
      (GrandCross.fhToPath fs root t fh).2 = GrandCross.rebuild fs root t :=
    fhToPath_table t fh
  rcases htable with h | h
  · rw [h]
    exact hgood
  · rw [h]
    exact hgood.rebuild hroot fs

/-- The search by hash returns the path with the hash, or nothing. -/
theorem fhToPath_by_hash
    (hroot : RootOk root) (hgood : Good root t) {fs : FsView} {fh p : Bytes}
    (hneeds : NeedsSearch t fh)
    (hhash : hash64 (relpath root p) = (be32At fh 12, be32At fh 16))
    (hp : Under root p)
    (hinj : ∀ q ∈ (fhToPath fs root t fh).2.paths,
      hash64 (relpath root q) = hash64 (relpath root p) →
        relpath root q = relpath root p) {q : Bytes}
    (hres : (fhToPath fs root t fh).1 = some q) : q = p := by
  have hmem := fhToPath_mem hroot.ne_nil hgood.ok hres
  have hunder := (hgood.fhToPath hroot fs fh).under q hmem
  have hsame : hash64 (relpath root q) = hash64 (relpath root p) := by
    rw [hhash]
    rw [fhToPath_search hroot.ne_nil hneeds] at hres
    cases hfind : findHash t (be32At fh 12) (be32At fh 16) with
    | some path =>
        simp only [hfind, Option.some.injEq] at hres
        subst hres
        exact (findHash_some hgood.ok hfind).2
    | none =>
        simp only [hfind] at hres
        split_ifs at hres
        exact (findHash_some hgood.ok.rebuild.1 hres).2
  exact hunder.eq_of_relpath hroot.ne_nil hp (hinj q hmem hsame)

end Table

/-! ## The first spelling of a path -/

section Spelling

variable {root : Bytes} {fs : FsView}

theorem find?_intern (P : Bytes → Bool) (t : Table) (path : Bytes) :
    (intern root t path).2.paths.find? P =
      (t.paths.find? P).or (if P path then some path else none) := by
  by_cases hmem : path ∈ t.paths
  · rw [intern_of_mem hmem]
    by_cases hpath : P path = true
    · have hsome : (t.paths.find? P).isSome = true :=
        List.find?_isSome.mpr ⟨path, hmem, hpath⟩
      obtain ⟨q, hq⟩ := Option.isSome_iff_exists.mp hsome
      rw [hq]
      rfl
    · rw [if_neg hpath, Option.or_none]
  · rw [intern_paths_of_not_mem hmem, List.find?_append]
    congr 1
    by_cases hpath : P path = true <;> simp [hpath]

/-- The walk comes by the same paths whatever the table holds: what two tables
agree on, they agree on afterwards. -/
theorem rebuildDir_pair
    {R : Table → Table → Prop}
    (hintern : ∀ t u child, R t u → R (intern root t child).2 (intern root u child).2)
    (levels : ℕ) (dir : Bytes) {t u : Table} (h : R t u) :
    R (rebuildDir fs root levels dir t) (rebuildDir fs root levels dir u) := by
  induction levels generalizing dir t u with
  | zero => exact h
  | succ levels ih =>
      unfold rebuildDir
      cases fs.opendir dir with
      | error e => exact h
      | ok stream =>
          dsimp only
          generalize stream.names = names
          induction names generalizing t u with
          | nil => exact h
          | cons name names ihn =>
              rw [List.foldl_cons, List.foldl_cons]
              apply ihn
              split_ifs with hdots hlong hsub
              · exact h
              · exact h
              · exact ih _ (hintern t u _ h)
              · exact hintern t u _ h

/-- The paths that a walk over the export comes by. -/
def walkPaths (fs : FsView) (root : Bytes) : List Bytes :=
  (rebuild fs root Table.empty).paths

/-- The paths of the table, and behind them those of the walk that is still to
be done. -/
def searched (fs : FsView) (root : Bytes) (t : Table) : List Bytes :=
  t.paths ++ if t.rebuilt then [] else walkPaths fs root

theorem find?_rebuild
    (hroot : root ≠ []) (P : Bytes → Bool) (t : Table) :
    (rebuild fs root t).paths.find? P = (searched fs root t).find? P := by
  unfold searched walkPaths rebuild
  by_cases hdone : t.rebuilt = true
  · rw [if_pos (.inl hdone), if_pos hdone, List.append_nil]
  · have hskip : ¬ (t.rebuilt = true ∨ root = []) := by
      rintro (h | h)
      · exact hdone h
      · exact hroot h
    have hempty : ¬ (Table.empty.rebuilt = true ∨ root = []) := by
      rintro (h | h)
      · exact Bool.false_ne_true h
      · exact hroot h
    rw [if_neg hskip, if_neg hdone, if_neg hempty, List.find?_append]
    -- both walks from the same lookup in `t` on
    apply rebuildDir_pair
      (R := fun u v => u.paths.find? P = (t.paths.find? P).or (v.paths.find? P))
    · intro u v child h
      rw [find?_intern, find?_intern, h, Option.or_assoc]
    · rw [find?_intern, find?_intern]
      rfl

/-- How the path below the root that `p` names is spelled first. -/
def firstSpelling (fs : FsView) (root : Bytes) (t : Table) (p : Bytes) : Option Bytes :=
  (searched fs root t).find? fun q => relpath root q = relpath root p

end Spelling

/-! ## The tables a server reaches -/

section Reached

variable {σ : Type} (os : Os σ) (ex : Export)

theorem tableInv_good (hroot : RootOk ex.root) :
    TableInv os ex (fun s => Good ex.root s.table) (Under ex.root) where
  root := under_root ex.root
  join _ _ _ hdir hjoin := joinChild_under hroot.ne_nil hdir hjoin
  world _ _ hs := hs
  resolve _ fh hs :=
    ⟨hs.fhToPath hroot _ fh, fun path hres =>
      (hs.fhToPath hroot _ fh).under path (fhToPath_mem hroot.ne_nil hs.ok hres)⟩
  issue _ _ hpath hs := hs.intern hpath

/-- The handle table of a server that started on `w` and served some
datagrams. -/
def tableAfter (w : σ) (dgs : List (Datagram σ)) : Table :=
  (serve (gnRoutes os ex) (Rpc.start w) dgs).srv.table

theorem tableInv_ok :
    TableInv os ex (fun s => TableOk ex.root s.table) (fun _ => True) where
  root := trivial
  join _ _ _ _ _ := trivial
  world _ _ hs := hs
  resolve _ fh hs := ⟨(hs.fhToPath fh).1, fun _ _ => trivial⟩
  issue _ path _ hs := hs.intern path

theorem tableAfter_ok (w : σ) (dgs : List (Datagram σ)) :
    TableOk ex.root (tableAfter os ex w dgs) :=
  serve_keeps (tableInv_ok os ex) (tableOk_empty ex.root) dgs

theorem tableAfter_good
    (hroot : RootOk ex.root) (w : σ) (dgs : List (Datagram σ)) :
    Good ex.root (tableAfter os ex w dgs) :=
  serve_keeps (tableInv_good os ex hroot) (good_empty ex.root) dgs

end Reached

/-! ## The same root after a restart -/

theorem fastPath_handleBytes
    (t : Table) (i : ℕ) (p : Bytes) (hi lo : ℕ) :
    fastPath t (handleBytes i p hi lo) =
      match t.paths[i % 2 ^ 32]? with
      | some q => if verifier p = verifier q then some q else none
      | none => none := by
  have hfields := handleBytes_fields i p hi lo
  unfold fastPath
  rewrite [hfields.1, hfields.2.2.1]
  rfl

section Restart

variable {root : Bytes} {t : Table} {fs : FsView} {i : ℕ} {p target : Bytes}

/-- The entry at the index settles the handle. -/
theorem fhToPath_index_hit
    {q : Bytes} (hget : t.paths[i % 2 ^ 32]? = some q)
    (hver : verifier q = verifier p) (hi lo : ℕ) :
    fhToPath fs root t (handleBytes i p hi lo) = (some q, t) := by
  apply fhToPath_fast (handleBytes_fields i p hi lo).2.1
  rw [fastPath_handleBytes, hget]
  simp [hver]

theorem handleBytes_hash (i : ℕ) (p rel : Bytes) :
    (be32At (handleBytes i p (hash64 rel).1 (hash64 rel).2) 12,
      be32At (handleBytes i p (hash64 rel).1 (hash64 rel).2) 16) = hash64 rel := by
  have hlt := hash64_lt rel
  have hfields := handleBytes_fields i p (hash64 rel).1 (hash64 rel).2
  rw [hfields.2.2.2.1, hfields.2.2.2.2, Nat.mod_eq_of_lt hlt.1,
    Nat.mod_eq_of_lt hlt.2]

theorem fastPath_index_miss
    (hmiss : ∀ q, t.paths[i % 2 ^ 32]? = some q → verifier q ≠ verifier p)
    (hi lo : ℕ) : fastPath t (handleBytes i p hi lo) = none := by
  rw [fastPath_handleBytes]
  cases hget : t.paths[i % 2 ^ 32]? with
  | none => rfl
  | some q =>
      have hne := hmiss q hget
      simp [hne.symm]

theorem needsSearch_of_miss
    (hmiss : ∀ q, t.paths[i % 2 ^ 32]? = some q → verifier q ≠ verifier p)
    {rel : Bytes} (hzero : hash64 rel ≠ (0, 0)) :
    NeedsSearch t (handleBytes i p (hash64 rel).1 (hash64 rel).2) := by
  have hhash := handleBytes_hash i p rel
  refine ⟨(handleBytes_fields i p _ _).2.1, fastPath_index_miss hmiss _ _, ?_⟩
  rintro ⟨hhi, hlo⟩
  rw [hhi, hlo] at hhash
  exact hzero hhash.symm

theorem fhToPath_index_miss_zero
    (hmiss : ∀ q, t.paths[i % 2 ^ 32]? = some q → verifier q ≠ verifier p)
    {rel : Bytes} (hzero : hash64 rel = (0, 0)) :
    (fhToPath fs root t (handleBytes i p (hash64 rel).1 (hash64 rel).2)).1 = none := by
  have hneeds : ¬ NeedsSearch t (handleBytes i p (hash64 rel).1 (hash64 rel).2) := by
    intro h
    have hhash := handleBytes_hash i p rel
    rw [hzero, Prod.mk.injEq] at hhash
    rw [hzero] at h
    exact h.2.2 hhash
  rw [fhToPath_settled hneeds, fastPath_index_miss hmiss, ite_self]

/-- No entry with the verifier stands at the index: the hash decides. -/
theorem fhToPath_index_miss
    (hroot : RootOk root) (hgood : Good root t) (htarget : Under root target)
    (hmiss : ∀ q, t.paths[i % 2 ^ 32]? = some q → verifier q ≠ verifier p)
    (hinj : ∀ q ∈ (fhToPath fs root t (handleBytes i p
        (hash64 (relpath root target)).1 (hash64 (relpath root target)).2)).2.paths,
      hash64 (relpath root q) = hash64 (relpath root target) →
        relpath root q = relpath root target) {q : Bytes}
    (hres : (fhToPath fs root t (handleBytes i p
      (hash64 (relpath root target)).1
      (hash64 (relpath root target)).2)).1 = some q) : q = target := by
  by_cases hneeds : NeedsSearch t (handleBytes i p
      (hash64 (relpath root target)).1 (hash64 (relpath root target)).2)
  · exact fhToPath_by_hash hroot hgood hneeds (handleBytes_hash i p _).symm htarget
      hinj hres
  · rw [fhToPath_settled hneeds, fastPath_index_miss hmiss] at hres
    simp at hres

/-- Below any root the search finds the first spelling of the path. -/
theorem fhToPath_index_miss_first
    (hroot : root ≠ []) (hok : TableOk root t)
    (hmiss : ∀ q, t.paths[i % 2 ^ 32]? = some q → verifier q ≠ verifier p)
    (hinj : ∀ q ∈ (fhToPath fs root t (handleBytes i p
        (hash64 (relpath root target)).1 (hash64 (relpath root target)).2)).2.paths,
      hash64 (relpath root q) = hash64 (relpath root target) →
        relpath root q = relpath root target)
    (hzero : hash64 (relpath root target) ≠ (0, 0)) :
    (fhToPath fs root t (handleBytes i p
        (hash64 (relpath root target)).1 (hash64 (relpath root target)).2)).1 =
      firstSpelling fs root t target := by
  have hneeds := needsSearch_of_miss hmiss hzero
  have hhash := handleBytes_hash i p (relpath root target)
  rw [Prod.mk.injEq] at hhash
  have hsearch := @fhToPath_search root fs hroot t _ hneeds
  rw [hhash.1, hhash.2] at hsearch
  -- a table that the paths involved are injective on
  have hby : ∀ u : Table, TableOk root u →
      (∀ q ∈ u.paths, hash64 (relpath root q) = hash64 (relpath root target) →
        relpath root q = relpath root target) →
      findHash u (hash64 (relpath root target)).1 (hash64 (relpath root target)).2 =
        u.paths.find? fun q => relpath root q = relpath root target := by
    intro u hu hsame
    rw [findHash_eq hu]
    apply List.find?_congr
    intro q hq
    rw [decide_eq_decide]
    exact ⟨hsame q hq, fun h => by rw [h]⟩
  unfold firstSpelling
  rw [← find?_rebuild hroot]
  cases hfind : findHash t (hash64 (relpath root target)).1
      (hash64 (relpath root target)).2 with
  | some q =>
      rw [hfind] at hsearch
      rw [hsearch] at hinj ⊢
      rw [hby t hok hinj] at hfind
      rw [find?_rebuild hroot, searched, List.find?_append, hfind]
      rfl
  | none =>
      rw [hfind] at hsearch
      dsimp only at hsearch
      by_cases hdone : t.rebuilt = true
      · rw [if_pos hdone] at hsearch
        rw [hsearch] at hinj ⊢
        rw [hby t hok hinj] at hfind
        rw [find?_rebuild hroot, searched, if_pos hdone, List.append_nil, hfind]
      · rw [if_neg hdone] at hsearch
        rw [hsearch] at hinj ⊢
        exact hby _ hok.rebuild.1 hinj

end Restart

/-- After a restart on the same root, an old handle resolves to its own path
or to nothing exactly when no other path with its verifier stands at its
index and, below the root `/`, the search by hash finds no other spelling of it
first. -/
theorem old_handle_resolves_iff
    {σ₁ σ₂ : Type} (os₁ : Os σ₁) (os₂ : Os σ₂) (ex₁ ex₂ : Export)
    (abs : Bytes) (habs : abs.head? = some slash)
    (hex₁ : ex₁.root = fhSetRoot abs) (hex₂ : ex₂.root = fhSetRoot abs)
    (w₁ : σ₁) (w₂ : σ₂) (dgs₁ : List (Datagram σ₁)) (dgs₂ : List (Datagram σ₂))
    (p : Bytes) (hp : p ∈ (tableAfter os₁ ex₁ w₁ dgs₁).paths) (now : FsView)
    (hinj : ∀ q ∈ (fhToPath now ex₂.root (tableAfter os₂ ex₂ w₂ dgs₂)
        (issue ex₁.root (tableAfter os₁ ex₁ w₁ dgs₁) p)).2.paths,
      hash64 (relpath ex₂.root q) = hash64 (relpath ex₂.root p) →
        relpath ex₂.root q = relpath ex₂.root p) :
    ((fhToPath now ex₂.root (tableAfter os₂ ex₂ w₂ dgs₂)
          (issue ex₁.root (tableAfter os₁ ex₁ w₁ dgs₁) p)).1 = none ∨
        (fhToPath now ex₂.root (tableAfter os₂ ex₂ w₂ dgs₂)
          (issue ex₁.root (tableAfter os₁ ex₁ w₁ dgs₁) p)).1 = some p) ↔
      (∀ q, (tableAfter os₂ ex₂ w₂ dgs₂).paths[
          (tableAfter os₁ ex₁ w₁ dgs₁).paths.idxOf p % 2 ^ 32]? = some q →
        verifier q = verifier p → q = p) ∧
      (ex₂.root = [slash] →
        (∀ q, (tableAfter os₂ ex₂ w₂ dgs₂).paths[
            (tableAfter os₁ ex₁ w₁ dgs₁).paths.idxOf p % 2 ^ 32]? = some q →
          verifier q ≠ verifier p) →
        hash64 (relpath ex₂.root p) ≠ (0, 0) →
        ∀ q, firstSpelling now ex₂.root (tableAfter os₂ ex₂ w₂ dgs₂) p = some q → q = p) := by
  have hroots : ex₁.root = ex₂.root := hex₁.trans hex₂.symm
  have hok₁ : TableOk ex₂.root (tableAfter os₁ ex₁ w₁ dgs₁) := by
    rw [← hroots]
    exact tableAfter_ok os₁ ex₁ w₁ dgs₁
  have hok₂ := tableAfter_ok os₂ ex₂ w₂ dgs₂
  rw [hroots, issue_eq hok₁] at hinj ⊢
  by_cases hhit : ∃ q, (tableAfter os₂ ex₂ w₂ dgs₂).paths[
      (tableAfter os₁ ex₁ w₁ dgs₁).paths.idxOf p % 2 ^ 32]? = some q ∧
        verifier q = verifier p
  · obtain ⟨q, hget, hver⟩ := hhit
    rw [fhToPath_index_hit hget hver]
    constructor
    · intro hres
      have hq : q = p := by simpa using hres
      refine ⟨?_, fun _ hmiss => absurd hver (hmiss q hget)⟩
      intro r hr _
      rw [hget, Option.some.injEq] at hr
      rw [← hr, hq]
    · intro hcond
      right
      rw [hcond.1 q hget hver]
  · have hmiss : ∀ q, (tableAfter os₂ ex₂ w₂ dgs₂).paths[
        (tableAfter os₁ ex₁ w₁ dgs₁).paths.idxOf p % 2 ^ 32]? = some q →
          verifier q ≠ verifier p :=
      fun q hget hver => hhit ⟨q, hget, hver⟩
    have hindex : ∀ q, (tableAfter os₂ ex₂ w₂ dgs₂).paths[
        (tableAfter os₁ ex₁ w₁ dgs₁).paths.idxOf p % 2 ^ 32]? = some q →
          verifier q = verifier p → q = p :=
      fun q hget hver => absurd hver (hmiss q hget)
    by_cases hslash : ex₂.root = [slash]
    · have hne : ex₂.root ≠ [] := by simp [hslash]
      by_cases hzero : hash64 (relpath ex₂.root p) = (0, 0)
      · refine iff_of_true (.inl ?_) ⟨hindex, fun _ _ h => absurd hzero h⟩
        exact fhToPath_index_miss_zero hmiss hzero
      · rw [fhToPath_index_miss_first hne hok₂ hmiss hinj hzero]
        constructor
        · intro hres
          refine ⟨hindex, fun _ _ _ q hq => ?_⟩
          rw [hq] at hres
          simpa using hres
        · intro hcond
          cases hfirst : firstSpelling now ex₂.root (tableAfter os₂ ex₂ w₂ dgs₂) p with
          | none => exact .inl rfl
          | some q =>
              right
              rw [hcond.2 hslash hmiss hzero q hfirst]
    · have hroot := fhSetRoot_ok habs (fun h => hslash (hex₂.trans h))
      rw [← hex₂] at hroot
      have hgood₂ := tableAfter_good os₂ ex₂ hroot w₂ dgs₂
      have hunder : Under ex₂.root p := by
        rw [← hroots] at hroot ⊢
        exact (tableAfter_good os₁ ex₁ hroot w₁ dgs₁).under p hp
      refine iff_of_true ?_ ⟨hindex, fun h => absurd h hslash⟩
      cases hres : (fhToPath now ex₂.root (tableAfter os₂ ex₂ w₂ dgs₂)
          (handleBytes ((tableAfter os₁ ex₁ w₁ dgs₁).paths.idxOf p) p
            (hash64 (relpath ex₂.root p)).1 (hash64 (relpath ex₂.root p)).2)).1 with
      | none => exact .inl rfl
      | some q =>
          right
          rw [fhToPath_index_miss hroot hgood₂ hunder hmiss hinj hres]

def lookupCall (name : Bytes) : Datagram (List Bytes) :=
  ⟨⟨1, 1023⟩, callHead 8 nfsProg nfsVers 4 ++
    issue (ascii "/r") Table.empty (ascii "/r") ++ counted name, id, 91, 91⟩

/-- Two files below `/r` whose paths have the same verifier. -/
def twinFiles : List Bytes := [ascii "/r/as", ascii "/r/c1"]

/-- The table after a mount and the lookup of one name. -/
def twinTable (name : Bytes) : Table :=
  tableAfter flatOs flatExport twinFiles [mountCall, lookupCall name]

/-- A system whose root directory is exported. -/
def slashOs : Os (List Bytes) :=
  { flatOs with
    view := fun w =>
      { flatOs.view w with
        stat := fun path =>
          if path = [slash] then .ok (plainStat 0o40755 1) else .error 2 } }

def slashExport : Export := ⟨[slash], 2049⟩

def mountSlash : Datagram (List Bytes) :=
  ⟨⟨1, 1023⟩, callHead 6 mountProg mountVers 1 ++ counted [slash], id, 90, 90⟩

def slashTable : Table := tableAfter slashOs slashExport [] [mountSlash]

/-- A file finds its entry again; the handle of the root `/` is resolved by the
walk of a server that has served nobody yet. -/
theorem old_handle_resolves_again :
    ((fhToPath (flatOs.view twinFiles) (ascii "/r") (twinTable (ascii "as"))
        (issue (ascii "/r") (twinTable (ascii "as")) (ascii "/r/as"))).1 = none ∨
      (fhToPath (flatOs.view twinFiles) (ascii "/r") (twinTable (ascii "as"))
        (issue (ascii "/r") (twinTable (ascii "as")) (ascii "/r/as"))).1 =
          some (ascii "/r/as")) ∧
    ((fhToPath noFs [slash] Table.empty (issue [slash] slashTable [slash])).1 = none ∨
      (fhToPath noFs [slash] Table.empty (issue [slash] slashTable [slash])).1 =
        some [slash]) := by
  constructor
  · apply (old_handle_resolves_iff flatOs flatOs flatExport flatExport (ascii "/r")
      rfl rfl rfl twinFiles twinFiles
      [mountCall, lookupCall (ascii "as")] [mountCall, lookupCall (ascii "as")]
      (ascii "/r/as") (by decide +kernel) (flatOs.view twinFiles)
      (by decide +kernel)).mpr
    refine ⟨fun q hget _ => ?_, fun h => absurd h (by decide)⟩
    have hentry : (twinTable (ascii "as")).paths[
        (twinTable (ascii "as")).paths.idxOf (ascii "/r/as") % 2 ^ 32]? =
          some (ascii "/r/as") := by
      decide +kernel
    rw [twinTable] at hentry
    rw [hentry] at hget
    exact (Option.some.inj hget).symm
  · apply (old_handle_resolves_iff slashOs slashOs slashExport slashExport [slash] rfl rfl rfl
      [] [] [mountSlash] [] [slash] (by decide +kernel) noFs (by decide +kernel)).mpr
    have hempty : ∀ i : ℕ, (tableAfter slashOs slashExport [] []).paths[i]? = none :=
      fun _ => rfl
    refine ⟨fun q hget _ => ?_, fun _ _ _ q hfirst => ?_⟩
    · rw [hempty] at hget
      cases hget
    · have hwalk : firstSpelling noFs slashExport.root
          (tableAfter slashOs slashExport [] []) [slash] = some [slash] := by
        decide +kernel
      rw [hwalk] at hfirst
      exact (Option.some.inj hfirst).symm

/-- The handle of `/r/as`, looked up after a restart in which `/r/c1` was the
first file to be looked up, resolves to `/r/c1`. -/
theorem old_handle_resolves_to_another :
    ascii "/r/as" ∈ (twinTable (ascii "as")).paths ∧
    (∀ p ∈ (twinTable (ascii "as")).paths ++ (twinTable (ascii "c1")).paths,
      ∀ q ∈ (twinTable (ascii "as")).paths ++ (twinTable (ascii "c1")).paths,
        hash64 (relpath (ascii "/r") p) = hash64 (relpath (ascii "/r") q) →
          relpath (ascii "/r") p = relpath (ascii "/r") q) ∧
    ¬ ((fhToPath (flatOs.view twinFiles) (ascii "/r") (twinTable (ascii "c1"))
          (issue (ascii "/r") (twinTable (ascii "as")) (ascii "/r/as"))).1 = none ∨
        (fhToPath (flatOs.view twinFiles) (ascii "/r") (twinTable (ascii "c1"))
          (issue (ascii "/r") (twinTable (ascii "as")) (ascii "/r/as"))).1 =
            some (ascii "/r/as")) := by
  refine ⟨?_, ?_, ?_⟩
  · decide +kernel
  · decide +kernel
  · decide +kernel

end GrandCross
