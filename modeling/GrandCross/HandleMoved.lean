import GrandCross.HandleRestart

/-!
# Handles across a moved export

The walk over the export interns every path within its depth and length
guards, and it runs at most once in a server lifetime.  A handle of an earlier
lifetime for the same tree below another root therefore resolves to the moved
path, unless a path with its verifier stands at its index in the new table.
-/

namespace GrandCross

open CText EarlyExit

/-- A tree of directories: the listing of every directory, by the names that
lead to it.  What is no directory, a symbolic link for one, has no listing. -/
structure Tree where
  dir : List Bytes → Option DirStream

/-- The second list leads from a directory to an entry of the tree, through
directories only. -/
def Tree.Reaches (T : Tree) : List Bytes → List Bytes → Prop
  | _, [] => True
  | base, name :: rest =>
      ∃ stream, T.dir base = some stream ∧ name ∈ stream.names ∧
        name ≠ [dot] ∧ name ≠ [dot, dot] ∧ T.Reaches (base ++ [name]) rest

/-- A file system that holds the tree below a root: its directories can be
opened, and `lstat` tells them from other entries. -/
structure Exports (fs : FsView) (root : Bytes) (T : Tree) : Prop where
  opens : ∀ comps stream, T.dir comps = some stream →
    fs.opendir (pathOf root comps) = .ok stream
  kinds : ∀ comps stream name, T.dir comps = some stream →
    name ∈ stream.names → name ≠ [dot] → name ≠ [dot, dot] →
      fs.isDir (pathOf root (comps ++ [name])) =
        (T.dir (comps ++ [name])).isSome

theorem Tree.Reaches.compOk
    {T : Tree} {base comps : List Bytes} (h : T.Reaches base comps) :
    ∀ c ∈ comps, CompOk c := by
  induction comps generalizing base with
  | nil => simp
  | cons name rest ih =>
      obtain ⟨stream, -, hname, -, -, hrest⟩ := h
      intro c hc
      rcases List.mem_cons.mp hc with rfl | hc
      · exact (stream.namesOk c hname).compOk
      · exact ih hrest c hc

theorem Tree.Reaches.isSome
    {T : Tree} {base comps : List Bytes} (h : T.Reaches base comps)
    (hne : comps ≠ []) : (T.dir base).isSome = true := by
  cases comps with
  | nil => exact absurd rfl hne
  | cons name rest =>
      obtain ⟨stream, hdir, -⟩ := h
      simp [hdir]

section Walk

variable {fs : FsView} {root : Bytes} {T : Tree}

theorem slashed_append (comps comps' : List Bytes) :
    slashed (comps ++ comps') = slashed comps ++ slashed comps' :=
  List.flatMap_append

theorem mem_rebuildDir
    {p : Bytes} {t : Table} (hp : p ∈ t.paths) (levels : ℕ) (dir : Bytes) :
    p ∈ (rebuildDir fs root levels dir t).paths := by
  apply rebuildDir_keeps (P := fun t => p ∈ t.paths) (D := fun _ => True)
  · intros
    trivial
  · intro u child _ hu
    exact (intern_grows child).subset hu
  · trivial
  · exact hp

/-- The walk interns everything the guards let through. -/
theorem rebuildDir_complete
    (hroot : RootOk root) (hexports : Exports fs root T)
    (levels : ℕ) (base rest : List Bytes) (t : Table)
    (hbase : ∀ c ∈ base, CompOk c) (hreach : T.Reaches base rest)
    (hne : rest ≠ []) (hdepth : rest.length ≤ levels)
    (hlen : (pathOf root (base ++ rest)).length ≤ 1023) :
    pathOf root (base ++ rest) ∈
      (rebuildDir fs root levels (pathOf root base) t).paths := by
  induction levels generalizing base rest t with
  | zero =>
      have hnil : rest = [] := List.eq_nil_of_length_eq_zero (by omega)
      exact absurd hnil hne
  | succ levels ih =>
      cases rest with
      | nil => exact absurd rfl hne
      | cons name rest =>
          obtain ⟨stream, hdir, hname, hdot, hdots, hrest⟩ := hreach
          have hbase' : ∀ c ∈ base ++ [name], CompOk c := by
            intro c hc
            rcases List.mem_append.mp hc with h | h
            · exact hbase c h
            · rw [List.mem_singleton] at h
              exact h ▸ (stream.namesOk name hname).compOk
          have hsplit : base ++ name :: rest = (base ++ [name]) ++ rest := by simp
          have hshort : ¬ 1024 < (pathOf root base).length + name.length + 2 := by
            rw [hsplit, pathOf, slashed_append, slashed_snoc] at hlen
            simp only [List.length_append, List.length_cons] at hlen
            simp only [pathOf, List.length_append]
            omega
          obtain ⟨before, after, hnames⟩ := List.append_of_mem hname
          rw [rebuildDir, hexports.opens base stream hdir]
          simp only [hnames, List.foldl_append, List.foldl_cons]
          -- the entry's own turn adds the path, later entries keep it
          apply List.foldlRecOn (motive := fun t =>
            pathOf root (base ++ name :: rest) ∈ Table.paths t)
          · rw [if_neg (by simp [hdot, hdots]), if_neg hshort,
              walkChild_pathOf hroot hbase]
            by_cases hlast : rest = []
            · subst hlast
              split_ifs
              · exact mem_rebuildDir (mem_intern _) _ _
              · exact mem_intern _
            · have hisdir : fs.isDir (pathOf root (base ++ [name])) = true := by
                rw [hexports.kinds base stream name hdir hname hdot hdots]
                exact hrest.isSome hlast
              rw [if_pos hisdir, hsplit]
              apply ih
              · exact hbase'
              · exact hrest
              · exact hlast
              · simp only [List.length_cons] at hdepth
                omega
              · rw [← hsplit]
                exact hlen
          · intro u hu other _
            split_ifs
            · exact hu
            · exact hu
            · exact mem_rebuildDir ((intern_grows _).subset hu) _ _
            · exact (intern_grows _).subset hu

/-- Every entry of the tree within the guards is in the table. -/
def Complete (root : Bytes) (T : Tree) (t : Table) : Prop :=
  ∀ comps, T.Reaches [] comps → comps.length ≤ 33 →
    (pathOf root comps).length ≤ 1023 → pathOf root comps ∈ t.paths

theorem rebuild_complete
    (hroot : RootOk root) (hexports : Exports fs root T) {t : Table}
    (ht : t.rebuilt = false) : Complete root T (rebuild fs root t) := by
  intro comps hreach hdepth hlen
  unfold rebuild
  rw [if_neg (by simp [ht, hroot.ne_nil])]
  have hbase : pathOf root [] = root := by simp [pathOf]
  by_cases hnil : comps = []
  · subst hnil
    rw [hbase]
    exact mem_rebuildDir (mem_intern root) _ _
  · have hmem := rebuildDir_complete hroot hexports 33 [] comps
      (intern root { t with rebuilt := true } root).2 (by simp) hreach hnil hdepth
      hlen
    rw [hbase] at hmem
    exact hmem

end Walk

/-! ## The lifetime after the move -/

section Moved

variable {σ : Type} (os : Os σ) (ex : Export) (T : Tree)

/-- After the walk the table is complete. -/
structure Walked (root : Bytes) (T : Tree) (t : Table) : Prop where
  good : Good root t
  complete : t.rebuilt = true → Complete root T t

theorem Walked.intern
    {root : Bytes} {T : Tree} {t : Table} (h : Walked root T t) {path : Bytes}
    (hpath : Under root path) : Walked root T (intern root t path).2 := by
  refine ⟨h.good.intern hpath, ?_⟩
  intro hflag comps hreach hdepth hlen
  rw [intern_rebuilt] at hflag
  exact (intern_grows path).subset (h.complete hflag comps hreach hdepth hlen)

theorem Walked.fhToPath
    {root : Bytes} {T : Tree} {t : Table} (hroot : RootOk root)
    (h : Walked root T t) {fs : FsView} (hexports : Exports fs root T)
    (fh : Bytes) : Walked root T (fhToPath fs root t fh).2 := by
  refine ⟨h.good.fhToPath hroot fs fh, ?_⟩
  have htable : (GrandCross.fhToPath fs root t fh).2 = t ∨
      (GrandCross.fhToPath fs root t fh).2 = rebuild fs root t :=
    fhToPath_table t fh
  rcases htable with heq | heq
  · rw [heq]
    exact h.complete
  · rw [heq]
    intro _
    cases hflag : t.rebuilt with
    | false => exact rebuild_complete hroot hexports hflag
    | true =>
        have hsame : rebuild fs root t = t := by
          simp [rebuild, hflag]
        rw [hsame]
        exact h.complete hflag

theorem tableInv_walked
    (hroot : RootOk ex.root) (hfs : ∀ w, Exports (os.view w) ex.root T) :
    TableInv os ex (fun s => Walked ex.root T s.table) (Under ex.root) where
  root := under_root ex.root
  join _ _ _ hdir hjoin := joinChild_under hroot.ne_nil hdir hjoin
  world _ _ hs := hs
  resolve s fh hs :=
    ⟨hs.fhToPath hroot (hfs s.world) fh, fun path hres =>
      (hs.good.fhToPath hroot _ fh).under path
        (fhToPath_mem hroot.ne_nil hs.good.ok hres)⟩
  issue _ _ hpath hs := hs.intern hpath

theorem tableAfter_walked
    (hroot : RootOk ex.root) (hfs : ∀ w, Exports (os.view w) ex.root T) (w : σ)
    (dgs : List (Datagram σ)) :
    Walked ex.root T (tableAfter os ex w dgs) := by
  have hempty : Walked ex.root T Table.empty := by
    refine ⟨good_empty ex.root, ?_⟩
    intro h
    exact absurd h (by decide)
  exact serve_keeps (tableInv_walked os ex T hroot hfs) hempty dgs

end Moved

/-- A search by hash in a walked table, or in one that can still be walked,
finds the path. -/
theorem Walked.finds
    {root : Bytes} {T : Tree} {t : Table} (hroot : RootOk root)
    (h : Walked root T t) {fs : FsView} (hexports : Exports fs root T)
    {fh : Bytes} (hneeds : NeedsSearch t fh) {comps : List Bytes}
    (hreach : T.Reaches [] comps) (hdepth : comps.length ≤ 33)
    (hlen : (pathOf root comps).length ≤ 1023)
    (hhash : hash64 (relpath root (pathOf root comps)) =
      (be32At fh 12, be32At fh 16)) :
    (GrandCross.fhToPath fs root t fh).1 ≠ none := by
  have hfound : ∀ u : Table, TableOk root u → pathOf root comps ∈ u.paths →
      findHash u (be32At fh 12) (be32At fh 16) ≠ none := by
    intro u hu hmem hnone
    rw [findHash_eq hu, List.find?_eq_none] at hnone
    exact hnone _ hmem (by simpa using hhash)
  rw [fhToPath_search hroot.ne_nil hneeds]
  cases hfind : findHash t (be32At fh 12) (be32At fh 16) with
  | some path => simp
  | none =>
      simp only
      cases hflag : t.rebuilt with
      | true =>
          exact absurd hfind (hfound t h.good.ok
            (h.complete hflag comps hreach hdepth hlen))
      | false =>
          simp only [Bool.false_eq_true, if_false]
          exact hfound _ h.good.ok.rebuild.1
            (rebuild_complete hroot hexports hflag comps hreach hdepth hlen)

/-- After a move of the export, the search ends and an old handle resolves to
the moved path exactly when no other path with its verifier stands at its
index. -/
theorem moved_handle_resolves_iff
    {σ₁ σ₂ : Type} (os₁ : Os σ₁) (os₂ : Os σ₂) (ex₁ ex₂ : Export)
    (abs₁ abs₂ : Bytes) (habs₁ : abs₁.head? = some slash)
    (habs₂ : abs₂.head? = some slash) (hex₁ : ex₁.root = fhSetRoot abs₁)
    (hex₂ : ex₂.root = fhSetRoot abs₂) (hne₁ : ex₁.root ≠ [slash])
    (hne₂ : ex₂.root ≠ [slash]) (T : Tree)
    (hfs : ∀ w, Exports (os₂.view w) ex₂.root T)
    (w₁ : σ₁) (w₂ : σ₂) (dgs₁ : List (Datagram σ₁)) (dgs₂ : List (Datagram σ₂))
    (comps : List Bytes) (hreach : T.Reaches [] comps)
    (hdepth : comps.length ≤ 33) (hlen : (pathOf ex₂.root comps).length ≤ 1023)
    (hzero : hash64 (relOf comps) ≠ (0, 0)) (now : σ₂)
    (hinj : ∀ q ∈ (fhToPath (os₂.view now) ex₂.root (tableAfter os₂ ex₂ w₂ dgs₂)
        (issue ex₁.root (tableAfter os₁ ex₁ w₁ dgs₁)
          (pathOf ex₁.root comps))).2.paths,
      hash64 (relpath ex₂.root q) = hash64 (relOf comps) →
        relpath ex₂.root q = relOf comps) :
    (∀ rounds, fhToPathIn (os₂.view now) ex₂.root (tableAfter os₂ ex₂ w₂ dgs₂)
        (issue ex₁.root (tableAfter os₁ ex₁ w₁ dgs₁) (pathOf ex₁.root comps))
        (rounds + 2) =
      some (fhToPath (os₂.view now) ex₂.root (tableAfter os₂ ex₂ w₂ dgs₂)
        (issue ex₁.root (tableAfter os₁ ex₁ w₁ dgs₁)
          (pathOf ex₁.root comps)))) ∧
    ((fhToPath (os₂.view now) ex₂.root (tableAfter os₂ ex₂ w₂ dgs₂)
        (issue ex₁.root (tableAfter os₁ ex₁ w₁ dgs₁)
          (pathOf ex₁.root comps))).1 = some (pathOf ex₂.root comps) ↔
      ∀ q, (tableAfter os₂ ex₂ w₂ dgs₂).paths[
          (tableAfter os₁ ex₁ w₁ dgs₁).paths.idxOf (pathOf ex₁.root comps) %
            2 ^ 32]? = some q →
        verifier q = verifier (pathOf ex₁.root comps) →
          q = pathOf ex₂.root comps) := by
  have hroot₁ : RootOk ex₁.root := by
    rw [hex₁] at hne₁ ⊢
    exact fhSetRoot_ok habs₁ hne₁
  have hroot₂ : RootOk ex₂.root := by
    rw [hex₂] at hne₂ ⊢
    exact fhSetRoot_ok habs₂ hne₂
  have hgood₁ := tableAfter_good os₁ ex₁ hroot₁ w₁ dgs₁
  have hwalked := tableAfter_walked os₂ ex₂ T hroot₂ hfs w₂ dgs₂
  have hcomps := hreach.compOk
  have hrel₁ := relpath_pathOf hroot₁.ne_nil hcomps
  have hrel₂ := relpath_pathOf hroot₂.ne_nil hcomps
  have htarget : Under ex₂.root (pathOf ex₂.root comps) := ⟨comps, hcomps, rfl⟩
  refine ⟨fun rounds => fhToPath_terminates hroot₂.ne_nil _ _ rounds, ?_⟩
  rw [issue_eq hgood₁.ok, hrel₁, ← hrel₂] at hinj ⊢
  rw [← hrel₂] at hzero
  constructor
  · intro hres q hget hver
    rw [fhToPath_index_hit hget hver] at hres
    simpa using hres
  · intro hcond
    by_cases hhit : ∃ q, (tableAfter os₂ ex₂ w₂ dgs₂).paths[
        (tableAfter os₁ ex₁ w₁ dgs₁).paths.idxOf (pathOf ex₁.root comps) %
          2 ^ 32]? = some q ∧ verifier q = verifier (pathOf ex₁.root comps)
    · obtain ⟨q, hget, hver⟩ := hhit
      rw [fhToPath_index_hit hget hver, hcond q hget hver]
    · have hmiss : ∀ q, (tableAfter os₂ ex₂ w₂ dgs₂).paths[
          (tableAfter os₁ ex₁ w₁ dgs₁).paths.idxOf (pathOf ex₁.root comps) %
            2 ^ 32]? = some q →
          verifier q ≠ verifier (pathOf ex₁.root comps) :=
        fun q hget hver => hhit ⟨q, hget, hver⟩
      have hneeds := needsSearch_of_miss hmiss hzero
      have hsome := hwalked.finds hroot₂ (hfs now) hneeds hreach hdepth hlen
        (handleBytes_hash _ _ _).symm
      obtain ⟨q, hres⟩ := Option.ne_none_iff_exists'.mp hsome
      rw [hres, fhToPath_index_miss hroot₂ hwalked.good htarget hmiss hinj hres]

/-! ## A tree with `x` and `b/x`, moved one directory up -/

def topNames : DirStream := ⟨[ascii "b", ascii "x"], 0, by decide⟩
def subNames : DirStream := ⟨[ascii "x"], 0, by decide⟩

def nestTree : Tree where
  dir comps :=
    if comps = [] then some topNames
    else if comps = [ascii "b"] then some subNames
    else none

/-- The tree below a root. -/
def nestFs (root : Bytes) : FsView :=
  { noFs with
    stat := fun path =>
      if path = root then .ok (plainStat 0o40755 1) else .error 2
    lstat := fun path =>
      if path = root ∨ path = pathOf root [ascii "b"] then .ok (plainStat 0o40755 1)
      else if path = pathOf root [ascii "x"] ∨
          path = pathOf root [ascii "b", ascii "x"] then .ok (plainStat 0o100644 2)
      else .error 2
    opendir := fun path =>
      if path = root then .ok topNames
      else if path = pathOf root [ascii "b"] then .ok subNames
      else .error 20 }

def nestOs (root : Bytes) : Os Unit where
  view _ := nestFs root
  chmod w _ _ := w
  truncate w _ _ := w
  writeAt w _ _ _ := (.error 30, w)
  mkdir w _ _ := (.error 30, w)
  creat w _ _ := (.error 30, w)
  unlink w _ := (.error 30, w)
  rmdir w _ := (.error 30, w)
  rename w _ _ := (.error 30, w)
  link w _ _ := (.error 30, w)
  symlink w _ _ := (.error 30, w)

theorem nestFs_exports (root : Bytes) : Exports (nestFs root) root nestTree := by
  have hsub : pathOf root [ascii "b"] ≠ root := by
    simp [pathOf]
  constructor
  · intro comps stream hdir
    simp only [nestTree] at hdir
    split_ifs at hdir with htop hb
    · subst htop
      simp only [Option.some.injEq] at hdir
      simp [nestFs, pathOf, hdir]
    · subst hb
      simp only [Option.some.injEq] at hdir
      simp [nestFs, hsub, hdir]
  · intro comps stream name hdir hname _ _
    have hcases : (comps = [] ∧ (name = ascii "b" ∨ name = ascii "x")) ∨
        (comps = [ascii "b"] ∧ name = ascii "x") := by
      simp only [nestTree] at hdir
      split_ifs at hdir with htop hb
      · left
        rw [← Option.some.inj hdir] at hname
        exact ⟨htop, by simpa [topNames] using hname⟩
      · right
        rw [← Option.some.inj hdir] at hname
        exact ⟨hb, by simpa [subNames] using hname⟩
    rcases hcases with ⟨rfl, rfl | rfl⟩ | ⟨rfl, rfl⟩
    · simp [FsView.isDir, nestFs, nestTree, plainStat, Stat.isDir, Stat.fmt]
    · simp [FsView.isDir, nestFs, nestTree, plainStat, Stat.isDir, Stat.fmt, pathOf,
        ascii]
    · simp [FsView.isDir, nestFs, nestTree, plainStat, Stat.isDir, Stat.fmt, pathOf,
        ascii]

def nestCall (proc : ℕ) (fh arg : Bytes) : Datagram Unit :=
  ⟨⟨1, 1023⟩, callHead 9 nfsProg nfsVers proc ++ fh ++ counted arg, id, 91, 91⟩

def nestMount (root : Bytes) : Datagram Unit :=
  ⟨⟨1, 1023⟩, callHead 9 mountProg mountVers 1 ++ counted root, id, 90, 90⟩

/-- Mount, then the lookups of `b` and `x` in the exported directory. -/
def outerCalls (root : Bytes) : List (Datagram Unit) :=
  [nestMount root, nestCall 4 (issue root Table.empty root) (ascii "b"),
    nestCall 4 (issue root Table.empty root) (ascii "x")]

/-- Mount, then the lookups of `b` and of `x` in it. -/
def innerCalls (root : Bytes) : List (Datagram Unit) :=
  [nestMount root, nestCall 4 (issue root Table.empty root) (ascii "b"),
    nestCall 4 (issue root (intern root Table.empty root).2
      (pathOf root [ascii "b"])) (ascii "x")]

def nestExport (root : Bytes) : Export := ⟨root, 2049⟩

/-- The table of a lifetime that exports the tree below a root. -/
def nestTable (root : Bytes) (dgs : List (Datagram Unit)) : Table :=
  tableAfter (nestOs root) (nestExport root) () dgs

theorem nest_reaches_x : nestTree.Reaches [] [ascii "x"] :=
  ⟨topNames, rfl, by decide, by decide, by decide, trivial⟩

/-- With nothing but the mount done, the walk finds the moved file. -/
theorem moved_handle_resolves_by_walk :
    (fhToPath ((nestOs (ascii "/a")).view ()) (nestExport (ascii "/a")).root
      (nestTable (ascii "/a") [nestMount (ascii "/a")])
      (issue (nestExport (ascii "/a/b")).root
        (nestTable (ascii "/a/b") (outerCalls (ascii "/a/b")))
        (pathOf (nestExport (ascii "/a/b")).root [ascii "x"]))).1 =
    some (pathOf (nestExport (ascii "/a")).root [ascii "x"]) := by
  have hnone : (nestTable (ascii "/a") [nestMount (ascii "/a")]).paths[
      (nestTable (ascii "/a/b") (outerCalls (ascii "/a/b"))).paths.idxOf
        (pathOf (nestExport (ascii "/a/b")).root [ascii "x"]) % 2 ^ 32]? = none := by
    decide +kernel
  unfold nestTable at hnone ⊢
  apply (moved_handle_resolves_iff (nestOs (ascii "/a/b")) (nestOs (ascii "/a"))
    (nestExport (ascii "/a/b")) (nestExport (ascii "/a")) (ascii "/a/b")
    (ascii "/a") rfl rfl (by decide) (by decide) (by decide) (by decide) nestTree
    (fun _ => nestFs_exports (ascii "/a")) () () (outerCalls (ascii "/a/b"))
    [nestMount (ascii "/a")] [ascii "x"] nest_reaches_x (by decide) (by decide)
    (by decide) () (by decide +kernel)).2.mpr
  intro q hget
  rw [hnone] at hget
  exact absurd hget (Option.some_ne_none q).symm

/-- The first lifetime exports `/a/b` and `x` is looked up in it; the second
exports `/a` and `b/x` is looked up. -/
def nestBefore : Table := nestTable (ascii "/a/b") (outerCalls (ascii "/a/b"))
def nestAfter : Table := nestTable (ascii "/a") (innerCalls (ascii "/a"))

/-- The handle of `/a/b/x`, which was `x`, resolves to `/a/b/x`, which now is
`b/x`, although no two paths collide. -/
theorem moved_handle_resolves_to_another :
    Exports (nestFs (ascii "/a/b")) (ascii "/a/b") nestTree ∧
    Exports (nestFs (ascii "/a")) (ascii "/a") nestTree ∧
    nestTree.Reaches [] [ascii "x"] ∧
    pathOf (ascii "/a/b") [ascii "x"] ∈ nestBefore.paths ∧
    (∀ p ∈ nestBefore.paths ++ nestAfter.paths ++ [ascii "/a/x"],
      ∀ q ∈ nestBefore.paths ++ nestAfter.paths ++ [ascii "/a/x"],
        verifier p = verifier q → p = q) ∧
    (∀ p ∈ [ascii "", ascii "b", ascii "x", ascii "b/x"],
      hash64 p ≠ (0, 0) ∧ ∀ q ∈ [ascii "", ascii "b", ascii "x", ascii "b/x"],
        hash64 p = hash64 q → p = q) ∧
    (fhToPath (nestFs (ascii "/a")) (ascii "/a") nestAfter
      (issue (ascii "/a/b") nestBefore (pathOf (ascii "/a/b") [ascii "x"]))).1 ≠
        some (pathOf (ascii "/a") [ascii "x"]) := by
  refine ⟨nestFs_exports _, nestFs_exports _, nest_reaches_x, ?_, ?_, ?_, ?_⟩
  · decide +kernel
  · decide +kernel
  · decide +kernel
  · decide +kernel

end GrandCross
