import GrandCross.HandleRestart

/-!
# Confinement to the export

A set of paths that holds the root and is closed under `join_child` and the
walk holds every path in the handle table, and the server makes its calls on
these paths only: it cannot tell two file systems apart that agree on them,
and what every call on them keeps, it keeps.  The paths below the root whose
components are ordinary names are such a set.
-/

namespace GrandCross

open CText EarlyExit

/-- A set of paths the server does not leave. -/
structure PathSet (root : Bytes) (P : Bytes → Prop) : Prop where
  atRoot : P root
  join : ∀ dir name child, P dir →
    joinChild root dir name pathMax = some child → P child
  walk : ∀ dir name, P dir → NameOk name → name ≠ [dot] → name ≠ [dot, dot] →
    P (walkChild dir name)

/-- Two views that agree on a set of paths. -/
structure FsView.AgreeOn (P : Bytes → Prop) (fs fs' : FsView) : Prop where
  lstat : ∀ p, P p → fs.lstat p = fs'.lstat p
  stat : ∀ p, P p → fs.stat p = fs'.stat p
  opendir : ∀ p, P p → fs.opendir p = fs'.opendir p
  readAt : ∀ p, P p → fs.readAt p = fs'.readAt p
  readlink : ∀ p, P p → fs.readlink p = fs'.readlink p
  statvfs : ∀ p, P p → fs.statvfs p = fs'.statvfs p

/-- Two systems that agree on a set of paths; the content of a new symbolic
link is not a path of the call. -/
structure Os.AgreeOn {σ : Type} (P : Bytes → Prop) (os os' : Os σ) : Prop where
  view : ∀ w, (os.view w).AgreeOn P (os'.view w)
  chmod : ∀ w p mode, P p → os.chmod w p mode = os'.chmod w p mode
  truncate : ∀ w p size, P p → os.truncate w p size = os'.truncate w p size
  writeAt : ∀ w p data off, P p → os.writeAt w p data off = os'.writeAt w p data off
  mkdir : ∀ w p mode, P p → os.mkdir w p mode = os'.mkdir w p mode
  creat : ∀ w p mode, P p → os.creat w p mode = os'.creat w p mode
  unlink : ∀ w p, P p → os.unlink w p = os'.unlink w p
  rmdir : ∀ w p, P p → os.rmdir w p = os'.rmdir w p
  rename : ∀ w p q, P p → P q → os.rename w p q = os'.rename w p q
  link : ∀ w p q, P p → P q → os.link w p q = os'.link w p q
  symlink : ∀ w target p, P p → os.symlink w target p = os'.symlink w target p

/-- A property of the file system that calls on a set of paths keep. -/
structure Os.StableOn {σ : Type} (P : Bytes → Prop) (os : Os σ) (J : σ → Prop) :
    Prop where
  chmod : ∀ w p mode, P p → J w → J (os.chmod w p mode)
  truncate : ∀ w p size, P p → J w → J (os.truncate w p size)
  writeAt : ∀ w p data off, P p → J w → J (os.writeAt w p data off).2
  mkdir : ∀ w p mode, P p → J w → J (os.mkdir w p mode).2
  creat : ∀ w p mode, P p → J w → J (os.creat w p mode).2
  unlink : ∀ w p, P p → J w → J (os.unlink w p).2
  rmdir : ∀ w p, P p → J w → J (os.rmdir w p).2
  rename : ∀ w p q, P p → P q → J w → J (os.rename w p q).2
  link : ∀ w p q, P p → P q → J w → J (os.link w p q).2
  symlink : ∀ w target p, P p → J w → J (os.symlink w target p).2

/-! ## The handle table -/

section Table

variable {root : Bytes} {P : Bytes → Prop} {fs fs' : FsView}

def PathsIn (P : Bytes → Prop) (t : Table) : Prop := ∀ p ∈ t.paths, P p

theorem PathsIn.intern
    {t : Table} (ht : PathsIn P t) {path : Bytes} (hpath : P path) :
    PathsIn P (intern root t path).2 :=
  forall_mem_intern ht hpath

theorem isDir_agree
    (hagree : fs.AgreeOn P fs') {p : Bytes} (hp : P p) : fs.isDir p = fs'.isDir p := by
  unfold FsView.isDir
  rw [hagree.lstat p hp]

theorem rebuildDir_agree
    (hset : PathSet root P) (hagree : fs.AgreeOn P fs') (levels : ℕ) {dir : Bytes}
    (hdir : P dir) (t : Table) :
    rebuildDir fs root levels dir t = rebuildDir fs' root levels dir t := by
  induction levels generalizing dir t with
  | zero => rfl
  | succ levels ih =>
      unfold rebuildDir
      rw [hagree.opendir dir hdir]
      cases fs'.opendir dir with
      | error e => rfl
      | ok stream =>
          apply List.foldl_ext
          intro t name hname
          by_cases hdots : name = [dot] ∨ name = [dot, dot]
          · rw [if_pos hdots, if_pos hdots]
          · have hchild := hset.walk dir name hdir (stream.namesOk name hname)
              (fun h => hdots (Or.inl h)) (fun h => hdots (Or.inr h))
            rw [if_neg hdots, if_neg hdots]
            dsimp only
            rw [isDir_agree hagree hchild, ih hchild]

theorem rebuild_agree
    (hset : PathSet root P) (hagree : fs.AgreeOn P fs') (t : Table) :
    rebuild fs root t = rebuild fs' root t := by
  unfold rebuild
  rw [rebuildDir_agree hset hagree 33 hset.atRoot]

theorem PathsIn.rebuild
    (hset : PathSet root P) {t : Table} (ht : PathsIn P t) :
    PathsIn P (rebuild fs root t) := by
  apply rebuild_keeps (P := PathsIn P) (D := P) hset.walk
  · intro u child hchild hu
    exact hu.intern hchild
  · exact hset.atRoot
  · exact id
  · exact ht

theorem findLoop_agree
    (hset : PathSet root P) (hagree : fs.AgreeOn P fs') (hi lo rounds : ℕ) (t : Table) :
    findLoop fs root hi lo rounds t = findLoop fs' root hi lo rounds t := by
  induction rounds generalizing t with
  | zero => rfl
  | succ rounds ih =>
      unfold findLoop
      rw [rebuild_agree hset hagree, ih]

theorem fhToPath_agree
    (hset : PathSet root P) (hagree : fs.AgreeOn P fs') (t : Table) (fh : Bytes) :
    fhToPath fs root t fh = fhToPath fs' root t fh := by
  unfold fhToPath fhToPathIn
  rw [findLoop_agree hset hagree]

theorem PathsIn.resolve
    (hset : PathSet root P) {t : Table} (ht : PathsIn P t) (fh : Bytes) :
    PathsIn P (fhToPath fs root t fh).2 := by
  rcases fhToPath_table t fh with h | h
  · rw [h]
    exact ht
  · rw [h]
    exact ht.rebuild hset

end Table

/-! ## The procedures -/

section Procs

variable {σ : Type} {os os' : Os σ} {ex : Export} {P : Bytes → Prop} {J : σ → Prop}

/-- The table is in step and in the set, and the file system has `J`. -/
structure Within (root : Bytes) (P : Bytes → Prop) (J : σ → Prop) (s : Srv σ) : Prop where
  ok : TableOk root s.table
  paths : PathsIn P s.table
  world : J s.world

/-- Two systems the server cannot tell apart, and a property it keeps. -/
structure Fenced (os os' : Os σ) (ex : Export) (P : Bytes → Prop) (J : σ → Prop) :
    Prop where
  root : ex.root ≠ []
  set : PathSet ex.root P
  agree : os.AgreeOn P os'
  stable : os.StableOn P J

theorem finishStatus_alike {α : Type} {I : Srv σ → Prop} {R : α → Prop} (out : XdrOut)
    (status : ℕ) :
    Alike I (finishStatus out status : NfsM σ α) (finishStatus out status) R :=
  Alike.throw _

theorem orDrop_alike {α : Type} {I : Srv σ → Prop} (o : Option α) :
    Alike I (orDrop o : NfsM σ α) (orDrop o) (fun _ => True) :=
  Alike.need fun _ _ => trivial

theorem okOr_alike {α : Type} {I : Srv σ → Prop} (out : XdrOut) (r : Except ℕ α) :
    Alike I (okOr out r : NfsM σ α) (okOr out r) (fun _ => True) := by
  cases r with
  | ok a => exact Alike.pure trivial
  | error e => exact finishStatus_alike out _

theorem look_alike {α : Type} {f : FsView → α}
    (hview : ∀ w, f (os.view w) = f (os'.view w)) :
    Alike (Within ex.root P J) (look os f) (look os' f) (fun _ => True) := by
  apply Alike.act
  · intro s _
    rw [hview]
  · intro s hs
    exact ⟨hs, trivial⟩

theorem change_alike {α : Type} {f g : σ → α × σ} (hfg : ∀ w, f w = g w)
    (hkeeps : ∀ w, J w → J (f w).2) :
    Alike (Within ex.root P J) (change f) (change g) (fun _ => True) := by
  apply Alike.act
  · intro s _
    rw [hfg]
  · intro s hs
    exact ⟨⟨hs.ok, hs.paths, hkeeps s.world hs.world⟩, trivial⟩

theorem changeIf_alike {c : Bool} {f g : σ → σ} (hfg : ∀ w, f w = g w)
    (hkeeps : ∀ w, J w → J (f w)) :
    Alike (Within ex.root P J) (changeIf c f) (changeIf c g) (fun _ => True) := by
  apply change_alike
  · intro w
    rw [hfg]
  · intro w hw
    dsimp only
    split_ifs
    · exact hkeeps w hw
    · exact hw

theorem makeFh_alike {path : Bytes} (hpath : P path) :
    Alike (Within ex.root P J) (makeFh ex path) (makeFh ex path) (fun _ => True) := by
  apply Alike.act
  · intro s _
    rfl
  · intro s hs
    exact ⟨⟨hs.ok.intern path, hs.paths.intern hpath, hs.world⟩, trivial⟩

section Blocks

variable (hf : Fenced os os' ex P J)
include hf

theorem resolveFh_alike (fh : Bytes) :
    Alike (Within ex.root P J) (resolveFh os ex fh) (resolveFh os' ex fh)
      (fun r => ∀ path, r = some path → P path) := by
  apply Alike.act
  · intro s _
    dsimp only
    rw [fhToPath_agree hf.set (hf.agree.view s.world)]
  · intro s hs
    have hpaths : PathsIn P (fhToPath (os.view s.world) ex.root s.table fh).2 :=
      hs.paths.resolve hf.set fh
    refine ⟨⟨(hs.ok.fhToPath fh).1, hpaths, hs.world⟩, ?_⟩
    intro path hpath
    exact hpaths path (fhToPath_mem hf.root hs.ok hpath)

theorem argFh_alike (input : Bytes) (out : XdrOut) :
    Alike (Within ex.root P J) (argFh os ex input out) (argFh os' ex input out)
      (fun r => P r.1) := by
  unfold argFh
  cases xdrGetFixed fhSize input with
  | none => exact finishStatus_alike out _
  | some p =>
      apply Alike.bind (resolveFh_alike hf p.1)
      intro r hr
      cases r with
      | none => exact finishStatus_alike out _
      | some path => exact Alike.pure (hr path rfl)

theorem argToDir_alike (input : Bytes) (out : XdrOut) :
    Alike (Within ex.root P J) (argToDir os ex input out) (argToDir os' ex input out)
      (fun r => P r.1) := by
  unfold argToDir
  apply Alike.bind (orDrop_alike _)
  intro p _
  apply Alike.bind (resolveFh_alike hf p.1)
  intro r hr
  cases r with
  | none => exact finishStatus_alike out _
  | some path => exact Alike.pure (hr path rfl)

theorem replyStatFattr_alike (out : XdrOut) {path : Bytes} (hpath : P path) :
    Alike (Within ex.root P J) (replyStatFattr os out path) (replyStatFattr os' out path)
      (fun _ => True) := by
  unfold replyStatFattr
  apply Alike.bind (look_alike fun w => (hf.agree.view w).lstat path hpath)
  intro r _
  apply Alike.bind (okOr_alike out r)
  intro st _
  exact Alike.pure trivial

end Blocks

/-- The same procedure on the two systems. -/
def ProcAlike (ex : Export) (P : Bytes → Prop) (J : σ → Prop)
    (fn fn' : Bytes → XdrOut → NfsM σ XdrOut) : Prop :=
  ∀ input out, Alike (Within ex.root P J) (fn input out) (fn' input out) (fun _ => True)

theorem pure_alike (f : XdrOut → XdrOut) :
    ProcAlike ex P J (fun _ out => (pure (f out) : NfsM σ XdrOut))
      (fun _ out => pure (f out)) :=
  fun _ _ => Alike.pure trivial

theorem pmapGetport_alike :
    ProcAlike ex P J (pmapGetport ex : Bytes → XdrOut → NfsM σ XdrOut) (pmapGetport ex) := by
  intro input out
  unfold pmapGetport
  apply Alike.bind (orDrop_alike _)
  intro words _
  exact Alike.pure trivial

section Fenced

variable (hf : Fenced os os' ex P J)
include hf

theorem mntMnt_alike : ProcAlike ex P J (mntMnt os ex) (mntMnt os' ex) := by
  intro input out
  unfold mntMnt
  apply Alike.bind (orDrop_alike _)
  rintro ⟨dir, rest⟩ _
  apply Alike.ite
  · intro _
    exact finishStatus_alike out _
  · intro _
    apply Alike.bind (look_alike fun w => (hf.agree.view w).stat ex.root hf.set.atRoot)
    intro st _
    cases st with
    | error e => exact finishStatus_alike out _
    | ok st =>
        apply Alike.ite
        · intro _
          apply Alike.bind (makeFh_alike hf.set.atRoot)
          intro fh _
          exact Alike.pure trivial
        · intro _
          exact finishStatus_alike out _

theorem nfsGetattr_alike : ProcAlike ex P J (nfsGetattr os ex) (nfsGetattr os' ex) := by
  intro input out
  unfold nfsGetattr
  apply Alike.bind (argFh_alike hf input out)
  intro p hp
  exact replyStatFattr_alike hf out hp

theorem nfsSetattr_alike : ProcAlike ex P J (nfsSetattr os ex) (nfsSetattr os' ex) := by
  intro input out
  unfold nfsSetattr
  apply Alike.bind (argFh_alike hf input out)
  intro p hp
  apply Alike.bind (orDrop_alike _)
  intro q _
  apply Alike.bind (changeIf_alike (fun w => hf.agree.chmod w _ _ hp)
    fun w hw => hf.stable.chmod w _ _ hp hw)
  intro _ _
  apply Alike.bind (changeIf_alike (fun w => hf.agree.truncate w _ _ hp)
    fun w hw => hf.stable.truncate w _ _ hp hw)
  intro _ _
  exact replyStatFattr_alike hf out hp

theorem nfsLookup_alike : ProcAlike ex P J (nfsLookup os ex) (nfsLookup os' ex) := by
  intro input out
  unfold nfsLookup
  apply Alike.bind (argFh_alike hf input out)
  rintro ⟨dir, rest⟩ hdir
  apply Alike.bind (orDrop_alike _)
  rintro ⟨name, rest⟩ _
  dsimp only
  cases hjoin : joinChild ex.root dir name pathMax with
  | none => exact finishStatus_alike out _
  | some child =>
      have hchild := hf.set.join _ _ _ hdir hjoin
      apply Alike.bind (look_alike fun w => (hf.agree.view w).lstat child hchild)
      intro r _
      apply Alike.bind (okOr_alike out r)
      intro st _
      apply Alike.bind (makeFh_alike hchild)
      intro fh _
      exact Alike.pure trivial

theorem nfsRead_alike : ProcAlike ex P J (nfsRead os ex) (nfsRead os' ex) := by
  intro input out
  unfold nfsRead
  apply Alike.bind (argFh_alike hf input out)
  intro p hp
  apply Alike.bind (orDrop_alike _)
  intro words _
  apply Alike.bind (look_alike fun w => by rw [(hf.agree.view w).readAt p.1 hp])
  intro r _
  apply Alike.bind (okOr_alike out r)
  intro st _
  exact Alike.pure trivial

theorem nfsWrite_alike : ProcAlike ex P J (nfsWrite os ex) (nfsWrite os' ex) := by
  intro input out
  unfold nfsWrite
  apply Alike.bind (argFh_alike hf input out)
  intro p hp
  apply Alike.bind (orDrop_alike _)
  intro words _
  apply Alike.bind (orDrop_alike _)
  intro data _
  apply Alike.bind (change_alike (fun w => hf.agree.writeAt w _ _ _ hp)
    fun w hw => hf.stable.writeAt w _ _ _ hp hw)
  intro r _
  apply Alike.bind (okOr_alike out r)
  intro st _
  exact Alike.pure trivial

theorem createCommon_alike (dirMode : Bool) :
    ProcAlike ex P J (createCommon os ex dirMode) (createCommon os' ex dirMode) := by
  intro input out
  unfold createCommon
  apply Alike.bind (argFh_alike hf input out)
  rintro ⟨dir, rest⟩ hdir
  apply Alike.bind (orDrop_alike _)
  rintro ⟨name, rest⟩ _
  apply Alike.bind (orDrop_alike _)
  rintro ⟨words, rest⟩ _
  dsimp only
  cases hjoin : joinChild ex.root dir name pathMax with
  | none => exact finishStatus_alike out _
  | some child =>
      have hchild := hf.set.join _ _ _ hdir hjoin
      apply Alike.bind
      · apply change_alike
        · intro w
          rw [hf.agree.mkdir w _ _ hchild, hf.agree.creat w _ _ hchild]
        · intro w hw
          cases dirMode with
          | false => exact hf.stable.creat w _ _ hchild hw
          | true => exact hf.stable.mkdir w _ _ hchild hw
      intro r _
      apply Alike.bind (okOr_alike out r)
      intro _ _
      apply Alike.bind (look_alike fun w => (hf.agree.view w).lstat child hchild)
      intro st _
      cases st with
      | error e => exact finishStatus_alike out _
      | ok st =>
          apply Alike.bind (makeFh_alike hchild)
          intro fh _
          exact Alike.pure trivial

theorem removeCommon_alike (isDir : Bool) :
    ProcAlike ex P J (removeCommon os ex isDir) (removeCommon os' ex isDir) := by
  intro input out
  unfold removeCommon
  apply Alike.bind (argFh_alike hf input out)
  rintro ⟨dir, rest⟩ hdir
  apply Alike.bind (orDrop_alike _)
  rintro ⟨name, rest⟩ _
  dsimp only
  cases hjoin : joinChild ex.root dir name pathMax with
  | none => exact finishStatus_alike out _
  | some child =>
      have hchild := hf.set.join _ _ _ hdir hjoin
      apply Alike.bind
      · apply change_alike
        · intro w
          rw [hf.agree.rmdir w _ hchild, hf.agree.unlink w _ hchild]
        · intro w hw
          split_ifs
          · exact hf.stable.rmdir w _ hchild hw
          · exact hf.stable.unlink w _ hchild hw
      intro rc _
      exact Alike.pure trivial

theorem nfsRename_alike : ProcAlike ex P J (nfsRename os ex) (nfsRename os' ex) := by
  intro input out
  unfold nfsRename
  apply Alike.bind (argFh_alike hf input out)
  rintro ⟨fromdir, rest⟩ hfromdir
  apply Alike.bind (orDrop_alike _)
  rintro ⟨fname, rest⟩ _
  apply Alike.bind (argToDir_alike hf _ out)
  rintro ⟨todir, rest⟩ htodir
  apply Alike.bind (orDrop_alike _)
  rintro ⟨tname, rest⟩ _
  dsimp only
  cases hfrom : joinChild ex.root fromdir fname pathMax with
  | none => exact finishStatus_alike out _
  | some fpath =>
      cases hto : joinChild ex.root todir tname pathMax with
      | none => exact finishStatus_alike out _
      | some tpath =>
          have hfpath := hf.set.join _ _ _ hfromdir hfrom
          have htpath := hf.set.join _ _ _ htodir hto
          apply Alike.bind (change_alike (fun w => hf.agree.rename w _ _ hfpath htpath)
            fun w hw => hf.stable.rename w _ _ hfpath htpath hw)
          intro rc _
          exact Alike.pure trivial

theorem nfsLink_alike : ProcAlike ex P J (nfsLink os ex) (nfsLink os' ex) := by
  intro input out
  unfold nfsLink
  apply Alike.bind (argFh_alike hf input out)
  rintro ⟨path, rest⟩ hpath
  apply Alike.bind (argToDir_alike hf _ out)
  rintro ⟨todir, rest⟩ htodir
  apply Alike.bind (orDrop_alike _)
  rintro ⟨tname, rest⟩ _
  dsimp only
  cases hto : joinChild ex.root todir tname pathMax with
  | none => exact finishStatus_alike out _
  | some tpath =>
      have htpath := hf.set.join _ _ _ htodir hto
      apply Alike.bind (change_alike (fun w => hf.agree.link w _ _ hpath htpath)
        fun w hw => hf.stable.link w _ _ hpath htpath hw)
      intro rc _
      exact Alike.pure trivial

theorem nfsReadlink_alike : ProcAlike ex P J (nfsReadlink os ex) (nfsReadlink os' ex) := by
  intro input out
  unfold nfsReadlink
  apply Alike.bind (argFh_alike hf input out)
  intro p hp
  apply Alike.bind (look_alike fun w => (hf.agree.view w).readlink p.1 hp)
  intro r _
  apply Alike.bind (okOr_alike out r)
  intro target _
  exact Alike.pure trivial

theorem nfsSymlink_alike : ProcAlike ex P J (nfsSymlink os ex) (nfsSymlink os' ex) := by
  intro input out
  unfold nfsSymlink
  apply Alike.bind (argFh_alike hf input out)
  rintro ⟨dir, rest⟩ hdir
  apply Alike.bind (orDrop_alike _)
  rintro ⟨name, rest⟩ _
  apply Alike.bind (orDrop_alike _)
  rintro ⟨target, rest⟩ _
  apply Alike.bind (orDrop_alike _)
  intro _ _
  cases hjoin : joinChild ex.root dir name pathMax with
  | none => exact finishStatus_alike out _
  | some child =>
      have hchild := hf.set.join _ _ _ hdir hjoin
      apply Alike.bind (change_alike (fun w => hf.agree.symlink w target _ hchild)
        fun w hw => hf.stable.symlink w target _ hchild hw)
      intro rc _
      exact Alike.pure trivial

theorem nfsStatfs_alike : ProcAlike ex P J (nfsStatfs os ex) (nfsStatfs os' ex) := by
  intro input out
  unfold nfsStatfs
  apply Alike.bind (argFh_alike hf input out)
  intro p hp
  apply Alike.bind (look_alike fun w => (hf.agree.view w).statvfs p.1 hp)
  intro r _
  apply Alike.bind (okOr_alike out r)
  intro vf _
  exact Alike.pure trivial

theorem readdirLoop_agree
    {fs fs' : FsView} (hagree : fs.AgreeOn P fs') {path : Bytes} (hpath : P path)
    (cookie cap : ℕ) (names : List Bytes) (idx dirbytes : ℕ) (out : XdrOut) :
    readdirLoop fs ex.root path cookie cap names idx dirbytes out =
      readdirLoop fs' ex.root path cookie cap names idx dirbytes out := by
  induction names generalizing idx dirbytes out with
  | nil => rfl
  | cons name names ih =>
      rw [readdirLoop, readdirLoop]
      cases hjoin : joinChild ex.root path name pathMax with
      | none => simp only [ih]
      | some child =>
          have hchild := hf.set.join _ _ _ hpath hjoin
          simp only [hagree.lstat child hchild, ih]

theorem nfsReaddir_alike : ProcAlike ex P J (nfsReaddir os ex) (nfsReaddir os' ex) := by
  intro input out
  unfold nfsReaddir
  apply Alike.bind (argFh_alike hf input out)
  intro p hp
  apply Alike.bind (orDrop_alike _)
  intro words _
  apply Alike.bind (look_alike fun w => (hf.agree.view w).opendir p.1 hp)
  intro r _
  apply Alike.bind (okOr_alike out r)
  intro stream _
  apply look_alike
  intro w
  unfold readdirReply
  rw [readdirLoop_agree hf (hf.agree.view w) hp]

/-! ## Datagrams -/

/-- The same route on the two systems. -/
structure RouteAlike (ex : Export) (P : Bytes → Prop) (J : σ → Prop) (r r' : Route σ) :
    Prop where
  prog : r.prog = r'.prog
  vers : r.vers = r'.vers
  proc : r.proc = r'.proc
  cache : r.cache = r'.cache
  fn : ProcAlike ex P J r.fn r'.fn

theorem routes_alike :
    List.Forall₂ (RouteAlike ex P J) (gnRoutes os ex) (gnRoutes os' ex) := by
  have hroute : ∀ {prog vers proc : ℕ} {fn fn' : Bytes → XdrOut → NfsM σ XdrOut}
      {cache : Bool}, ProcAlike ex P J fn fn' →
        RouteAlike ex P J ⟨prog, vers, proc, fn, cache⟩ ⟨prog, vers, proc, fn', cache⟩ :=
    fun h => ⟨rfl, rfl, rfl, rfl, h⟩
  unfold gnRoutes
  simp only [List.forall₂_cons]
  exact ⟨hroute (pure_alike id), hroute pmapGetport_alike, hroute (pure_alike id),
    hroute (mntMnt_alike hf), hroute (pure_alike id), hroute (pure_alike _),
    hroute (pure_alike id), hroute (nfsGetattr_alike hf), hroute (nfsSetattr_alike hf),
    hroute (nfsLookup_alike hf), hroute (nfsReadlink_alike hf), hroute (nfsRead_alike hf),
    hroute (nfsWrite_alike hf), hroute (createCommon_alike hf false),
    hroute (removeCommon_alike hf false), hroute (nfsRename_alike hf),
    hroute (nfsLink_alike hf), hroute (nfsSymlink_alike hf),
    hroute (createCommon_alike hf true), hroute (removeCommon_alike hf true),
    hroute (nfsReaddir_alike hf), hroute (nfsStatfs_alike hf), .nil⟩

omit hf in
theorem matchRoute_alike
    {routes routes' : List (Route σ)} (h : List.Forall₂ (RouteAlike ex P J) routes routes')
    (c : RpcCall) :
    (matchRoute routes c = none ∧ matchRoute routes' c = none) ∨
      ∃ r r', matchRoute routes c = some r ∧ matchRoute routes' c = some r' ∧
        RouteAlike ex P J r r' := by
  have hserved := List.rel_filter (R := RouteAlike ex P J)
    (p := fun r => r.prog = c.prog ∧ r.vers = c.vers ∧ r.proc = c.proc)
    (q := fun r => r.prog = c.prog ∧ r.vers = c.vers ∧ r.proc = c.proc)
    (by
      intro r r' hr
      simp only [hr.prog, hr.vers, hr.proc]) h
  unfold matchRoute
  rw [List.getLast?_eq_head?_reverse, List.getLast?_eq_head?_reverse]
  rw [← List.forall₂_reverse_iff] at hserved
  generalize (List.filter _ routes).reverse = served at hserved
  generalize (List.filter _ routes').reverse = served' at hserved
  cases hserved with
  | nil => exact Or.inl ⟨rfl, rfl⟩
  | cons hr _ => exact Or.inr ⟨_, _, rfl, rfl, hr⟩

omit hf in
/-- The answer to a call without a route is the same for the same programs
and versions. -/
theorem refuse_alike
    {routes routes' : List (Route σ)} (h : List.Forall₂ (RouteAlike ex P J) routes routes')
    (c : RpcCall) (out : XdrOut) : refuse routes c out = refuse routes' c out := by
  have hserved := List.rel_filter (R := RouteAlike ex P J)
    (p := fun r => r.prog = c.prog) (q := fun r => r.prog = c.prog)
    (by
      intro r r' hr
      simp only [hr.prog]) h
  have hvers : (routes.filter fun r => r.prog = c.prog).map Route.vers =
      (routes'.filter fun r => r.prog = c.prog).map Route.vers := by
    generalize (routes.filter fun r => r.prog = c.prog) = served at hserved
    generalize (routes'.filter fun r => r.prog = c.prog) = served' at hserved
    induction hserved with
    | nil => rfl
    | cons hr _ ih => rw [List.map_cons, List.map_cons, hr.vers, ih]
  have hempty : ∀ served : List (Route σ),
      served.isEmpty = (served.map Route.vers).isEmpty := by simp
  have hany : ∀ served : List (Route σ), (served.any fun r => r.vers = c.vers) =
      (served.map Route.vers).any (· = c.vers) := by
    intro served
    rw [List.any_map]
    rfl
  unfold refuse
  dsimp only
  rw [hempty, hany, hvers, ← hempty, ← hany]

omit hf in
theorem runRoute_alike
    {r r' : Route σ} (hr : RouteAlike ex P J r r') (c : RpcCall) (rest : Bytes)
    {srv : Srv σ} (hsrv : Within ex.root P J srv) :
    runRoute r c rest srv = runRoute r' c rest srv ∧
      Within ex.root P J (runRoute r c rest srv).2 := by
  obtain ⟨heq, hkept, -⟩ :=
    hr.fn rest (replyHead c.xid 0 (xdrInit rpcBufSize)) srv hsrv
  unfold runRoute
  rw [← heq]
  refine ⟨rfl, ?_⟩
  cases hexec : exec (r.fn rest (replyHead c.xid 0 (xdrInit rpcBufSize))) srv with
  | mk out srv' =>
      rw [hexec] at hkept
      cases out with
      | ok out => exact hkept
      | error exit => exact hkept

/-- One datagram: the same on both systems, and nothing leaves the set. -/
theorem handleOne_alike
    {s : Rpc σ} (hs : Within ex.root P J s.srv) (dg : Datagram σ)
    (hout : ∀ w, J w → J (dg.outside w)) :
    handleOne (gnRoutes os ex) s dg = handleOne (gnRoutes os' ex) s dg ∧
      Within ex.root P J (handleOne (gnRoutes os ex) s dg).1.srv := by
  have harrive : Within ex.root P J { s.srv with world := dg.outside s.srv.world } :=
    ⟨hs.ok, hs.paths, hout _ hs.world⟩
  unfold handleOne
  cases rpcParseCall dg.data with
  | none => exact ⟨rfl, harrive⟩
  | some p =>
      obtain ⟨c, rest⟩ := p
      dsimp only
      rcases matchRoute_alike (routes_alike hf) c with ⟨hnone, hnone'⟩ |
          ⟨r, r', hsome, hsome', hr⟩
      · rw [hnone, hnone', refuse_alike (routes_alike hf)]
        exact ⟨rfl, harrive⟩
      · obtain ⟨hrun, hwithin⟩ := runRoute_alike hr c rest harrive
        rw [hsome, hsome']
        dsimp only
        rw [← hr.cache, ← hrun]
        refine ⟨rfl, ?_⟩
        split
        · exact harrive
        · split
          · exact hwithin
          · split_ifs
            · exact hwithin
            · exact hwithin

theorem serve_alike
    {s : Rpc σ} (hs : Within ex.root P J s.srv) (dgs : List (Datagram σ))
    (hout : ∀ dg ∈ dgs, ∀ w, J w → J (dg.outside w)) :
    serve (gnRoutes os ex) s dgs = serve (gnRoutes os' ex) s dgs ∧
      handledOf (gnRoutes os ex) s dgs = handledOf (gnRoutes os' ex) s dgs ∧
      Within ex.root P J (serve (gnRoutes os ex) s dgs).srv := by
  induction dgs generalizing s with
  | nil =>
      rw [serve_nil, serve_nil, handledOf, handledOf]
      exact ⟨rfl, rfl, hs⟩
  | cons dg dgs ih =>
      obtain ⟨hdg, hdgs⟩ := List.forall_mem_cons.mp hout
      obtain ⟨hone, hwithin⟩ := handleOne_alike hf hs dg hdg
      obtain ⟨hserve, hhandled, hrest⟩ := ih hwithin hdgs
      rw [serve_cons, serve_cons, handledOf, handledOf, ← hone]
      exact ⟨hserve, by rw [hhandled], hrest⟩

end Fenced

end Procs

/-! ## The export -/

/-- A component a path of the export may have. -/
def OrdinaryName (c : Bytes) : Prop := CompOk c ∧ c ≠ [dot] ∧ c ≠ [dot, dot]

/-- The root followed by ordinary components. -/
def Confined (root path : Bytes) : Prop := Below OrdinaryName root path

theorem confined_pathSet {root : Bytes} (hroot : RootOk root) :
    PathSet root (Confined root) where
  atRoot := below_root OrdinaryName root
  join _ _ _ hdir hjoin := joinChild_below (fun _ hc => hc.1.2) hroot.ne_nil hdir
    (fun hname hdot hdots => ⟨hname, hdot, hdots⟩) hjoin
  walk _ _ hdir hname hdot hdots := walkChild_below (fun _ hc => hc.1) hroot hdir
    ⟨hname.compOk, hdot, hdots⟩

theorem Os.AgreeOn.refl {σ : Type} (P : Bytes → Prop) (os : Os σ) : os.AgreeOn P os where
  view _ := ⟨fun _ _ => rfl, fun _ _ => rfl, fun _ _ => rfl, fun _ _ => rfl,
    fun _ _ => rfl, fun _ _ => rfl⟩
  chmod _ _ _ _ := rfl
  truncate _ _ _ _ := rfl
  writeAt _ _ _ _ _ := rfl
  mkdir _ _ _ _ := rfl
  creat _ _ _ _ := rfl
  unlink _ _ _ := rfl
  rmdir _ _ _ := rfl
  rename _ _ _ _ _ := rfl
  link _ _ _ _ _ := rfl
  symlink _ _ _ _ := rfl

theorem Os.StableOn.trivial {σ : Type} (P : Bytes → Prop) (os : Os σ) :
    os.StableOn P fun _ => True := by
  constructor <;> intros <;> exact True.intro

/-- Over every run of a server on an export other than `/`: the handle table
holds confined paths only; the server cannot tell two systems apart that agree
on the confined paths; and what every call on confined paths keeps, it
keeps. -/
theorem export_confined
    {σ : Type} (os : Os σ) (port : ℕ) (abs : Bytes) (habs : abs.head? = some slash)
    (hne : fhSetRoot abs ≠ [slash]) (w : σ) (dgs : List (Datagram σ)) :
    (∀ path ∈ (serve (gnRoutes os ⟨fhSetRoot abs, port⟩) (Rpc.start w) dgs).srv.table.paths,
      Confined (fhSetRoot abs) path) ∧
    (∀ os' : Os σ, os.AgreeOn (Confined (fhSetRoot abs)) os' →
      serve (gnRoutes os ⟨fhSetRoot abs, port⟩) (Rpc.start w) dgs =
          serve (gnRoutes os' ⟨fhSetRoot abs, port⟩) (Rpc.start w) dgs ∧
        handledOf (gnRoutes os ⟨fhSetRoot abs, port⟩) (Rpc.start w) dgs =
          handledOf (gnRoutes os' ⟨fhSetRoot abs, port⟩) (Rpc.start w) dgs) ∧
    (∀ J : σ → Prop, os.StableOn (Confined (fhSetRoot abs)) J →
      (∀ dg ∈ dgs, ∀ v, J v → J (dg.outside v)) → J w →
        J (serve (gnRoutes os ⟨fhSetRoot abs, port⟩) (Rpc.start w) dgs).srv.world) := by
  have hroot := fhSetRoot_ok habs hne
  have hset := confined_pathSet hroot
  have hstart : ∀ J : σ → Prop, J w →
      Within (fhSetRoot abs) (Confined (fhSetRoot abs)) J (Rpc.start w).srv := fun J hw =>
    ⟨tableOk_empty _, by simp [PathsIn, Rpc.start, Table.empty], hw⟩
  refine ⟨?_, ?_, ?_⟩
  · have hfence : Fenced os os ⟨fhSetRoot abs, port⟩ (Confined (fhSetRoot abs))
        (fun _ => True) := ⟨hroot.ne_nil, hset, .refl _ os, .trivial _ os⟩
    exact (serve_alike hfence (hstart _ True.intro) dgs
      fun _ _ _ _ => True.intro).2.2.paths
  · intro os' hagree
    have hfence : Fenced os os' ⟨fhSetRoot abs, port⟩ (Confined (fhSetRoot abs))
        (fun _ => True) := ⟨hroot.ne_nil, hset, hagree, .trivial _ os⟩
    have hrun := serve_alike hfence (hstart _ True.intro) dgs fun _ _ _ _ => True.intro
    exact ⟨hrun.1, hrun.2.1⟩
  · intro J hstable hout hw
    have hfence : Fenced os os ⟨fhSetRoot abs, port⟩ (Confined (fhSetRoot abs)) J :=
      ⟨hroot.ne_nil, hset, .refl _ os, hstable⟩
    exact (serve_alike hfence (hstart J hw) dgs hout).2.2.world

/-- The path of a file that was looked up, on a root written with a slash at
its end. -/
theorem export_confined_flat :
    Confined (fhSetRoot (ascii "/r/")) (ascii "/r/as") :=
  (export_confined flatOs 2049 (ascii "/r/") rfl (by decide) twinFiles
    [mountCall, lookupCall (ascii "as"), lookupCall [dot, dot]]).1 (ascii "/r/as")
    (by decide +kernel)

end GrandCross
