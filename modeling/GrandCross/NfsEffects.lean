import GrandCross.DupCache

/-!
# What a call does to the file system

Every call of the server makes at most one change, on a path it has resolved
or joined: the inversion of the whole route table, one case for each kind of
change.
-/

namespace GrandCross

open CText EarlyExit

section Effects

variable {σ : Type} (os : Os σ) (ex : Export)

/-- The file system behind a call of an NFS procedure. -/
inductive NfsEffect (s : Srv σ) (args : Bytes) : ℕ → σ → Prop where
  | quiet (proc : ℕ) : NfsEffect s args proc s.world
  | setattr (path : Bytes) (mode size : ℕ) (setMode setSize : Bool) :
      NfsEffect s args 2
        (if setSize then
          os.truncate (if setMode then os.chmod s.world path mode else s.world) path size
        else if setMode then os.chmod s.world path mode else s.world)
  | write (path data : Bytes) (off : ℕ) :
      NfsEffect s args 8 (os.writeAt s.world path data off).2
  | create {dir name rest child : Bytes} {t : Table} (mode : ℕ)
      (hreads : ReadsEntry (os.view s.world) ex.root s.table args dir name rest t)
      (hjoin : joinChild ex.root dir name pathMax = some child) :
      NfsEffect s args 9 (os.creat s.world child mode).2
  | remove {dir name rest child : Bytes} {t : Table}
      (hreads : ReadsEntry (os.view s.world) ex.root s.table args dir name rest t)
      (hjoin : joinChild ex.root dir name pathMax = some child) :
      NfsEffect s args 10 (os.unlink s.world child).2
  | rename {fromdir fname rest fpath todir tname rest' tpath : Bytes} {t t' : Table}
      (hfrom : ReadsEntry (os.view s.world) ex.root s.table args fromdir fname rest t)
      (hto : ReadsEntry (os.view s.world) ex.root t rest todir tname rest' t')
      (hjoin : joinChild ex.root fromdir fname pathMax = some fpath)
      (hjoin' : joinChild ex.root todir tname pathMax = some tpath) :
      NfsEffect s args 11 (os.rename s.world fpath tpath).2
  | link {path rest todir tname rest' tpath : Bytes} {t t' : Table}
      (hfrom : ReadsFh (os.view s.world) ex.root s.table args path rest t)
      (hto : ReadsEntry (os.view s.world) ex.root t rest todir tname rest' t')
      (hjoin : joinChild ex.root todir tname pathMax = some tpath) :
      NfsEffect s args 12 (os.link s.world path tpath).2
  | symlink {dir name rest child : Bytes} {t : Table} (target : Bytes)
      (hreads : ReadsEntry (os.view s.world) ex.root s.table args dir name rest t)
      (hjoin : joinChild ex.root dir name pathMax = some child) :
      NfsEffect s args 13 (os.symlink s.world target child).2
  | mkdir {dir name rest child : Bytes} {t : Table} (mode : ℕ)
      (hreads : ReadsEntry (os.view s.world) ex.root s.table args dir name rest t)
      (hjoin : joinChild ex.root dir name pathMax = some child) :
      NfsEffect s args 14 (os.mkdir s.world child mode).2
  | rmdir {dir name rest child : Bytes} {t : Table}
      (hreads : ReadsEntry (os.view s.world) ex.root s.table args dir name rest t)
      (hjoin : joinChild ex.root dir name pathMax = some child) :
      NfsEffect s args 15 (os.rmdir s.world child).2

/-- The procedure leaves the file system as `NfsEffect` says. -/
def HasEffect (proc : ℕ) (fn : Bytes → XdrOut → NfsM σ XdrOut) : Prop :=
  ∀ args out s, Ends (fn args out) s fun _ s' => NfsEffect os ex s args proc s'.world

variable {os ex}

theorem nfsGetattr_effect : HasEffect os ex 1 (nfsGetattr os ex) := by
  intro args out s
  apply argFh_ends
  · intro t
    exact .quiet 1
  intro path rest t _
  apply Ends.act_bind
  apply okOr_ends
  · intro e _
    exact .quiet 1
  intro st _
  exact .quiet 1

theorem nfsSetattr_effect : HasEffect os ex 2 (nfsSetattr os ex) := by
  intro args out s
  apply argFh_ends
  · intro t
    exact .quiet 2
  intro path rest t _
  apply Ends.need_bind
  · exact .quiet 2
  rintro ⟨words, rest'⟩ _
  apply Ends.act_bind
  apply Ends.act_bind
  apply Ends.act_bind
  apply okOr_ends
  · intro e _
    exact .setattr path _ _ _ _
  intro st _
  exact .setattr path _ _ _ _

theorem nfsLookup_effect : HasEffect os ex 4 (nfsLookup os ex) := by
  intro args out s
  apply argFh_ends
  · intro t
    exact .quiet 4
  intro dir rest t _
  apply Ends.need_bind
  · exact .quiet 4
  rintro ⟨name, rest'⟩ _
  dsimp only
  cases joinChild ex.root dir name pathMax with
  | none => exact .quiet 4
  | some child =>
      apply Ends.act_bind
      apply okOr_ends
      · intro e _
        exact .quiet 4
      intro st _
      apply Ends.act_bind
      exact .quiet 4

theorem nfsReadlink_effect : HasEffect os ex 5 (nfsReadlink os ex) := by
  intro args out s
  apply argFh_ends
  · intro t
    exact .quiet 5
  intro path rest t _
  apply Ends.act_bind
  apply okOr_ends
  · intro e _
    exact .quiet 5
  intro target _
  exact .quiet 5

theorem nfsRead_effect : HasEffect os ex 6 (nfsRead os ex) := by
  intro args out s
  apply argFh_ends
  · intro t
    exact .quiet 6
  intro path rest t _
  apply Ends.need_bind
  · exact .quiet 6
  rintro ⟨words, rest'⟩ _
  apply Ends.act_bind
  apply okOr_ends
  · intro e _
    exact .quiet 6
  intro data _
  exact .quiet 6

theorem nfsWrite_effect : HasEffect os ex 8 (nfsWrite os ex) := by
  intro args out s
  apply argFh_ends
  · intro t
    exact .quiet 8
  intro path rest t _
  apply Ends.need_bind
  · exact .quiet 8
  rintro ⟨words, rest'⟩ _
  apply Ends.need_bind
  · exact .quiet 8
  rintro ⟨data, rest''⟩ _
  apply Ends.act_bind
  apply okOr_ends
  · intro e _
    exact .write path data _
  intro st _
  exact .write path data _

/-- CREATE and MKDIR differ in the call they make. -/
theorem createCommon_effect (dirMode : Bool) :
    HasEffect os ex (if dirMode then 14 else 9) (createCommon os ex dirMode) := by
  intro args out s
  apply argFh_ends
  · intro t
    exact .quiet _
  intro dir mid t hfh
  apply Ends.need_bind
  · exact .quiet _
  rintro ⟨name, rest⟩ hname
  apply Ends.need_bind
  · exact .quiet _
  rintro ⟨words, rest'⟩ _
  have hreads : ReadsEntry (os.view s.world) ex.root s.table args dir name rest t :=
    ⟨mid, hfh, hname⟩
  dsimp only
  cases hjoin : joinChild ex.root dir name pathMax with
  | none => exact .quiet _
  | some child =>
      have hcall : ∀ mode, NfsEffect os ex s args (if dirMode then 14 else 9)
          ((if dirMode then os.mkdir s.world child mode else os.creat s.world child mode).2) := by
        intro mode
        cases dirMode with
        | true => exact .mkdir mode hreads hjoin
        | false => exact .create mode hreads hjoin
      apply Ends.act_bind
      apply okOr_ends
      · intro e _
        exact hcall _
      intro _ _
      apply Ends.act_bind
      dsimp only
      cases (os.view _).lstat child with
      | error e => exact hcall _
      | ok st =>
          apply Ends.act_bind
          exact hcall _

theorem removeCommon_effect (isDir : Bool) :
    HasEffect os ex (if isDir then 15 else 10) (removeCommon os ex isDir) := by
  intro args out s
  apply argFh_ends
  · intro t
    exact .quiet _
  intro dir mid t hfh
  apply Ends.need_bind
  · exact .quiet _
  rintro ⟨name, rest⟩ hname
  have hreads : ReadsEntry (os.view s.world) ex.root s.table args dir name rest t :=
    ⟨mid, hfh, hname⟩
  dsimp only
  cases hjoin : joinChild ex.root dir name pathMax with
  | none => exact .quiet _
  | some child =>
      apply Ends.act_bind
      cases isDir with
      | true => exact .rmdir hreads hjoin
      | false => exact .remove hreads hjoin

theorem nfsRename_effect : HasEffect os ex 11 (nfsRename os ex) := by
  intro args out s
  apply argFh_ends
  · intro t
    exact .quiet 11
  intro fromdir mid t hfh
  apply Ends.need_bind
  · exact .quiet 11
  rintro ⟨fname, rest⟩ hfname
  apply argToDir_ends
  · exact .quiet 11
  · intro t'
    exact .quiet 11
  intro todir mid' t' hfh'
  apply Ends.need_bind
  · exact .quiet 11
  rintro ⟨tname, rest'⟩ htname
  dsimp only
  cases hjoin : joinChild ex.root fromdir fname pathMax with
  | none => exact .quiet 11
  | some fpath =>
      cases hjoin' : joinChild ex.root todir tname pathMax with
      | none => exact .quiet 11
      | some tpath =>
          apply Ends.act_bind
          exact .rename ⟨mid, hfh, hfname⟩ ⟨mid', hfh', htname⟩ hjoin hjoin'

theorem nfsLink_effect : HasEffect os ex 12 (nfsLink os ex) := by
  intro args out s
  apply argFh_ends
  · intro t
    exact .quiet 12
  intro path rest t hfh
  apply argToDir_ends
  · exact .quiet 12
  · intro t'
    exact .quiet 12
  intro todir mid t' hfh'
  apply Ends.need_bind
  · exact .quiet 12
  rintro ⟨tname, rest'⟩ htname
  dsimp only
  cases hjoin : joinChild ex.root todir tname pathMax with
  | none => exact .quiet 12
  | some tpath =>
      apply Ends.act_bind
      exact .link hfh ⟨mid, hfh', htname⟩ hjoin

theorem nfsSymlink_effect : HasEffect os ex 13 (nfsSymlink os ex) := by
  intro args out s
  apply argFh_ends
  · intro t
    exact .quiet 13
  intro dir mid t hfh
  apply Ends.need_bind
  · exact .quiet 13
  rintro ⟨name, rest⟩ hname
  apply Ends.need_bind
  · exact .quiet 13
  rintro ⟨target, rest'⟩ _
  apply Ends.need_bind
  · exact .quiet 13
  intro words _
  cases hjoin : joinChild ex.root dir name pathMax with
  | none => exact .quiet 13
  | some child =>
      apply Ends.act_bind
      exact .symlink target ⟨mid, hfh, hname⟩ hjoin

theorem nfsReaddir_effect : HasEffect os ex 16 (nfsReaddir os ex) := by
  intro args out s
  apply argFh_ends
  · intro t
    exact .quiet 16
  intro path rest t _
  apply Ends.need_bind
  · exact .quiet 16
  rintro ⟨words, rest'⟩ _
  apply Ends.act_bind
  apply okOr_ends
  · intro e _
    exact .quiet 16
  intro stream _
  exact .quiet 16

theorem nfsStatfs_effect : HasEffect os ex 17 (nfsStatfs os ex) := by
  intro args out s
  apply argFh_ends
  · intro t
    exact .quiet 17
  intro path rest t _
  apply Ends.act_bind
  apply okOr_ends
  · intro e _
    exact .quiet 17
  intro vf _
  exact .quiet 17

theorem pmapGetport_effect : HasEffect os ex 0 (pmapGetport ex) := by
  intro args out s
  apply Ends.need_bind
  · exact .quiet 0
  intro words _
  exact .quiet 0

theorem mntMnt_effect : HasEffect os ex 0 (mntMnt os ex) := by
  intro args out s
  apply Ends.need_bind
  · exact .quiet 0
  rintro ⟨dir, rest⟩ _
  dsimp only
  split_ifs
  · exact .quiet 0
  · apply Ends.act_bind
    dsimp only
    cases (os.view s.world).stat ex.root with
    | error e => exact .quiet 0
    | ok st =>
        dsimp only
        split_ifs
        · apply Ends.act_bind
          exact .quiet 0
        · exact .quiet 0

theorem pure_effect (proc : ℕ) (f : XdrOut → XdrOut) :
    HasEffect os ex proc (fun _ out => (pure (f out) : NfsM σ XdrOut)) :=
  fun _ _ _ => .quiet proc

/-- The NFS procedure of a call; the calls of the other programs count as
`NULL`. -/
def nfsProcOf (prog proc : ℕ) : ℕ := if prog = nfsProg then proc else 0

theorem route_effect :
    ∀ r ∈ gnRoutes os ex, HasEffect os ex (nfsProcOf r.prog r.proc) r.fn := by
  unfold gnRoutes
  simp only [List.forall_mem_cons]
  exact ⟨pure_effect 0 id, pmapGetport_effect, pure_effect 0 id, mntMnt_effect,
    pure_effect 0 id, pure_effect 0 _, pure_effect 0 id, nfsGetattr_effect,
    nfsSetattr_effect, nfsLookup_effect, nfsReadlink_effect, nfsRead_effect,
    nfsWrite_effect, createCommon_effect false, removeCommon_effect false,
    nfsRename_effect, nfsLink_effect, nfsSymlink_effect, createCommon_effect true,
    removeCommon_effect true, nfsReaddir_effect, nfsStatfs_effect,
    fun _ h => absurd h List.not_mem_nil⟩

theorem runRoute_effect
    {r : Route σ} (hr : r ∈ gnRoutes os ex) (c : RpcCall) (args : Bytes) (srv : Srv σ) :
    NfsEffect os ex srv args (nfsProcOf r.prog r.proc) (runRoute r c args srv).2.world := by
  have heffect := route_effect r hr args (replyHead c.xid 0 (xdrInit rpcBufSize)) srv
  unfold Ends at heffect
  unfold runRoute
  cases hexec : exec (r.fn args (replyHead c.xid 0 (xdrInit rpcBufSize))) srv with
  | mk res srv' =>
      rw [hexec] at heffect
      cases res with
      | ok out => exact heffect
      | error exit => exact heffect

variable (os ex) in
/-- What a datagram does to the file system it finds. -/
theorem handleOne_effect
    (s : Rpc σ) {dg : Datagram σ} {c : RpcCall} {args : Bytes}
    (hparse : rpcParseCall dg.data = some (c, args)) :
    NfsEffect os ex (s.arrive dg).srv args (nfsProcOf c.prog c.proc)
      (handleOne (gnRoutes os ex) s dg).1.srv.world := by
  have hquiet : NfsEffect os ex (s.arrive dg).srv args (nfsProcOf c.prog c.proc)
      (dg.outside s.srv.world) := .quiet _
  cases hroute : matchRoute (gnRoutes os ex) c with
  | none =>
      unfold handleOne
      simp only [hparse, hroute]
      exact hquiet
  | some r =>
      obtain ⟨hprog, hproc⟩ := matchRoute_spec hroute
      by_cases hhit : r.cache = true ∧ drcLookup s.drc dg.peer c.xid dg.now ≠ none
      · obtain ⟨hcache, hlook⟩ := hhit
        obtain ⟨hit, hhit⟩ := Option.ne_none_iff_exists'.mp hlook
        rw [handleOne_hit (cachedXid_of_route hparse hroute hcache) hhit]
        exact hquiet
      · have hmiss : r.cache = true → drcLookup s.drc dg.peer c.xid dg.now = none := by
          intro hcache
          by_contra hlook
          exact hhit ⟨hcache, hlook⟩
        rw [(handleOne_run hparse hroute hmiss).1, ← hprog, ← hproc]
        exact runRoute_effect (matchRoute_mem hroute) c args _

variable (os ex) in
/-- A datagram that is no call does nothing. -/
theorem handleOne_unparsed
    (s : Rpc σ) {dg : Datagram σ} (hparse : rpcParseCall dg.data = none) :
    (handleOne (gnRoutes os ex) s dg).1.srv.world = dg.outside s.srv.world := by
  unfold handleOne
  rw [hparse]

end Effects

end GrandCross
