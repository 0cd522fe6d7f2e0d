import GrandCross.RpcServe

/-!
# What the NFS procedures keep and how much they write

One triple for each procedure.  The invariant of the state and the set of
paths are parameters: every procedure touches the handle table only by
resolving a handle, and by issuing one for the root or for a child of a
resolved directory.  Procedures that change the file system answer with at
most a status, a handle and a set of attributes.
-/

namespace GrandCross

open CText EarlyExit

/-- An invariant of the state and a set of paths that handle resolution, the
join of a name and the issue of a handle keep. -/
structure TableInv {σ : Type} (os : Os σ) (ex : Export)
    (I : Srv σ → Prop) (D : Bytes → Prop) : Prop where
  root : D ex.root
  join : ∀ dir name child, D dir →
    joinChild ex.root dir name pathMax = some child → D child
  world : ∀ s w, I s → I { s with world := w }
  resolve : ∀ s fh, I s →
    I { s with table := (fhToPath (os.view s.world) ex.root s.table fh).2 } ∧
      ∀ path, (fhToPath (os.view s.world) ex.root s.table fh).1 = some path →
        D path
  issue : ∀ s path, D path → I s →
    I { s with table := (fhFromPath ex.root s.table path).2 }

/-- The longest reply body of a procedure that changes something. -/
def shortBody : ℕ := 104

/-- The encoder holds at most `n` bytes. -/
def Fits (n : ℕ) (out : XdrOut) : Prop := out.bytes.length ≤ n

def ExitFits (n : ℕ) (exit : Option XdrOut) : Prop := ∀ out ∈ exit, Fits n out

theorem Fits.put
    {n k : ℕ} {out : XdrOut} (hout : Fits n out) {data : Bytes}
    (hdata : data.length ≤ k) : Fits (n + k) (out.put data) := by
  have hlen := out.put_length_le data
  unfold Fits at *
  omega

theorem Fits.mono
    {n k : ℕ} {out : XdrOut} (hout : Fits n out) (hle : n ≤ k) : Fits k out :=
  le_trans hout hle

theorem Fits.putU32
    {n : ℕ} {out : XdrOut} (hout : Fits n out) (v : ℕ) :
    Fits (n + 4) (xdrPutU32 out v) :=
  hout.put le_rfl

theorem Fits.words
    {n : ℕ} {out : XdrOut} (hout : Fits n out) (words : List ℕ) :
    Fits (n + 4 * words.length) (words.foldl xdrPutU32 out) := by
  induction words generalizing n out with
  | nil => exact hout
  | cons v words ih =>
      apply (ih (hout.putU32 v)).mono
      simp only [List.length_cons]
      omega

theorem Fits.fattr
    {n : ℕ} {out : XdrOut} (hout : Fits n out) (st : Stat) :
    Fits (n + 68) (putFattr out st) :=
  hout.words (fattrWords st)

theorem Fits.handle
    {n : ℕ} {out : XdrOut} (hout : Fits n out) {fh : Bytes}
    (hfh : fh.length = 32) : Fits (n + 32) (xdrPutFixed out fh) := by
  apply hout.put
  rw [List.length_append, List.length_replicate, hfh]
  decide

section Procs

variable {σ : Type} {os : Os σ} {ex : Export}
  {I : Srv σ → Prop} {D : Bytes → Prop}

/-! ## The building blocks -/

theorem finishStatus_keeps
    {α : Type} {R : α → Prop} {n : ℕ} {out : XdrOut} (hout : Fits n out)
    (status : ℕ) :
    Keeps I (finishStatus out status : NfsM σ α) R
      (ExitFits (n + shortBody)) := by
  apply Keeps.throw
  intro o ho
  rw [Option.mem_some_iff] at ho
  subst ho
  apply (hout.putU32 status).mono
  simp [shortBody]

theorem orDrop_keeps
    {α : Type} {R : α → Prop} {n : ℕ} {o : Option α}
    (hsome : ∀ a, o = some a → R a) :
    Keeps I (orDrop o : NfsM σ α) R (ExitFits n) := by
  apply Keeps.need hsome
  intro out hout
  simp at hout

theorem look_keeps
    {α : Type} {n : ℕ} (f : FsView → α) :
    Keeps I (look os f) (fun _ => True) (ExitFits n) :=
  Keeps.act fun _ hs => ⟨hs, trivial⟩

theorem change_keeps
    {α : Type} {n : ℕ} (hinv : TableInv os ex I D) (f : σ → α × σ) :
    Keeps I (change f) (fun _ => True) (ExitFits n) :=
  Keeps.act fun s hs => ⟨hinv.world s _ hs, trivial⟩

theorem okOr_keeps
    {α : Type} {n : ℕ} {out : XdrOut} (hout : Fits n out) (r : Except ℕ α) :
    Keeps I (okOr out r : NfsM σ α) (fun _ => True)
      (ExitFits (n + shortBody)) := by
  cases r with
  | ok a => exact Keeps.pure trivial
  | error e => exact finishStatus_keeps hout _

theorem resolveFh_keeps
    {n : ℕ} (hinv : TableInv os ex I D) (fh : Bytes) :
    Keeps I (resolveFh os ex fh) (fun r => ∀ path, r = some path → D path)
      (ExitFits n) :=
  Keeps.act fun s hs => hinv.resolve s fh hs

theorem makeFh_keeps
    {n : ℕ} (hinv : TableInv os ex I D) {path : Bytes} (hpath : D path) :
    Keeps I (makeFh ex path) (fun fh => fh.length = 32) (ExitFits n) :=
  Keeps.act fun s hs => ⟨hinv.issue s path hpath hs, rfl⟩

theorem argFh_keeps
    (hinv : TableInv os ex I D) {n : ℕ} {out : XdrOut} (hout : Fits n out)
    (input : Bytes) :
    Keeps I (argFh os ex input out) (fun r => D r.1)
      (ExitFits (n + shortBody)) := by
  unfold argFh
  cases hget : xdrGetFixed fhSize input with
  | none => exact finishStatus_keeps hout _
  | some p =>
      apply Keeps.bind (resolveFh_keeps hinv p.1)
      intro r hr
      cases r with
      | none => exact finishStatus_keeps hout _
      | some path => exact Keeps.pure (hr path rfl)

theorem argToDir_keeps
    (hinv : TableInv os ex I D) {n : ℕ} {out : XdrOut} (hout : Fits n out)
    (input : Bytes) :
    Keeps I (argToDir os ex input out) (fun r => D r.1)
      (ExitFits (n + shortBody)) := by
  unfold argToDir
  apply Keeps.bind (orDrop_keeps fun _ _ => trivial)
  intro p _
  apply Keeps.bind (resolveFh_keeps hinv p.1)
  intro r hr
  cases r with
  | none => exact finishStatus_keeps hout _
  | some path => exact Keeps.pure (hr path rfl)

/-! ## Procedures that change the file system -/

/-- The triple of a procedure: the state keeps `I`, and the reply it builds on
`out` stays short. -/
def Short (I : Srv σ → Prop) (fn : Bytes → XdrOut → NfsM σ XdrOut) : Prop :=
  ∀ input out n, Fits n out →
    Keeps I (fn input out) (Fits (n + shortBody)) (ExitFits (n + shortBody))

theorem Fits.statFattr
    {n : ℕ} {out : XdrOut} (hout : Fits n out) (st : Stat) :
    Fits (n + shortBody) (putFattr (xdrPutU32 out nfsOk) st) := by
  apply ((hout.putU32 nfsOk).fattr st).mono
  simp [shortBody]

theorem Fits.result
    {n : ℕ} {out : XdrOut} (hout : Fits n out) (rc : Except ℕ Unit) :
    Fits (n + shortBody) (putResult out rc) := by
  cases rc with
  | ok u =>
      apply (hout.putU32 nfsOk).mono
      simp [shortBody]
  | error e =>
      apply (hout.putU32 (errnoToNfs e)).mono
      simp [shortBody]

theorem replyStatFattr_keeps
    {n : ℕ} {out : XdrOut} (hout : Fits n out) (path : Bytes) :
    Keeps I (replyStatFattr os out path) (Fits (n + shortBody))
      (ExitFits (n + shortBody)) := by
  unfold replyStatFattr
  apply Keeps.bind (look_keeps _)
  intro r _
  apply Keeps.bind (okOr_keeps hout r)
  intro st _
  exact Keeps.pure (hout.statFattr st)

theorem nfsSetattr_short (hinv : TableInv os ex I D) :
    Short I (nfsSetattr os ex) := by
  intro input out n hout
  unfold nfsSetattr
  apply Keeps.bind (argFh_keeps hinv hout input)
  intro p _
  apply Keeps.bind (orDrop_keeps fun _ _ => trivial)
  intro q _
  apply Keeps.bind (change_keeps hinv _)
  intro _ _
  apply Keeps.bind (change_keeps hinv _)
  intro _ _
  exact replyStatFattr_keeps hout p.1

theorem nfsWrite_short (hinv : TableInv os ex I D) :
    Short I (nfsWrite os ex) := by
  intro input out n hout
  unfold nfsWrite
  apply Keeps.bind (argFh_keeps hinv hout input)
  intro p _
  apply Keeps.bind (orDrop_keeps fun _ _ => trivial)
  intro q _
  apply Keeps.bind (orDrop_keeps fun _ _ => trivial)
  intro d _
  apply Keeps.bind (change_keeps hinv _)
  intro r _
  apply Keeps.bind (okOr_keeps hout r)
  intro st _
  exact Keeps.pure (hout.statFattr st)

theorem createCommon_short (hinv : TableInv os ex I D) (dirMode : Bool) :
    Short I (createCommon os ex dirMode) := by
  intro input out n hout
  unfold createCommon
  apply Keeps.bind (argFh_keeps hinv hout input)
  rintro ⟨dir, rest⟩ hdir
  apply Keeps.bind (orDrop_keeps fun _ _ => trivial)
  rintro ⟨name, rest⟩ _
  apply Keeps.bind (orDrop_keeps fun _ _ => trivial)
  rintro ⟨words, rest⟩ _
  dsimp only
  cases hjoin : joinChild ex.root dir name pathMax with
  | none => exact finishStatus_keeps hout _
  | some child =>
      have hchild := hinv.join _ _ _ hdir hjoin
      apply Keeps.bind (change_keeps hinv _)
      intro r _
      apply Keeps.bind (okOr_keeps hout r)
      intro _ _
      apply Keeps.bind (look_keeps _)
      intro st _
      cases st with
      | error e => exact finishStatus_keeps hout _
      | ok st =>
          apply Keeps.bind (makeFh_keeps hinv hchild)
          intro fh hfh
          apply Keeps.pure
          apply (((hout.putU32 nfsOk).handle hfh).fattr st).mono
          simp [shortBody]

theorem removeCommon_short (hinv : TableInv os ex I D) (isDir : Bool) :
    Short I (removeCommon os ex isDir) := by
  intro input out n hout
  unfold removeCommon
  apply Keeps.bind (argFh_keeps hinv hout input)
  rintro ⟨path, rest⟩ _
  apply Keeps.bind (orDrop_keeps fun _ _ => trivial)
  rintro ⟨name, rest⟩ _
  dsimp only
  cases hjoin : joinChild ex.root path name pathMax with
  | none => exact finishStatus_keeps hout _
  | some child =>
      apply Keeps.bind (change_keeps hinv _)
      intro rc _
      exact Keeps.pure (hout.result rc)

theorem nfsRename_short (hinv : TableInv os ex I D) :
    Short I (nfsRename os ex) := by
  intro input out n hout
  unfold nfsRename
  apply Keeps.bind (argFh_keeps hinv hout input)
  rintro ⟨path, rest⟩ _
  apply Keeps.bind (orDrop_keeps fun _ _ => trivial)
  rintro ⟨fname, rest⟩ _
  apply Keeps.bind (argToDir_keeps hinv hout _)
  rintro ⟨todir, rest⟩ _
  apply Keeps.bind (orDrop_keeps fun _ _ => trivial)
  rintro ⟨tname, rest⟩ _
  dsimp only
  cases hfrom : joinChild ex.root path fname pathMax with
  | none => exact finishStatus_keeps hout _
  | some fpath =>
      cases hto : joinChild ex.root todir tname pathMax with
      | none => exact finishStatus_keeps hout _
      | some tpath =>
          apply Keeps.bind (change_keeps hinv _)
          intro rc _
          exact Keeps.pure (hout.result rc)

theorem nfsLink_short (hinv : TableInv os ex I D) :
    Short I (nfsLink os ex) := by
  intro input out n hout
  unfold nfsLink
  apply Keeps.bind (argFh_keeps hinv hout input)
  rintro ⟨path, rest⟩ _
  apply Keeps.bind (argToDir_keeps hinv hout _)
  rintro ⟨todir, rest⟩ _
  apply Keeps.bind (orDrop_keeps fun _ _ => trivial)
  rintro ⟨tname, rest⟩ _
  dsimp only
  cases hto : joinChild ex.root todir tname pathMax with
  | none => exact finishStatus_keeps hout _
  | some tpath =>
      apply Keeps.bind (change_keeps hinv _)
      intro rc _
      exact Keeps.pure (hout.result rc)

theorem nfsSymlink_short (hinv : TableInv os ex I D) :
    Short I (nfsSymlink os ex) := by
  intro input out n hout
  unfold nfsSymlink
  apply Keeps.bind (argFh_keeps hinv hout input)
  rintro ⟨path, rest⟩ _
  apply Keeps.bind (orDrop_keeps fun _ _ => trivial)
  rintro ⟨name, rest⟩ _
  apply Keeps.bind (orDrop_keeps fun _ _ => trivial)
  rintro ⟨target, rest⟩ _
  apply Keeps.bind (orDrop_keeps fun _ _ => trivial)
  intro _ _
  cases hjoin : joinChild ex.root path name pathMax with
  | none => exact finishStatus_keeps hout _
  | some child =>
      apply Keeps.bind (change_keeps hinv _)
      intro rc _
      exact Keeps.pure (hout.result rc)

theorem cached_route_short (hinv : TableInv os ex I D) :
    ∀ r ∈ gnRoutes os ex, r.cache = true → Short I r.fn := by
  have hoff : ∀ {fn : Bytes → XdrOut → NfsM σ XdrOut}, false = true → Short I fn :=
    fun h => absurd h Bool.false_ne_true
  unfold gnRoutes
  simp only [List.forall_mem_cons]
  exact ⟨hoff, hoff, hoff, hoff, hoff, hoff, hoff, hoff,
    fun _ => nfsSetattr_short hinv, hoff, hoff, hoff,
    fun _ => nfsWrite_short hinv, fun _ => createCommon_short hinv false,
    fun _ => removeCommon_short hinv false, fun _ => nfsRename_short hinv,
    fun _ => nfsLink_short hinv, fun _ => nfsSymlink_short hinv,
    fun _ => createCommon_short hinv true, fun _ => removeCommon_short hinv true,
    hoff, hoff, fun _ h => absurd h List.not_mem_nil⟩

/-! ## All procedures -/

/-- The triple of a procedure whose reply may be long. -/
def Kept (I : Srv σ → Prop) (fn : Bytes → XdrOut → NfsM σ XdrOut) : Prop :=
  ∀ input out, Keeps I (fn input out) (fun _ => True)
    (ExitFits (out.bytes.length + shortBody))

theorem Short.kept
    {fn : Bytes → XdrOut → NfsM σ XdrOut} (h : Short I fn) : Kept I fn :=
  fun input out => (h input out _ le_rfl).weaken fun _ _ => trivial

theorem pure_kept (f : XdrOut → XdrOut) :
    Kept I (fun _ out => (pure (f out) : NfsM σ XdrOut)) :=
  fun _ _ => Keeps.pure trivial

theorem pmapGetport_kept : Kept I (pmapGetport ex) := by
  intro input out
  unfold pmapGetport
  apply Keeps.bind (orDrop_keeps fun _ _ => trivial)
  intro words _
  exact Keeps.pure trivial

theorem mntMnt_kept (hinv : TableInv os ex I D) : Kept I (mntMnt os ex) := by
  intro input out
  unfold mntMnt
  apply Keeps.bind (orDrop_keeps fun _ _ => trivial)
  rintro ⟨dir, rest⟩ _
  apply Keeps.ite
  · intro _
    exact finishStatus_keeps le_rfl _
  · intro _
    apply Keeps.bind (look_keeps _)
    intro st _
    cases st with
    | error e => exact finishStatus_keeps le_rfl _
    | ok st =>
        apply Keeps.ite
        · intro _
          apply Keeps.bind (makeFh_keeps hinv hinv.root)
          intro fh _
          exact Keeps.pure trivial
        · intro _
          exact finishStatus_keeps le_rfl _

theorem nfsGetattr_kept (hinv : TableInv os ex I D) :
    Kept I (nfsGetattr os ex) := by
  intro input out
  unfold nfsGetattr
  apply Keeps.bind (argFh_keeps hinv le_rfl input)
  intro p _
  exact (replyStatFattr_keeps le_rfl p.1).weaken fun _ _ => trivial

theorem nfsLookup_kept (hinv : TableInv os ex I D) :
    Kept I (nfsLookup os ex) := by
  intro input out
  unfold nfsLookup
  apply Keeps.bind (argFh_keeps hinv le_rfl input)
  rintro ⟨dir, rest⟩ hdir
  apply Keeps.bind (orDrop_keeps fun _ _ => trivial)
  rintro ⟨name, rest⟩ _
  dsimp only
  cases hjoin : joinChild ex.root dir name pathMax with
  | none => exact finishStatus_keeps le_rfl _
  | some child =>
      apply Keeps.bind (look_keeps _)
      intro r _
      apply Keeps.bind (okOr_keeps le_rfl r)
      intro st _
      apply Keeps.bind (makeFh_keeps hinv (hinv.join _ _ _ hdir hjoin))
      intro fh _
      exact Keeps.pure trivial

theorem nfsRead_kept (hinv : TableInv os ex I D) : Kept I (nfsRead os ex) := by
  intro input out
  unfold nfsRead
  apply Keeps.bind (argFh_keeps hinv le_rfl input)
  intro p _
  apply Keeps.bind (orDrop_keeps fun _ _ => trivial)
  intro words _
  apply Keeps.bind (look_keeps _)
  intro r _
  apply Keeps.bind (okOr_keeps le_rfl r)
  intro st _
  exact Keeps.pure trivial

theorem nfsReadlink_kept (hinv : TableInv os ex I D) :
    Kept I (nfsReadlink os ex) := by
  intro input out
  unfold nfsReadlink
  apply Keeps.bind (argFh_keeps hinv le_rfl input)
  intro p _
  apply Keeps.bind (look_keeps _)
  intro r _
  apply Keeps.bind (okOr_keeps le_rfl r)
  intro target _
  exact Keeps.pure trivial

theorem nfsReaddir_kept (hinv : TableInv os ex I D) :
    Kept I (nfsReaddir os ex) := by
  intro input out
  unfold nfsReaddir
  apply Keeps.bind (argFh_keeps hinv le_rfl input)
  intro p _
  apply Keeps.bind (orDrop_keeps fun _ _ => trivial)
  intro words _
  apply Keeps.bind (look_keeps _)
  intro r _
  apply Keeps.bind (okOr_keeps le_rfl r)
  intro stream _
  exact look_keeps _

theorem nfsStatfs_kept (hinv : TableInv os ex I D) :
    Kept I (nfsStatfs os ex) := by
  intro input out
  unfold nfsStatfs
  apply Keeps.bind (argFh_keeps hinv le_rfl input)
  intro p _
  apply Keeps.bind (look_keeps _)
  intro r _
  apply Keeps.bind (okOr_keeps le_rfl r)
  intro vf _
  exact Keeps.pure trivial

theorem route_kept (hinv : TableInv os ex I D) :
    ∀ r ∈ gnRoutes os ex, Kept I r.fn := by
  unfold gnRoutes
  simp only [List.forall_mem_cons]
  exact ⟨pure_kept id, pmapGetport_kept, pure_kept id, mntMnt_kept hinv,
    pure_kept id, pure_kept _, pure_kept id, nfsGetattr_kept hinv,
    (nfsSetattr_short hinv).kept, nfsLookup_kept hinv, nfsReadlink_kept hinv,
    nfsRead_kept hinv, (nfsWrite_short hinv).kept,
    (createCommon_short hinv false).kept, (removeCommon_short hinv false).kept,
    (nfsRename_short hinv).kept, (nfsLink_short hinv).kept,
    (nfsSymlink_short hinv).kept, (createCommon_short hinv true).kept,
    (removeCommon_short hinv true).kept, nfsReaddir_kept hinv,
    nfsStatfs_kept hinv, fun _ h => absurd h List.not_mem_nil⟩

/-! ## Datagrams -/

theorem matchRoute_mem
    {routes : List (Route σ)} {c : RpcCall} {r : Route σ}
    (hroute : matchRoute routes c = some r) : r ∈ routes :=
  List.mem_of_mem_filter (List.mem_of_getLast? hroute)

theorem matchRoute_spec
    {routes : List (Route σ)} {c : RpcCall} {r : Route σ}
    (hroute : matchRoute routes c = some r) : r.prog = c.prog ∧ r.proc = c.proc := by
  have hmem := List.of_mem_filter (List.mem_of_getLast? hroute)
  rw [decide_eq_true_eq] at hmem
  exact ⟨hmem.1, hmem.2.2⟩

theorem runRoute_keeps
    (hinv : TableInv os ex I D) {r : Route σ} (hr : r ∈ gnRoutes os ex)
    (c : RpcCall) (rest : Bytes) {srv : Srv σ} (hsrv : I srv) :
    I (runRoute r c rest srv).2 := by
  have hkept := route_kept hinv r hr rest (replyHead c.xid 0 (xdrInit rpcBufSize))
    srv hsrv
  unfold runRoute
  cases hexec : exec (r.fn rest (replyHead c.xid 0 (xdrInit rpcBufSize))) srv with
  | mk out srv' =>
      rw [hexec] at hkept
      cases out with
      | ok out => exact hkept.1
      | error exit => exact hkept.1

theorem handleOne_keeps
    (hinv : TableInv os ex I D) {s : Rpc σ} (hs : I s.srv) (dg : Datagram σ) :
    I (handleOne (gnRoutes os ex) s dg).1.srv := by
  have harrive := hinv.world s.srv (dg.outside s.srv.world) hs
  unfold handleOne
  cases hparse : rpcParseCall dg.data with
  | none => exact harrive
  | some p =>
      obtain ⟨c, rest⟩ := p
      dsimp only
      cases hroute : matchRoute (gnRoutes os ex) c with
      | none => exact harrive
      | some r =>
          have hrun := runRoute_keeps hinv (matchRoute_mem hroute) c rest harrive
          dsimp only
          split
          · exact harrive
          · split
            · exact hrun
            · split_ifs
              · exact hrun
              · exact hrun

theorem serve_keeps
    (hinv : TableInv os ex I D) {s : Rpc σ} (hs : I s.srv)
    (dgs : List (Datagram σ)) : I (serve (gnRoutes os ex) s dgs).srv := by
  induction dgs generalizing s with
  | nil => exact hs
  | cons dg dgs ih => exact ih (handleOne_keeps hinv hs dg)

end Procs

/-! ## The outcome from one state -/

/-- A handle is read from the arguments and resolved; what is left of the
arguments, and the table behind the resolution. -/
def ReadsFh (fs : FsView) (root : Bytes) (t : Table) (args path rest : Bytes)
    (t' : Table) : Prop :=
  ∃ fh, xdrGetFixed fhSize args = some (fh, rest) ∧ fhToPath fs root t fh = (some path, t')

/-- A handle and a name are read. -/
def ReadsEntry (fs : FsView) (root : Bytes) (t : Table) (args dir name rest : Bytes)
    (t' : Table) : Prop :=
  ∃ mid, ReadsFh fs root t args dir mid t' ∧
    xdrGetString (nameMax + 1) mid = some (name, rest)

section Outcome

variable {σ : Type} {os : Os σ} {ex : Export} {s : Srv σ} {out : XdrOut} {input : Bytes}
  {Q : Except (Option XdrOut) XdrOut → Srv σ → Prop}

theorem finishStatus_ends
    {status : ℕ} (h : Q (.error (some (xdrPutU32 out status))) s) :
    Ends (finishStatus out status : NfsM σ XdrOut) s Q := h

theorem okOr_ends
    {α : Type} {r : Except ℕ α} {f : α → NfsM σ XdrOut}
    (herr : ∀ e, r = .error e → Q (.error (some (xdrPutU32 out (errnoToNfs e)))) s)
    (hok : ∀ a, r = .ok a → Ends (f a) s Q) : Ends (okOr out r >>= f) s Q := by
  cases r with
  | error e => exact herr e rfl
  | ok a => exact hok a rfl

theorem argFh_ends
    {f : Bytes × Bytes → NfsM σ XdrOut}
    (hstale : ∀ t, Q (.error (some (xdrPutU32 out nfsErrStale))) { s with table := t })
    (hf : ∀ path rest t, ReadsFh (os.view s.world) ex.root s.table input path rest t →
      Ends (f (path, rest)) { s with table := t } Q) :
    Ends (argFh os ex input out >>= f) s Q := by
  unfold argFh
  cases hget : xdrGetFixed fhSize input with
  | none => exact hstale s.table
  | some p =>
      dsimp only
      rw [bind_assoc]
      apply Ends.act_bind
      dsimp only
      cases hres : fhToPath (os.view s.world) ex.root s.table p.1 with
      | mk r t =>
          cases r with
          | none => exact hstale t
          | some path => exact hf path p.2 t ⟨p.1, hget, hres⟩

theorem argToDir_ends
    {f : Bytes × Bytes → NfsM σ XdrOut} (hdrop : Q (.error none) s)
    (hstale : ∀ t, Q (.error (some (xdrPutU32 out nfsErrStale))) { s with table := t })
    (hf : ∀ path rest t, ReadsFh (os.view s.world) ex.root s.table input path rest t →
      Ends (f (path, rest)) { s with table := t } Q) :
    Ends (argToDir os ex input out >>= f) s Q := by
  unfold argToDir
  cases hget : xdrGetFixed fhSize input with
  | none => exact hdrop
  | some p =>
      have hpure : (orDrop (some p) : NfsM σ (Bytes × Bytes)) = pure p := rfl
      rw [hpure, pure_bind, bind_assoc]
      apply Ends.act_bind
      dsimp only
      cases hres : fhToPath (os.view s.world) ex.root s.table p.1 with
      | mk r t =>
          cases r with
          | none => exact hstale t
          | some path => exact hf path p.2 t ⟨p.1, hget, hres⟩

end Outcome

end GrandCross
