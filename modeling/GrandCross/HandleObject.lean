import GrandCross.FileBytes

/-!
# Which object a handle stands for

A handle is an interned path.  Within one server lifetime it resolves to the
path it was issued for, whatever the requests in between do, and so to the
object that has this path at that moment.
-/

namespace GrandCross

open CText EarlyExit

/-! ## Procedures that hand out a handle -/

section Issue

variable {σ : Type} (os : Os σ) (ex : Export)

/-- What LOOKUP, CREATE and MKDIR end with: a dropped call, a status alone, or
the handle of the named entry, which `lstat` has just found. -/
def Issues (xid : ℕ) (args : Bytes) (s : Srv σ) (r : Except (Option XdrOut) XdrOut)
    (s' : Srv σ) : Prop :=
  r = .error none ∨
    (∃ status, r = .error (some (xdrPutU32 (replyHead xid 0 (xdrInit rpcBufSize)) status))) ∨
    ∃ dir name rest t path st,
      ReadsEntry (os.view s.world) ex.root s.table args dir name rest t ∧
        joinChild ex.root dir name pathMax = some path ∧
        (os.view s'.world).lstat path = .ok st ∧
        r = .ok (putFattr (xdrPutFixed (xdrPutU32 (replyHead xid 0 (xdrInit rpcBufSize))
          nfsOk) (issue ex.root t path)) st) ∧
        s'.table = (fhFromPath ex.root t path).2

variable {os ex} {xid : ℕ} {args : Bytes} {s : Srv σ}

theorem Issues.status
    (status : ℕ) (s' : Srv σ) :
    Issues os ex xid args s
      (.error (some (xdrPutU32 (replyHead xid 0 (xdrInit rpcBufSize)) status))) s' :=
  Or.inr (Or.inl ⟨status, rfl⟩)

theorem nfsLookup_issues :
    Ends (nfsLookup os ex args (replyHead xid 0 (xdrInit rpcBufSize))) s
      (Issues os ex xid args s) := by
  apply argFh_ends
  · intro t
    exact Issues.status _ _
  intro dir mid t hfh
  apply Ends.need_bind
  · exact Or.inl rfl
  rintro ⟨name, rest⟩ hname
  dsimp only
  cases hjoin : joinChild ex.root dir name pathMax with
  | none => exact finishStatus_ends (Issues.status _ _)
  | some path =>
      apply Ends.act_bind
      apply okOr_ends
      · intro e _
        exact Issues.status _ _
      intro st hst
      apply Ends.act_bind
      apply Ends.pure
      exact Or.inr (Or.inr
        ⟨dir, name, rest, t, path, st, ⟨mid, hfh, hname⟩, hjoin, hst, rfl, rfl⟩)

theorem createCommon_issues (dirMode : Bool) :
    Ends (createCommon os ex dirMode args (replyHead xid 0 (xdrInit rpcBufSize))) s
      (Issues os ex xid args s) := by
  apply argFh_ends
  · intro t
    exact Issues.status _ _
  intro dir mid t hfh
  apply Ends.need_bind
  · exact Or.inl rfl
  rintro ⟨name, rest⟩ hname
  apply Ends.need_bind
  · exact Or.inl rfl
  rintro ⟨words, rest'⟩ _
  dsimp only
  cases hjoin : joinChild ex.root dir name pathMax with
  | none => exact finishStatus_ends (Issues.status _ _)
  | some path =>
      apply Ends.act_bind
      apply okOr_ends
      · intro e _
        exact Issues.status _ _
      intro _ _
      apply Ends.act_bind
      dsimp only
      cases hst : (os.view _).lstat path with
      | error e => exact finishStatus_ends (Issues.status _ _)
      | ok st =>
          apply Ends.act_bind
          apply Ends.pure
          exact Or.inr (Or.inr
            ⟨dir, name, rest, t, path, st, ⟨mid, hfh, hname⟩, hjoin, hst, rfl, rfl⟩)

end Issue

/-! ## The handle in a reply -/

/-- The handle a LOOKUP, CREATE or MKDIR reply carries behind its status. -/
def handleOf (reply : Bytes) : Option Bytes :=
  (xdrGetFixed fhSize (reply.drop 28)).map Prod.fst

theorem handleOf_status (xid status : ℕ) :
    handleOf (headBytes xid ++ be32 status) = none := by
  have hdrop : (headBytes xid ++ be32 status).drop 28 = [] := rfl
  rw [handleOf, hdrop]
  rfl

theorem issueReply_eq
    {fh : Bytes} (hfh : fh.length = 32) (xid : ℕ) (st : Stat) :
    putFattr (xdrPutFixed (xdrPutU32 (replyHead xid 0 (xdrInit rpcBufSize)) nfsOk) fh) st =
      ⟨headBytes xid ++ be32 nfsOk ++ (fh ++ (fattrWords st).flatMap be32), rpcBufSize,
        false⟩ := by
  have hpad : List.replicate (padOf fh.length) (0 : Byte) = [] := by
    rw [hfh]
    rfl
  have hhead : (headBytes xid ++ be32 nfsOk).length = 28 := rfl
  have hbuf : rpcBufSize = 65536 := rfl
  rw [statusReply_eq, xdrPutFixed, hpad, List.append_nil, XdrOut.put_ok, putFattr,
    xdrPutWords_ok]
  · simp only [List.append_assoc]
  · rw [List.length_append, hhead, hfh]
    show 28 + 32 + 4 * 17 ≤ 65536
    decide
  · omega

theorem handleOf_issue
    {fh : Bytes} (hfh : fh.length = 32) (xid : ℕ) (rest : Bytes) :
    handleOf (headBytes xid ++ be32 nfsOk ++ (fh ++ rest)) = some fh := by
  have hdrop : (headBytes xid ++ be32 nfsOk ++ (fh ++ rest)).drop 28 = fh ++ rest := by
    have hlen : (headBytes xid ++ be32 nfsOk).length = 28 := rfl
    rw [← hlen, List.drop_left]
  have hpad : padOf fh.length = 0 := by
    rw [hfh]
    rfl
  have hget := xdrGetFixed_append hpad rest
  rw [hfh] at hget
  rw [handleOf, hdrop, fhSize, hget]
  rfl

section Later

variable {σ : Type} {os : Os σ} {ex : Export}

/-- A reply with a handle, read by the client. -/
theorem runRoute_issues
    {r : Route σ} {c : RpcCall} {args : Bytes} {srv : Srv σ}
    (hends : Ends (r.fn args (replyHead c.xid 0 (xdrInit rpcBufSize))) srv
      (Issues os ex c.xid args srv)) {reply fh : Bytes}
    (hsend : sendable (runRoute r c args srv).1 = some reply)
    (hfh : handleOf reply = some fh) :
    ∃ dir name rest t path st,
      ReadsEntry (os.view srv.world) ex.root srv.table args dir name rest t ∧
        joinChild ex.root dir name pathMax = some path ∧
        (os.view (runRoute r c args srv).2.world).lstat path = .ok st ∧
        fh = issue ex.root t path ∧
        (runRoute r c args srv).2.table = (fhFromPath ex.root t path).2 := by
  unfold runRoute at hsend ⊢
  unfold Ends at hends
  cases hexec : exec (r.fn args (replyHead c.xid 0 (xdrInit rpcBufSize))) srv with
  | mk res srv' =>
      rw [hexec] at hsend hends
      rcases hends with hdrop | ⟨status, hstatus⟩ | ⟨dir, name, rest, t, path, st, hreads,
        hjoin, hst, hissue, htable⟩
      · dsimp only at hdrop
        rw [hdrop] at hsend
        exact absurd hsend (by simp [sendable])
      · dsimp only at hstatus
        rw [hstatus, statusReply_eq] at hsend
        obtain rfl := Option.some.inj hsend
        rw [handleOf_status] at hfh
        exact absurd hfh (by simp)
      · dsimp only at hissue
        rw [hissue, issueReply_eq rfl] at hsend
        obtain rfl := Option.some.inj hsend
        rw [handleOf_issue rfl] at hfh
        rw [hissue]
        exact ⟨dir, name, rest, t, path, st, hreads, hjoin, hst,
          (Option.some.inj hfh).symm, htable⟩

theorem ReadsEntry.ok
    {fs : FsView} {root args dir name rest : Bytes} {t t' : Table}
    (h : ReadsEntry fs root t args dir name rest t') (hok : TableOk root t) :
    TableOk root t' := by
  obtain ⟨mid, ⟨fh, -, hres⟩, -⟩ := h
  have hkept : TableOk root (fhToPath fs root t fh).2 := (hok.fhToPath fh).1
  rw [hres] at hkept
  exact hkept

variable (os ex) in
/-- The table is consistent and only grows. -/
theorem tableInv_grows (ps : List Bytes) :
    TableInv os ex (fun s => TableOk ex.root s.table ∧ ps <+: s.table.paths)
      fun _ => True where
  root := trivial
  join _ _ _ _ _ := trivial
  world _ _ hs := hs
  resolve _ fh hs := by
    obtain ⟨hok, hgrows⟩ := hs.1.fhToPath fh
    exact ⟨⟨hok, hs.2.trans hgrows⟩, fun _ _ => trivial⟩
  issue _ path _ hs := ⟨hs.1.intern path, hs.2.trans (intern_grows path)⟩

/-- A procedure that ran was not answered from the cache. -/
theorem miss_of_ran
    {routes : List (Route σ)} {s : Rpc σ} {dg : Datagram σ} {c : RpcCall} {args : Bytes}
    {r : Route σ} (hparse : rpcParseCall dg.data = some (c, args))
    (hroute : matchRoute routes c = some r) (hran : (handleOne routes s dg).2.ran = true)
    (hcache : r.cache = true) : drcLookup s.drc dg.peer c.xid dg.now = none := by
  have hxid := cachedXid_of_route hparse hroute hcache
  cases hlook : drcLookup s.drc dg.peer c.xid dg.now with
  | none => rfl
  | some hit =>
      rw [handleOne_hit hxid hlook] at hran
      exact absurd hran Bool.false_ne_true

/-- A handle that was issued stands for its path in every later table. -/
theorem issue_denotes
    {t u : Table} (ht : TableOk ex.root t) {path : Bytes}
    (hgrows : (fhFromPath ex.root t path).2.paths <+: u.paths)
    (hroom : (fhFromPath ex.root t path).2.paths.length ≤ 2 ^ 32) :
    Denotes ex.root u (issue ex.root t path) path := by
  have hget : (fhFromPath ex.root t path).2.paths[t.paths.idxOf path]? = some path :=
    intern_getElem? path
  have hlt := (List.getElem?_eq_some_iff.mp hget).1
  intro fs
  rw [issue_eq ht]
  exact fhToPath_handleBytes (by omega) (getElem?_of_grows hgrows hget) _ _

variable (os ex) in
/-- LOOKUP, CREATE and MKDIR hand out a handle as `Issues` says. -/
theorem route_issues
    {proc : ℕ} (hproc : proc = 4 ∨ proc = 9 ∨ proc = 14) (xid : ℕ) :
    ∃ r, matchRoute (gnRoutes os ex) ⟨xid, nfsProg, nfsVers, proc⟩ = some r ∧
      ∀ args s, Ends (r.fn args (replyHead xid 0 (xdrInit rpcBufSize))) s
        (Issues os ex xid args s) := by
  rcases hproc with rfl | rfl | rfl
  · exact ⟨⟨nfsProg, nfsVers, 4, nfsLookup os ex, false⟩, rfl, fun _ _ => nfsLookup_issues⟩
  · exact ⟨⟨nfsProg, nfsVers, 9, nfsCreate os ex, true⟩, rfl,
      fun _ _ => createCommon_issues false⟩
  · exact ⟨⟨nfsProg, nfsVers, 14, nfsMkdir os ex, true⟩, rfl,
      fun _ _ => createCommon_issues true⟩

end Later

/-! ## Objects -/

/-- The object a request through the handle works on; `object` says which one
a path names. -/
def objectOf {σ Obj : Type} (os : Os σ) (ex : Export) (object : σ → Bytes → Option Obj)
    (s : Rpc σ) (fh : Bytes) : Option Obj :=
  (fhToPath (os.view s.srv.world) ex.root s.srv.table fh).1.bind (object s.srv.world)

/-- A handle from the reply of a LOOKUP, CREATE or MKDIR is resolved, for the
rest of the server's life, to the path of the named entry, which existed when
the handle was issued, and so to whatever object has this path; that is the
first one as long as the path names it. -/
theorem handle_keeps_path
    {σ Obj : Type} (os : Os σ) (ex : Export) (object : σ → Bytes → Option Obj) (w : σ)
    (pre : List (Datagram σ)) (dg : Datagram σ) (xid proc : ℕ) (args : Bytes)
    (hproc : proc = 4 ∨ proc = 9 ∨ proc = 14)
    (hparse : rpcParseCall dg.data = some (⟨xid, nfsProg, nfsVers, proc⟩, args))
    (hran : (handleOne (gnRoutes os ex) (serve (gnRoutes os ex) (Rpc.start w) pre)
      dg).2.ran = true)
    (reply fh : Bytes)
    (hsent : (handleOne (gnRoutes os ex) (serve (gnRoutes os ex) (Rpc.start w) pre)
      dg).2.sent = some reply)
    (hfh : handleOf reply = some fh)
    (hroom : (serve (gnRoutes os ex) (Rpc.start w) (pre ++ [dg])).srv.table.paths.length ≤
      2 ^ 32) :
    ∃ dir name rest t path st,
      ReadsEntry (os.view (dg.outside (serve (gnRoutes os ex) (Rpc.start w) pre).srv.world))
          ex.root (serve (gnRoutes os ex) (Rpc.start w) pre).srv.table args dir name rest t ∧
        joinChild ex.root dir name pathMax = some path ∧
        (os.view (serve (gnRoutes os ex) (Rpc.start w) (pre ++ [dg])).srv.world).lstat path =
          .ok st ∧
        ∀ later,
          Denotes ex.root (serve (gnRoutes os ex) (Rpc.start w) (pre ++ dg :: later)).srv.table
              fh path ∧
            objectOf os ex object
                (serve (gnRoutes os ex) (Rpc.start w) (pre ++ dg :: later)) fh =
              object (serve (gnRoutes os ex) (Rpc.start w) (pre ++ dg :: later)).srv.world
                path := by
  obtain ⟨r, hroute, hends⟩ := route_issues os ex hproc xid
  obtain ⟨hsrv, hreply⟩ := handleOne_run hparse hroute
    (s := serve (gnRoutes os ex) (Rpc.start w) pre) (miss_of_ran hparse hroute hran)
  have hissues := hends args ((serve (gnRoutes os ex) (Rpc.start w) pre).arrive dg).srv
  rw [hsent] at hreply
  obtain ⟨dir, name, rest, t, path, st, hreads, hjoin, hst, rfl, htable⟩ :=
    runRoute_issues (c := ⟨xid, nfsProg, nfsVers, proc⟩) hissues hreply.symm hfh
  rw [← hsrv] at hst htable
  have hlast : serve (gnRoutes os ex) (Rpc.start w) (pre ++ [dg]) =
      (handleOne (gnRoutes os ex) (serve (gnRoutes os ex) (Rpc.start w) pre) dg).1 := by
    rw [serve_append, serve_cons, serve_nil]
  have hok : TableOk ex.root (serve (gnRoutes os ex) (Rpc.start w) pre).srv.table :=
    (serve_keeps (tableInv_grows os ex []) ⟨tableOk_empty _, List.nil_prefix⟩ pre).1
  have ht : TableOk ex.root t := hreads.ok hok
  rw [hlast] at hroom
  refine ⟨dir, name, rest, t, path, st, hreads, hjoin, by rw [hlast]; exact hst, ?_⟩
  intro later
  have hden : Denotes ex.root (serve (gnRoutes os ex) (Rpc.start w)
      (pre ++ dg :: later)).srv.table (issue ex.root t path) path := by
    apply issue_denotes ht
    · rw [serve_append, serve_cons, ← htable]
      refine (serve_keeps (tableInv_grows os ex _) ⟨?_, List.prefix_rfl⟩ later).2
      rw [htable]
      exact ht.intern path
    · rw [← htable]
      exact hroom
  refine ⟨hden, ?_⟩
  rw [objectOf, hden]
  rfl

/-! ## A name that changes hands -/

/-- Files below `/r`, each path with the number of its object, and the number
for the next one. -/
def numberedOs : Os (ℕ × List (Bytes × ℕ)) where
  view w :=
    { noFs with
      lstat := fun path =>
        match w.2.find? (·.1 = path) with
        | some f => .ok (plainStat 0o100644 f.2)
        | none => .error 2
      stat := fun path =>
        if path = ascii "/r" then .ok (plainStat 0o40755 1) else .error 2 }
  chmod w _ _ := w
  truncate w _ _ := w
  writeAt w _ _ _ := (.error 5, w)
  mkdir w _ _ := (.error 13, w)
  creat w path _ :=
    if w.2.any (·.1 = path) then (.ok (), w)
    else (.ok (), (w.1 + 1, (path, w.1) :: w.2))
  unlink w path :=
    if w.2.any (·.1 = path) then (.ok (), (w.1, w.2.filter (·.1 ≠ path)))
    else (.error 2, w)
  rmdir w _ := (.error 20, w)
  rename w _ _ := (.error 13, w)
  link w _ _ := (.error 13, w)
  symlink w _ _ := (.error 13, w)

def numberOf (w : ℕ × List (Bytes × ℕ)) (path : Bytes) : Option ℕ :=
  (w.2.find? (·.1 = path)).map Prod.snd

/-- A call on an entry of `/r`, with the attributes `tail` behind its name. -/
def entryCall (xid proc : ℕ) (name tail : Bytes) : Datagram (ℕ × List (Bytes × ℕ)) :=
  ⟨⟨1, 1023⟩, callHead xid nfsProg nfsVers proc ++
    issue (ascii "/r") Table.empty (ascii "/r") ++ counted name ++ tail, id, 91, 91⟩

/-- The removal of `a`, and a new file of that name. -/
def handOver : List (Datagram (ℕ × List (Bytes × ℕ))) :=
  [entryCall 10 10 (ascii "a") [], entryCall 11 9 (ascii "a")
    ((List.replicate 8 noValue).flatMap be32)]

/-- The server after a LOOKUP of `a`, and the reply to it. -/
def lookedUp : Rpc (ℕ × List (Bytes × ℕ)) × Handled :=
  handleOne (gnRoutes numberedOs flatExport) (Rpc.start (3, [(ascii "/r/a", 2)]))
    (entryCall 9 4 (ascii "a") [])

/-- The handle of the first object works on the second one. -/
theorem handle_changes_object :
    ∃ reply fh, lookedUp.2.sent = some reply ∧ handleOf reply = some fh ∧
      objectOf numberedOs flatExport numberOf lookedUp.1 fh = some 2 ∧
      objectOf numberedOs flatExport numberOf
        (serve (gnRoutes numberedOs flatExport) lookedUp.1 handOver) fh = some 3 := by
  refine ⟨lookedUp.2.sent.getD [], (handleOf (lookedUp.2.sent.getD [])).getD [],
    ?_, ?_, ?_, ?_⟩
  · decide +kernel
  · decide +kernel
  · decide +kernel
  · decide +kernel

/-- The handle that the LOOKUP has handed out. -/
def firstHandle : Bytes := (handleOf (lookedUp.2.sent.getD [])).getD []

/-- The server behind the removal and the new file. -/
def handedOver : Rpc (ℕ × List (Bytes × ℕ)) :=
  serve (gnRoutes numberedOs flatExport) (Rpc.start (3, [(ascii "/r/a", 2)]))
    (entryCall 9 4 (ascii "a") [] :: handOver)

/-- It does so because it is resolved to the path `/r/a` all the time. -/
theorem handle_keeps_path_handOver :
    Denotes flatExport.root handedOver.srv.table firstHandle (ascii "/r/a") ∧
      objectOf numberedOs flatExport numberOf handedOver firstHandle =
        numberOf handedOver.srv.world (ascii "/r/a") := by
  have hran : (handleOne (gnRoutes numberedOs flatExport)
      (serve (gnRoutes numberedOs flatExport) (Rpc.start (3, [(ascii "/r/a", 2)])) [])
      (entryCall 9 4 (ascii "a") [])).2.ran = true := by
    decide +kernel
  have hsent : (handleOne (gnRoutes numberedOs flatExport)
      (serve (gnRoutes numberedOs flatExport) (Rpc.start (3, [(ascii "/r/a", 2)])) [])
      (entryCall 9 4 (ascii "a") [])).2.sent = some (lookedUp.2.sent.getD []) := by
    decide +kernel
  obtain ⟨dir, name, rest, t, path, st, -, -, -, hlater⟩ :=
    handle_keeps_path numberedOs flatExport numberOf (3, [(ascii "/r/a", 2)]) []
      (entryCall 9 4 (ascii "a") []) 9 4
      (issue (ascii "/r") Table.empty (ascii "/r") ++ counted (ascii "a"))
      (Or.inl rfl) (by decide +kernel) hran (lookedUp.2.sent.getD [])
      firstHandle hsent (by decide +kernel) (by decide +kernel)
  have hserve : serve (gnRoutes numberedOs flatExport) (Rpc.start (3, [(ascii "/r/a", 2)]))
      ([] ++ entryCall 9 4 (ascii "a") [] :: handOver) = handedOver := rfl
  obtain ⟨hdenotes, hobject⟩ := hlater handOver
  rw [hserve] at hdenotes hobject
  have hresolved : (fhToPath noFs flatExport.root handedOver.srv.table firstHandle).1 =
      some (ascii "/r/a") := by
    decide +kernel
  have hpath : some path = some (ascii "/r/a") := by
    rw [← hresolved, hdenotes noFs]
  rw [Option.some.inj hpath] at hdenotes hobject
  exact ⟨hdenotes, hobject⟩

end GrandCross
