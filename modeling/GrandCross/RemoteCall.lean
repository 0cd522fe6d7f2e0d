import GrandCross.NfsAnswers

/-!
# A call over the wire

A client that puts a call into a datagram and reads the reply back finds what
the call itself gives on the server's state.  Only the cache changes that: a
call that changes something may be answered with the result an earlier call of
the same client had under the same transaction id.
-/

namespace GrandCross

open CText EarlyExit

/-! ## Calls in datagrams -/

section Routes

variable {σ : Type} (os : Os σ) (ex : Export)

/-- The procedure that serves a call. -/
def servedBy (c : NfsCall) : Bytes → XdrOut → NfsM σ XdrOut :=
  match c with
  | .pmapNull => pmapNull
  | .getport .. => pmapGetport ex
  | .mntNull => mntNull
  | .mnt .. => mntMnt os ex
  | .umnt .. => mntUmnt
  | .exports => mntExport ex
  | .nfsNull => nfsNull
  | .getattr .. => nfsGetattr os ex
  | .setattr .. => nfsSetattr os ex
  | .lookup .. => nfsLookup os ex
  | .readlink .. => nfsReadlink os ex
  | .read .. => nfsRead os ex
  | .write .. => nfsWrite os ex
  | .create .. => nfsCreate os ex
  | .remove .. => nfsRemove os ex
  | .rename .. => nfsRename os ex
  | .link .. => nfsLink os ex
  | .symlink .. => nfsSymlink os ex
  | .mkdir .. => nfsMkdir os ex
  | .rmdir .. => nfsRmdir os ex
  | .readdir .. => nfsReaddir os ex
  | .statfs .. => nfsStatfs os ex

def NfsCall.route (c : NfsCall) : Route σ :=
  ⟨c.number.1, c.number.2.1, c.number.2.2, servedBy os ex c, c.changes⟩

theorem matchRoute_call (c : NfsCall) (xid : ℕ) :
    matchRoute (gnRoutes os ex) ⟨xid, c.number.1, c.number.2.1, c.number.2.2⟩ =
      some (c.route os ex) := by
  cases c <;> rfl

end Routes

section Calls

variable {σ : Type} {os : Os σ} {ex : Export}

/-- Each procedure, on the arguments of its call. -/
theorem servedBy_returns
    (herrno : os.SetsErrno) (hroot : ex.root.length ≤ 1023) {c : NfsCall} (hc : c.Fits)
    (xid : ℕ) (s : Srv σ) :
    Returns xid c.readResult (exec (servedBy os ex c c.args (replyWith xid [])) s)
      (answer os ex c s) := by
  cases c with
  | pmapNull => exact null_returns s
  | getport => exact pmapGetport_returns hc s
  | mntNull => exact null_returns s
  | mnt => exact mntMnt_returns hc s
  | umnt => exact null_returns s
  | exports => exact mntExport_returns hroot s
  | nfsNull => exact null_returns s
  | getattr => exact nfsGetattr_returns herrno hc s
  | setattr => exact nfsSetattr_returns herrno hc.1 hc.2 s
  | lookup => exact nfsLookup_returns herrno hc.1 hc.2 s
  | readlink => exact nfsReadlink_returns herrno hc s
  | read => exact nfsRead_returns herrno hc.1 hc.2 s
  | write => exact nfsWrite_returns herrno hc.1 hc.2.1 hc.2.2 s
  | create => exact createCommon_returns herrno false hc.1 hc.2.1 hc.2.2 s
  | remove => exact removeCommon_returns herrno false hc.1 hc.2 s
  | rename => exact nfsRename_returns herrno hc.1 hc.2.1 hc.2.2.1 hc.2.2.2 s
  | link => exact nfsLink_returns herrno hc.1 hc.2.1 hc.2.2 s
  | symlink => exact nfsSymlink_returns herrno hc.1 hc.2.1 hc.2.2.1 hc.2.2.2 s
  | mkdir => exact createCommon_returns herrno true hc.1 hc.2.1 hc.2.2 s
  | rmdir => exact removeCommon_returns herrno true hc.1 hc.2 s
  | readdir => exact nfsReaddir_returns herrno hc.1 hc.2 s
  | statfs => exact nfsStatfs_returns herrno hc s

end Calls

/-- A call as a client sends it: who asks, under which transaction id and with
which credentials; and, as for any datagram, what other programs did to the
files before and the clock at the lookup and the store. -/
structure Ask (σ : Type) where
  peer : Peer
  xid : UInt32
  credFlavor : UInt32
  cred : PaddedBody
  verfFlavor : UInt32
  verf : PaddedBody
  call : NfsCall
  outside : σ → σ
  now : ℤ
  later : ℤ

section Asks

variable {σ : Type}

def Ask.msg (a : Ask σ) : CallMsg :=
  ⟨a.xid, UInt32.ofNat a.call.number.1, UInt32.ofNat a.call.number.2.1,
    UInt32.ofNat a.call.number.2.2, a.credFlavor, a.cred, a.verfFlavor, a.verf⟩

def Ask.datagram (a : Ask σ) : Datagram σ :=
  ⟨a.peer, a.msg.encode ++ a.call.args, a.outside, a.now, a.later⟩

theorem NfsCall.number_lt (c : NfsCall) :
    c.number.1 < 2 ^ 32 ∧ c.number.2.1 < 2 ^ 32 ∧ c.number.2.2 < 2 ^ 32 := by
  cases c <;> simp only [number] <;> decide

theorem Ask.parse (a : Ask σ) :
    rpcParseCall a.datagram.data = some (⟨a.xid.toNat, a.call.number.1, a.call.number.2.1,
      a.call.number.2.2⟩, a.call.args) := by
  apply rpcParseCall_iff.mpr
  refine ⟨a.msg, ?_, rfl⟩
  obtain ⟨hprog, hvers, hproc⟩ := a.call.number_lt
  rw [CallMsg.call, Ask.msg]
  dsimp only
  rw [UInt32.toNat_ofNat_of_lt' hprog, UInt32.toNat_ofNat_of_lt' hvers,
    UInt32.toNat_ofNat_of_lt' hproc]

variable {os : Os σ} {ex : Export}

theorem cachedXid_of_uncached
    {routes : List (Route σ)} {dg : Datagram σ} {c : RpcCall} {args : Bytes} {r : Route σ}
    (hparse : rpcParseCall dg.data = some (c, args))
    (hroute : matchRoute routes c = some r) (hcache : r.cache = false) :
    cachedXid routes dg = none := by
  simp [cachedXid, hparse, hroute, hcache]

theorem Ask.changes_of_cachedXid
    {a : Ask σ} {xid : ℕ}
    (hxid : cachedXid (gnRoutes os ex) a.datagram = some xid) :
    a.call.changes = true ∧ xid = a.xid.toNat := by
  have hroute := matchRoute_call os ex a.call a.xid.toNat
  cases hchanges : a.call.changes with
  | false =>
      rw [cachedXid_of_uncached a.parse hroute hchanges] at hxid
      exact absurd hxid (by simp)
  | true =>
      rw [cachedXid_of_route a.parse hroute hchanges, Option.some.injEq] at hxid
      exact ⟨rfl, hxid.symm⟩

variable (os ex) in
/-- The call is served as it stands: the server is left as the call leaves it,
and the client reads the call's result behind its transaction id. -/
structure Served (s : Rpc σ) (a : Ask σ) (reply : Bytes) : Prop where
  state : (handleOne (gnRoutes os ex) s a.datagram).1.srv =
    (answer os ex a.call (s.arrive a.datagram).srv).2
  sent : (handleOne (gnRoutes os ex) s a.datagram).2.sent = some reply
  result : a.call.readReply reply =
    some (a.xid.toNat, (answer os ex a.call (s.arrive a.datagram).srv).1)
  length : reply.length ≤ 24 + replyBodyMax

theorem readReply_head
    {c : NfsCall} {xid : ℕ} (hxid : xid < 2 ^ 32) {body : Bytes} {r : NfsResult}
    (hbody : c.readResult body = some r) :
    c.readReply (headBytes xid ++ body) = some (xid, r) := by
  have hsplit : headBytes xid ++ body =
      be32 xid ++ ([1, 0, 0, 0, 0].flatMap be32 ++ body) := by
    simp [headBytes]
  have hhead : getWords 5 ([1, 0, 0, 0, 0].flatMap be32 ++ body) =
      some ([1, 0, 0, 0, 0], body) :=
    getWords_flatMap (by decide : WordsFit [1, 0, 0, 0, 0]) body
  rw [NfsCall.readReply, hsplit, xdrGetU32_word hxid, Option.bind_eq_bind, Option.bind_some]
  dsimp only
  rw [hhead, Option.bind_eq_bind, Option.bind_some]
  dsimp only
  rw [if_pos rfl, hbody]
  rfl

/-- A call that the cache does not answer. -/
theorem served_of_miss
    (herrno : os.SetsErrno) (hroot : ex.root.length ≤ 1023) {a : Ask σ} (ha : a.call.Fits)
    {s : Rpc σ}
    (hmiss : a.call.changes = true → drcLookup s.drc a.peer a.xid.toNat a.now = none) :
    ∃ reply, Served os ex s a reply := by
  have hroute := matchRoute_call os ex a.call a.xid.toNat
  obtain ⟨hstate, hsent⟩ := handleOne_run a.parse hroute hmiss
  have hreturns := servedBy_returns herrno hroot ha a.xid.toNat (s.arrive a.datagram).srv
  have hrun : runRoute (a.call.route os ex) ⟨a.xid.toNat, a.call.number.1,
      a.call.number.2.1, a.call.number.2.2⟩ a.call.args (s.arrive a.datagram).srv =
        (some (replyWith a.xid.toNat
          (answer os ex a.call (s.arrive a.datagram).srv).1.encode),
          (answer os ex a.call (s.arrive a.datagram).srv).2) := by
    unfold runRoute
    rw [replyWith_nil]
    dsimp only [NfsCall.route]
    have hreply := hreturns.reply
    have hafter := hreturns.state
    revert hreply hafter
    cases exec (servedBy os ex a.call a.call.args (replyWith a.xid.toNat []))
        (s.arrive a.datagram).srv with
    | mk out srv =>
        intro hreply hafter
        cases out with
        | ok out => exact Prod.ext hreply hafter
        | error exit => exact Prod.ext hreply hafter
  rw [hrun] at hstate hsent
  refine ⟨headBytes a.xid.toNat ++
    (answer os ex a.call (s.arrive a.datagram).srv).1.encode, hstate, hsent,
      readReply_head a.xid.toNat_lt hreturns.decodes, ?_⟩
  rw [List.length_append]
  exact Nat.add_le_add (le_of_eq rfl) hreturns.length

end Asks

/-! ## Replies the cache repeats -/

section Memory

variable {σ : Type} {routes : List (Route σ)}

variable (routes) in
/-- A datagram of the run got this reply when its procedure ran. -/
def Remembered (s : Rpc σ) (dgs : List (Datagram σ)) (e : DrcEnt) : Prop :=
  ∃ before dg after, dgs = before ++ dg :: after ∧ dg.peer = e.peer ∧ dg.later = e.stamp ∧
    cachedXid routes dg = some e.xid ∧
    drcLookup (serve routes s before).drc dg.peer e.xid dg.now = none ∧
    (handleOne routes (serve routes s before) dg).2.sent = some e.reply

theorem Remembered.snoc
    {s : Rpc σ} {dgs : List (Datagram σ)} {e : DrcEnt} (h : Remembered routes s dgs e)
    (dg : Datagram σ) : Remembered routes s (dgs ++ [dg]) e := by
  obtain ⟨before, first, after, rfl, hrest⟩ := h
  exact ⟨before, first, after ++ [dg], by simp, hrest⟩

/-- Every entry of the cache is the reply to a datagram of the run. -/
theorem serve_remembers (w : σ) (dgs : List (Datagram σ)) :
    ∀ e ∈ (serve routes (Rpc.start w) dgs).drc.slots, e.valid = true →
      Remembered routes (Rpc.start w) dgs e := by
  induction dgs using List.reverseRecOn with
  | nil =>
      intro e he hvalid
      exact absurd hvalid (by simp [init_unused he])
  | append_singleton dgs dg ih =>
      rw [serve_append, serve_cons, serve_nil]
      intro e he hvalid
      rcases handleOne_drc routes (serve routes (Rpc.start w) dgs) dg with
        ⟨-, hsame⟩ | ⟨xid, reply, hxid, hmiss, hout, hpush⟩
      · rw [hsame] at he
        exact (ih e he hvalid).snoc dg
      · rw [hpush] at he
        rcases SlotRing.mem_push he with hold | rfl
        · exact (ih e hold hvalid).snoc dg
        · exact ⟨dgs, dg, [], by simp, rfl, rfl, hxid, hmiss, by rw [hout]⟩

end Memory

section Runs

variable {σ : Type} {os : Os σ} {ex : Export}

variable (os ex) in
/-- The call is a change and gets the reply that an earlier change of this
client got, under the same transaction id and at most 30 seconds ago; nothing
runs. -/
def Repeated (w : σ) (dgs : List (Datagram σ)) (a : Ask σ) (reply : Bytes) : Prop :=
  a.call.changes = true ∧
    handleOne (gnRoutes os ex) (serve (gnRoutes os ex) (Rpc.start w) dgs) a.datagram =
      ((serve (gnRoutes os ex) (Rpc.start w) dgs).arrive a.datagram,
        ⟨false, false, some reply⟩) ∧
    ∃ before first after, dgs = before ++ Ask.datagram first :: after ∧
      first.peer = a.peer ∧ first.xid = a.xid ∧ first.call.changes = true ∧
      a.now - first.later ≤ drcTtl ∧
      Served os ex (serve (gnRoutes os ex) (Rpc.start w) before) first reply

/-- Whatever the other clients send: a client that only sends calls reads, for
each of them, what the call itself gives on the server as it is then, or for a
change what an earlier one had. -/
theorem remote_call_exact
    (herrno : os.SetsErrno) (port : ℕ) (abs : Bytes) (w : σ) {dgs : List (Datagram σ)}
    {a : Ask σ} (ha : a.call.Fits)
    (hdgs : ∀ dg ∈ dgs, dg.peer = a.peer → ∃ b : Ask σ, b.call.Fits ∧ b.datagram = dg) :
    ∃ reply, Served os ⟨fhSetRoot abs, port⟩
        (serve (gnRoutes os ⟨fhSetRoot abs, port⟩) (Rpc.start w) dgs) a reply ∨
      Repeated os ⟨fhSetRoot abs, port⟩ w dgs a reply := by
  have hroot : (⟨fhSetRoot abs, port⟩ : Export).root.length ≤ 1023 := fhSetRoot_length abs
  generalize (⟨fhSetRoot abs, port⟩ : Export) = ex at hroot
  by_cases hmiss : a.call.changes = true →
      drcLookup (serve (gnRoutes os ex) (Rpc.start w) dgs).drc a.peer a.xid.toNat a.now = none
  · obtain ⟨reply, hserved⟩ := served_of_miss herrno hroot ha hmiss
    exact ⟨reply, .inl hserved⟩
  obtain ⟨hchanges, hfound⟩ := Classical.not_imp.mp hmiss
  obtain ⟨hit, hhit⟩ := Option.ne_none_iff_exists'.mp hfound
  have hxid : cachedXid (gnRoutes os ex) a.datagram = some a.xid.toNat :=
    cachedXid_of_route a.parse (matchRoute_call os ex a.call a.xid.toNat) hchanges
  have hkey := List.find?_some hhit
  simp only [DrcEnt.hasKey, Bool.and_eq_true, beq_iff_eq, decide_eq_true_eq] at hkey
  obtain ⟨⟨⟨hvalid, hsame⟩, hpeer⟩, hlive⟩ := hkey
  obtain ⟨before, dg, after, hsplit, hfrom, hstamp, hcached, hold, hsent⟩ :=
    serve_remembers w dgs hit (List.mem_of_find?_eq_some hhit) hvalid
  obtain ⟨first, hfits, rfl⟩ := hdgs dg (by simp [hsplit]) (hfrom.trans hpeer)
  obtain ⟨hfirst, hid⟩ := Ask.changes_of_cachedXid hcached
  rw [hid] at hold
  obtain ⟨reply, hserved⟩ := served_of_miss herrno hroot hfits fun _ => hold
  have hreply : reply = hit.reply := by
    rw [hserved.sent, Option.some.injEq] at hsent
    exact hsent
  subst hreply
  refine ⟨hit.reply, .inr ⟨hchanges, handleOne_hit hxid hhit, before, first, after, hsplit,
    hfrom.trans hpeer, ?_, hfirst, ?_, hserved⟩⟩
  · exact UInt32.toNat_inj.mp (by rw [← hid, hsame])
  · rw [show first.later = hit.stamp from hstamp]
    exact hlive

end Runs

theorem flatOs_setsErrno : flatOs.SetsErrno where
  lstat w path := by
    simp only [flatOs]
    split_ifs <;> simp
  opendir _ _ := by simp [flatOs, noFs]
  readAt _ _ _ _ := by simp [flatOs, noFs]
  readlink _ _ := by simp [flatOs, noFs]
  statvfs _ _ := by simp [flatOs, noFs]
  writeAt _ _ _ _ := by simp [flatOs]
  mkdir _ _ _ := by simp [flatOs]
  creat _ _ _ := by simp [flatOs]
  unlink w path := by
    simp only [flatOs]
    split_ifs <;> simp
  rmdir _ _ := by simp [flatOs]
  rename _ _ _ := by simp [flatOs]
  link _ _ _ := by simp [flatOs]
  symlink _ _ _ := by simp [flatOs]

def noBody : PaddedBody := ⟨[], [], by decide, rfl⟩

def askMnt : Ask (List Bytes) :=
  ⟨⟨1, 1023⟩, 6, 0, noBody, 0, noBody, .mnt (ascii "/r"), id, 90, 90⟩

/-- Behind a broken datagram of another client, the root is mounted. -/
theorem remote_call_exact_mount :
    ∃ reply, Served flatOs ⟨fhSetRoot (ascii "/r"), 2049⟩
      (serve (gnRoutes flatOs ⟨fhSetRoot (ascii "/r"), 2049⟩) (Rpc.start [ascii "/r/a"])
        [⟨⟨2, 700⟩, [1, 2, 3], id, 80, 80⟩]) askMnt reply := by
  have hfits : askMnt.call.Fits := (by decide : TextFits 1024 (ascii "/r"))
  have hothers : ∀ dg ∈ [(⟨⟨2, 700⟩, [1, 2, 3], id, 80, 80⟩ : Datagram (List Bytes))],
      dg.peer = askMnt.peer → ∃ b : Ask (List Bytes), b.call.Fits ∧ b.datagram = dg := by
    intro dg hdg hpeer
    rw [List.mem_singleton.mp hdg] at hpeer
    exact absurd hpeer (by decide)
  obtain ⟨reply, hserved | hrepeated⟩ :=
    remote_call_exact flatOs_setsErrno 2049 (ascii "/r") [ascii "/r/a"] hfits hothers
  · exact ⟨reply, hserved⟩
  · exact absurd hrepeated.1 (by decide)

end GrandCross
