import GrandCross.HandleRestart
import GrandCross.ReadDir
import GrandCross.WriteLog

/-!
# Reading back what was written

READ and WRITE calls on one regular file through its handle.  The log of the
writes that were answered `NFS_OK` says which bytes a later read must return.
`nfs_write` answers `NFS_OK` whatever `pwrite` stored of the data, so the log
holds as long as the system stores all of it.
-/

namespace GrandCross

open CText EarlyExit WriteLog

/-- What `pread` and `pwrite` on the file promise: a read returns bytes from
the offset on, perhaps fewer than are there; a failed call sets `errno`, and a
failed write changes nothing; a write stores some front part of the data. -/
structure FileLaws {σ : Type} (os : Os σ) (path : Bytes) (content : σ → Bytes) : Prop where
  read : ∀ w count off data st, (os.view w).readAt path count off = .ok (data, st) →
    data <+: (content w).drop off
  readFailed : ∀ w count off e, (os.view w).readAt path count off = .error e → e ≠ 0
  write : ∀ w data off st, (os.writeAt w path data off).1 = .ok st →
    ∃ k ≤ data.length, content (os.writeAt w path data off).2 =
      overwrite 0 (content w) (data.take k) off
  writeFailed : ∀ w data off e, (os.writeAt w path data off).1 = .error e →
    e ≠ 0 ∧ content (os.writeAt w path data off).2 = content w

/-- The system stores all of the data, or fails. -/
def StoresAll {σ : Type} (os : Os σ) (path : Bytes) (content : σ → Bytes)
    (w : σ) (data : Bytes) (off : ℕ) : Prop :=
  ∀ st, (os.writeAt w path data off).1 = .ok st →
    content (os.writeAt w path data off).2 = overwrite 0 (content w) data off

/-- The handle resolves to the path without a search of the export. -/
def Denotes (root : Bytes) (t : Table) (fh path : Bytes) : Prop :=
  ∀ fs, fhToPath fs root t fh = (some path, t)

/-! ## Calls -/

inductive FileOp where
  | read (off count : UInt32)
  | write (off : UInt32) (data : Bytes)

def FileOp.proc : FileOp → ℕ
  | .read _ _ => 6
  | .write _ _ => 8

/-- The arguments of a call through a handle. -/
def FileOp.Args (fh : Bytes) : FileOp → Bytes → Prop
  | .read off count, args => ∃ (total : UInt32) (tail : Bytes),
      args = fh ++ ([off.toNat, count.toNat, total.toNat].flatMap be32 ++ tail)
  | .write off data, args => data.length ≤ 8192 ∧
      ∃ (start total : UInt32) (tail : Bytes), args =
        fh ++ ([start.toNat, off.toNat, total.toNat].flatMap be32 ++ (counted data ++ tail))

/-- A READ or WRITE call through the handle, with any credentials. -/
structure FileCall (σ : Type) (fh : Bytes) where
  dg : Datagram σ
  xid : ℕ
  op : FileOp
  args : Bytes
  parses : rpcParseCall dg.data = some (⟨xid, nfsProg, nfsVers, op.proc⟩, args)
  shaped : op.Args fh args

/-- The status word of a reply. -/
def statusOf (reply : Bytes) : Option ℕ := (xdrGetU32 (reply.drop 24)).map Prod.fst

/-- The data of a READ reply, behind the status and the attributes. -/
def readData (reply : Bytes) : Option Bytes := (xdrGetBytes (reply.drop 96)).map Prod.fst

/-- What a reply adds to the log: a write that was answered `NFS_OK`. -/
def FileOp.acked : FileOp → Option Bytes → List (Write Byte)
  | .write off data, some reply =>
      if statusOf reply = some nfsOk then [⟨off.toNat, data⟩] else []
  | _, _ => []

section Calls

variable {σ : Type} (os : Os σ) (ex : Export) {fh : Bytes}

/-- One call: the server behind it, and the log with what was acknowledged. -/
def fileStep (r : Rpc σ × List (Write Byte)) (call : FileCall σ fh) :
    Rpc σ × List (Write Byte) :=
  let h := handleOne (gnRoutes os ex) r.1 call.dg
  (h.1, call.op.acked h.2.sent ++ r.2)

/-- The server after the calls, and the log of their acknowledged writes, the
latest first. -/
def fileRun (s : Rpc σ) (calls : List (FileCall σ fh)) : Rpc σ × List (Write Byte) :=
  calls.foldl (fileStep os ex) (s, [])

/-- The reply to a call behind the others. -/
def fileReply (s : Rpc σ) (before : List (FileCall σ fh)) (call : FileCall σ fh) :
    Option Bytes :=
  (handleOne (gnRoutes os ex) (fileRun os ex s before).1 call.dg).2.sent

/-- No `pwrite` of the run is short. -/
def NoShortWrite (path : Bytes) (content : σ → Bytes) (s : Rpc σ)
    (calls : List (FileCall σ fh)) : Prop :=
  ∀ before call after off data, calls = before ++ call :: after →
    call.op = .write off data →
      StoresAll os path content
        (call.dg.outside (fileRun os ex s before).1.srv.world) data off.toNat

end Calls

/-! ## One procedure -/

section Procs

variable {σ : Type} {os : Os σ} {ex : Export} {fh path : Bytes}

theorem toNat_words (a b c : UInt32) :
    ∀ v ∈ [a.toNat, b.toNat, c.toNat], v < 2 ^ 32 := by
  intro v hv
  simp only [List.mem_cons, List.not_mem_nil, or_false] at hv
  rcases hv with rfl | rfl | rfl
  · exact a.toNat_lt
  · exact b.toNat_lt
  · exact c.toNat_lt

theorem exec_nfsRead
    {srv : Srv σ} (hfh : fh.length = fhSize) (hden : Denotes ex.root srv.table fh path)
    (off count total : UInt32) (tail : Bytes) (out : XdrOut) :
    exec (nfsRead os ex
        (fh ++ ([off.toNat, count.toNat, total.toNat].flatMap be32 ++ tail)) out) srv =
      match (os.view srv.world).readAt path (min count.toNat 8192) off.toNat with
      | .error e => (.error (some (xdrPutU32 out (errnoToNfs e))), srv)
      | .ok (data, st) =>
          (.ok (xdrPutBytes (putFattr (xdrPutU32 out nfsOk) st)
            (data.take (min count.toNat 8192))), srv) := by
  have hwords : getWords 3 ([off.toNat, count.toNat, total.toNat].flatMap be32 ++ tail) =
      some ([off.toNat, count.toNat, total.toNat], tail) :=
    getWords_flatMap (toNat_words off count total) tail
  unfold nfsRead
  rw [exec_bind, exec_argFh hfh (hden _)]
  dsimp only
  rw [hwords, exec_bind, exec_orDrop]
  simp only [exec_bind, exec_look, List.getD_cons_zero, List.getD_cons_succ]
  cases (os.view srv.world).readAt path (min count.toNat 8192) off.toNat with
  | error e => rfl
  | ok p => rfl

theorem exec_nfsWrite
    {srv : Srv σ} (hfh : fh.length = fhSize) (hden : Denotes ex.root srv.table fh path)
    (start off total : UInt32) {data : Bytes} (hdata : data.length ≤ 8192) (tail : Bytes)
    (out : XdrOut) :
    exec (nfsWrite os ex (fh ++ ([start.toNat, off.toNat, total.toNat].flatMap be32 ++
        (counted data ++ tail))) out) srv =
      (match (os.writeAt srv.world path data off.toNat).1 with
        | .error e => .error (some (xdrPutU32 out (errnoToNfs e)))
        | .ok st => .ok (putFattr (xdrPutU32 out nfsOk) st),
        { srv with world := (os.writeAt srv.world path data off.toNat).2 }) := by
  have hwords : getWords 3 ([start.toNat, off.toNat, total.toNat].flatMap be32 ++
      (counted data ++ tail)) =
        some ([start.toNat, off.toNat, total.toNat], counted data ++ tail) :=
    getWords_flatMap (toNat_words start off total) _
  have hbytes : xdrGetBytes (counted data ++ tail) = some (data, tail) :=
    xdrGetBytes_counted (by omega) tail
  unfold nfsWrite
  rw [exec_bind, exec_argFh hfh (hden _)]
  dsimp only
  rw [hwords, exec_bind, exec_orDrop]
  dsimp only
  rw [hbytes, exec_bind, exec_orDrop]
  simp only [exec_bind, exec_change, List.getD_cons_zero, List.getD_cons_succ]
  cases (os.writeAt srv.world path data off.toNat).1 with
  | error e => rfl
  | ok st => rfl

/-! ## One call -/

theorem statusOf_reply {v : ℕ} (hv : v < 2 ^ 32) (xid : ℕ) (rest : Bytes) :
    statusOf (headBytes xid ++ (be32 v ++ rest)) = some v := by
  have hdrop : (headBytes xid ++ (be32 v ++ rest)).drop 24 = be32 v ++ rest := by
    have hlen : (headBytes xid).length = 24 := rfl
    rw [← hlen, List.drop_left]
  rw [statusOf, hdrop, xdrGetU32_word hv]
  rfl

theorem readData_reply
    {data : Bytes} (hdata : data.length ≤ 8192) (xid : ℕ) (st : Stat) :
    readData (headBytes xid ++ (be32 nfsOk ++ ((fattrWords st).flatMap be32 ++
      counted data))) = some data := by
  have hdrop : (headBytes xid ++ (be32 nfsOk ++ ((fattrWords st).flatMap be32 ++
      counted data))).drop 96 = counted data := by
    have hlen : (headBytes xid ++ (be32 nfsOk ++ (fattrWords st).flatMap be32)).length =
        96 := rfl
    rw [← List.append_assoc (be32 nfsOk), ← List.append_assoc (headBytes xid), ← hlen,
      List.drop_left]
  have hread := xdrGetBytes_counted (p := data) (by omega) []
  rw [List.append_nil] at hread
  rw [readData, hdrop, hread]
  rfl

theorem errnoToNfs_lt (e : ℕ) : errnoToNfs e < 2 ^ 32 := by
  unfold errnoToNfs
  split
  all_goals decide

theorem statusOf_error (e xid : ℕ) :
    statusOf (headBytes xid ++ be32 (errnoToNfs e)) = some (errnoToNfs e) := by
  have hstatus := statusOf_reply (errnoToNfs_lt e) xid []
  rw [List.append_nil] at hstatus
  exact hstatus

theorem errnoToNfs_ne {e : ℕ} (he : e ≠ 0) : errnoToNfs e ≠ nfsOk := by
  unfold errnoToNfs
  split
  case h_1 => exact absurd rfl he
  all_goals decide

theorem statusReply_eq (xid status : ℕ) :
    xdrPutU32 (replyHead xid 0 (xdrInit rpcBufSize)) status =
      ⟨headBytes xid ++ be32 status, rpcBufSize, false⟩ := by
  rw [replyHead_eq, xdrPutU32_ok]
  show 24 + 4 ≤ 65536
  decide

theorem fattrReply_eq (xid : ℕ) (st : Stat) :
    putFattr (xdrPutU32 (replyHead xid 0 (xdrInit rpcBufSize)) nfsOk) st =
      ⟨headBytes xid ++ (be32 nfsOk ++ (fattrWords st).flatMap be32), rpcBufSize,
        false⟩ := by
  rw [statusReply_eq, putFattr, xdrPutWords_ok, List.append_assoc]
  rw [List.length_append, be32_length]
  show 24 + 4 + 4 * 17 ≤ 65536
  decide

theorem dataReply_eq {data : Bytes} (hdata : data.length ≤ 8192) (xid : ℕ) (st : Stat) :
    xdrPutBytes (putFattr (xdrPutU32 (replyHead xid 0 (xdrInit rpcBufSize)) nfsOk) st)
        data =
      ⟨headBytes xid ++ (be32 nfsOk ++ ((fattrWords st).flatMap be32 ++ counted data)),
        rpcBufSize, false⟩ := by
  have hpad : padOf data.length < 4 := Nat.mod_lt _ (by norm_num)
  rw [fattrReply_eq, xdrPutBytes_ok]
  · simp only [List.append_assoc]
  · have hlen : (headBytes xid ++ (be32 nfsOk ++ (fattrWords st).flatMap be32)).length =
        96 := rfl
    have hbuf : rpcBufSize = 65536 := rfl
    rw [hlen, counted_length, hbuf]
    omega

section Call

variable {s : Rpc σ} {call : FileCall σ fh}

variable (os) in
/-- A READ leaves the server as it was and returns what `pread` delivers. -/
theorem handleOne_fileRead
    (hfh : fh.length = fhSize) (hden : Denotes ex.root s.srv.table fh path)
    {off count : UInt32} (hop : call.op = .read off count) :
    (handleOne (gnRoutes os ex) s call.dg).1.srv = (s.arrive call.dg).srv ∧
      ∃ reply, (handleOne (gnRoutes os ex) s call.dg).2.sent = some reply ∧
        match (os.view (call.dg.outside s.srv.world)).readAt path (min count.toNat 8192)
            off.toNat with
        | .error e => statusOf reply = some (errnoToNfs e)
        | .ok (data, _) => readData reply = some (data.take (min count.toNat 8192)) := by
  have hparse := call.parses
  have hshaped := call.shaped
  rw [hop] at hparse hshaped
  obtain ⟨total, tail, hargs⟩ := hshaped
  rw [hargs] at hparse
  have hroute : matchRoute (gnRoutes os ex) ⟨call.xid, nfsProg, nfsVers, 6⟩ =
      some ⟨nfsProg, nfsVers, 6, nfsRead os ex, false⟩ := rfl
  obtain ⟨hsrv, hsent⟩ := handleOne_run hparse hroute (s := s)
    (fun h => absurd h Bool.false_ne_true)
  rw [hsrv, hsent]
  unfold runRoute
  have hden' : Denotes ex.root (s.arrive call.dg).srv.table fh path := hden
  rw [exec_nfsRead hfh hden']
  have hworld : (s.arrive call.dg).srv.world = call.dg.outside s.srv.world := rfl
  rw [hworld]
  cases (os.view (call.dg.outside s.srv.world)).readAt path (min count.toNat 8192)
      off.toNat with
  | error e =>
      refine ⟨rfl, headBytes call.xid ++ be32 (errnoToNfs e), ?_, ?_⟩
      · dsimp only
        rw [statusReply_eq]
        rfl
      · exact statusOf_error e call.xid
  | ok p =>
      have hlen : (p.1.take (min count.toNat 8192)).length ≤ 8192 := by
        rw [List.length_take]
        omega
      refine ⟨rfl, headBytes call.xid ++ (be32 nfsOk ++ ((fattrWords p.2).flatMap be32 ++
        counted (p.1.take (min count.toNat 8192)))), ?_, ?_⟩
      · dsimp only
        rw [dataReply_eq hlen]
        rfl
      · exact readData_reply hlen call.xid p.2

variable (os) in
/-- A WRITE makes one `pwrite` and answers with its outcome. -/
theorem handleOne_fileWrite
    (hfh : fh.length = fhSize) (hden : Denotes ex.root s.srv.table fh path)
    {off : UInt32} {data : Bytes} (hop : call.op = .write off data)
    (hmiss : drcLookup s.drc call.dg.peer call.xid call.dg.now = none) :
    (handleOne (gnRoutes os ex) s call.dg).1.srv =
        ⟨(os.writeAt (call.dg.outside s.srv.world) path data off.toNat).2, s.srv.table⟩ ∧
      ∃ reply, (handleOne (gnRoutes os ex) s call.dg).2.sent = some reply ∧
        match (os.writeAt (call.dg.outside s.srv.world) path data off.toNat).1 with
        | .error e => statusOf reply = some (errnoToNfs e)
        | .ok _ => statusOf reply = some nfsOk := by
  have hparse := call.parses
  have hshaped := call.shaped
  rw [hop] at hparse hshaped
  obtain ⟨hdata, start, total, tail, hargs⟩ := hshaped
  rw [hargs] at hparse
  have hroute : matchRoute (gnRoutes os ex) ⟨call.xid, nfsProg, nfsVers, 8⟩ =
      some ⟨nfsProg, nfsVers, 8, nfsWrite os ex, true⟩ := rfl
  obtain ⟨hsrv, hsent⟩ := handleOne_run hparse hroute (s := s) (fun _ => hmiss)
  rw [hsrv, hsent]
  unfold runRoute
  have hden' : Denotes ex.root (s.arrive call.dg).srv.table fh path := hden
  rw [exec_nfsWrite hfh hden' start off total hdata]
  have hworld : (s.arrive call.dg).srv.world = call.dg.outside s.srv.world := rfl
  rw [hworld]
  cases (os.writeAt (call.dg.outside s.srv.world) path data off.toNat).1 with
  | error e =>
      refine ⟨rfl, headBytes call.xid ++ be32 (errnoToNfs e), ?_, ?_⟩
      · dsimp only
        rw [statusReply_eq]
        rfl
      · exact statusOf_error e call.xid
  | ok st =>
      refine ⟨rfl, headBytes call.xid ++ (be32 nfsOk ++ (fattrWords st).flatMap be32),
        ?_, ?_⟩
      · dsimp only
        rw [fattrReply_eq]
        rfl
      · exact statusOf_reply (by decide) call.xid _

end Call

end Procs

/-! ## Transaction ids the cache has not seen -/

def Unseen (drc : Drc) (xids : List ℕ) : Prop :=
  ∀ e ∈ drc.slots, e.valid = true → e.xid ∉ xids

section Unseen

variable {σ : Type} {routes : List (Route σ)} {xids : List ℕ}

theorem Unseen.init (xids : List ℕ) : Unseen Drc.init xids :=
  fun _ he hvalid => absurd hvalid (by simp [init_unused he])

theorem Unseen.lookup
    {drc : Drc} (hdrc : Unseen drc xids) {xid : ℕ} (hxid : xid ∈ xids) (peer : Peer)
    (now : ℤ) : drcLookup drc peer xid now = none := by
  apply List.find?_eq_none.mpr
  intro e he hkey
  simp only [DrcEnt.hasKey, Bool.and_eq_true, beq_iff_eq] at hkey
  obtain ⟨⟨⟨hvalid, hsame⟩, -⟩, -⟩ := hkey
  exact hdrc e he hvalid (hsame ▸ hxid)

theorem Unseen.step
    {s : Rpc σ} (hdrc : Unseen s.drc xids) {dg : Datagram σ}
    (hdg : ∀ xid ∈ xids, cachedXid routes dg ≠ some xid) :
    Unseen (handleOne routes s dg).1.drc xids := by
  apply handleOne_entries_hold hdrc
  intro xid reply hxid _ hmem
  exact hdg xid hmem hxid

theorem Unseen.serve
    {s : Rpc σ} (hdrc : Unseen s.drc xids) (dgs : List (Datagram σ))
    (hdgs : ∀ dg ∈ dgs, ∀ xid ∈ xids, cachedXid routes dg ≠ some xid) :
    Unseen (serve routes s dgs).drc xids := by
  induction dgs generalizing s with
  | nil => exact hdrc
  | cons dg dgs ih =>
      obtain ⟨hdg, hdgs⟩ := List.forall_mem_cons.mp hdgs
      exact ih (hdrc.step hdg) hdgs

theorem Unseen.mono
    {drc : Drc} (hdrc : Unseen drc xids) {ys : List ℕ} (hsub : ∀ y ∈ ys, y ∈ xids) :
    Unseen drc ys :=
  fun e he hvalid hmem => hdrc e he hvalid (hsub _ hmem)

theorem cachedXid_call
    {fh : Bytes} (call : FileCall σ fh) {xid : ℕ}
    (h : cachedXid routes call.dg = some xid) : xid = call.xid := by
  obtain ⟨c, args, r, hparse, -, -, rfl⟩ := cachedXid_eq_some h
  rw [call.parses] at hparse
  have hcall := (Prod.mk.inj (Option.some.inj hparse)).1
  rw [← hcall]

end Unseen

/-! ## Runs -/

section Runs

variable {σ : Type} {os : Os σ} {ex : Export} {fh path : Bytes} {content : σ → Bytes}

/-- The handle stands for the path, the file holds what the log says, and the
cache does not know the calls to come. -/
structure Logged (ex : Export) (fh path : Bytes) (content : σ → Bytes) (orig : Bytes)
    (xids : List ℕ) (r : Rpc σ × List (Write Byte)) : Prop where
  denotes : Denotes ex.root r.1.srv.table fh path
  reflects : Reflects 0 orig r.2 (content r.1.srv.world)
  unseen : Unseen r.1.drc xids

variable {orig : Bytes} {xids : List ℕ} {r : Rpc σ × List (Write Byte)}

/-- A call keeps the log true, unless its `pwrite` is short. -/
theorem Logged.step
    (hlaws : FileLaws os path content) (hfh : fh.length = fhSize) {call : FileCall σ fh}
    (h : Logged ex fh path content orig (call.xid :: xids) r) (hxid : call.xid ∉ xids)
    (hapart : ∀ w, content (call.dg.outside w) = content w)
    (hfull : ∀ off data, call.op = .write off data →
      StoresAll os path content (call.dg.outside r.1.srv.world) data off.toNat) :
    Logged ex fh path content orig xids (fileStep os ex r call) := by
  have hunseen : Unseen (handleOne (gnRoutes os ex) r.1 call.dg).1.drc xids := by
    apply (h.unseen.mono fun _ hy => List.mem_cons_of_mem _ hy).step
    intro xid hmem hcached
    rw [cachedXid_call call hcached] at hmem
    exact hxid hmem
  have harrive := h.reflects
  rw [← hapart] at harrive
  cases hop : call.op with
  | read off count =>
      obtain ⟨hsrv, reply, hsent, -⟩ := handleOne_fileRead os hfh h.denotes hop
      refine ⟨?_, ?_, hunseen⟩
      · rw [fileStep, hsrv]
        exact h.denotes
      · rw [fileStep, hsrv, hop]
        exact harrive
  | write off data =>
      have hmiss := h.unseen.lookup List.mem_cons_self call.dg.peer call.dg.now
      obtain ⟨hsrv, reply, hsent, hstatus⟩ :=
        handleOne_fileWrite os hfh h.denotes hop hmiss
      refine ⟨?_, ?_, hunseen⟩
      · rw [fileStep, hsrv]
        exact h.denotes
      · rw [fileStep, hsrv, hop, hsent]
        dsimp only [FileOp.acked]
        cases hwrite : (os.writeAt (call.dg.outside r.1.srv.world) path data
            off.toNat).1 with
        | error e =>
            obtain ⟨he, hsame⟩ := hlaws.writeFailed _ _ _ _ hwrite
            rw [hwrite] at hstatus
            have hnot : statusOf reply ≠ some nfsOk := by
              rw [hstatus]
              exact fun heq => errnoToNfs_ne he (Option.some.inj heq)
            rw [if_neg hnot, hsame]
            exact harrive
        | ok st =>
            rw [hwrite] at hstatus
            rw [if_pos hstatus, hfull off data hop st hwrite]
            exact harrive.write ⟨off.toNat, data⟩

/-- The READ of a file that holds what the log says. -/
theorem Logged.read
    (hlaws : FileLaws os path content) (hfh : fh.length = fhSize) {call : FileCall σ fh}
    (h : Logged ex fh path content orig xids r)
    (hapart : ∀ w, content (call.dg.outside w) = content w) {off count : UInt32}
    (hop : call.op = .read off count) {reply : Bytes}
    (hsent : (handleOne (gnRoutes os ex) r.1 call.dg).2.sent = some reply)
    (hok : statusOf reply = some nfsOk) :
    ∃ data, readData reply = some data ∧ ∀ i b, data[i]? = some b →
      b = lastWritten 0 orig r.2 (off.toNat + i) := by
  obtain ⟨-, reply', hsent', houtcome⟩ := handleOne_fileRead os hfh h.denotes hop
  rw [hsent] at hsent'
  obtain rfl := Option.some.inj hsent'
  have harrive := h.reflects
  rw [← hapart] at harrive
  cases hread : (os.view (call.dg.outside r.1.srv.world)).readAt path
      (min count.toNat 8192) off.toNat with
  | error e =>
      rw [hread] at houtcome
      dsimp only at houtcome
      rw [hok] at houtcome
      exact absurd (Option.some.inj houtcome).symm
        (errnoToNfs_ne (hlaws.readFailed _ _ _ _ hread))
  | ok p =>
      rw [hread] at houtcome
      refine ⟨_, houtcome, ?_⟩
      intro i b hb
      have hprefix := hlaws.read _ _ _ _ _ hread
      exact harrive.read ((List.take_prefix _ _).trans hprefix) hb

theorem fileRun_snoc (s : Rpc σ) (before : List (FileCall σ fh)) (call : FileCall σ fh) :
    fileRun os ex s (before ++ [call]) = fileStep os ex (fileRun os ex s before) call := by
  rw [fileRun, List.foldl_append]
  rfl

/-- In front of every call the log is true. -/
theorem fileRun_logged
    (hlaws : FileLaws os path content) (hfh : fh.length = fhSize) {s : Rpc σ}
    {calls : List (FileCall σ fh)}
    (hstart : Logged ex fh path content orig (calls.map FileCall.xid) (s, []))
    (hnodup : (calls.map FileCall.xid).Nodup)
    (hapart : ∀ call ∈ calls, ∀ w, content (call.dg.outside w) = content w)
    (hfull : NoShortWrite os ex path content s calls) (before rest : List (FileCall σ fh))
    (hcalls : calls = before ++ rest) :
    Logged ex fh path content orig (rest.map FileCall.xid) (fileRun os ex s before) := by
  induction before using List.reverseRecOn generalizing rest with
  | nil =>
      rw [List.nil_append] at hcalls
      rw [← hcalls]
      exact hstart
  | append_singleton before call ih =>
      rw [List.append_assoc, List.singleton_append] at hcalls
      have hbefore := ih (call :: rest) hcalls
      have hxid : call.xid ∉ rest.map FileCall.xid := by
        rw [hcalls, List.map_append, List.map_cons] at hnodup
        exact (List.nodup_cons.mp (List.nodup_append.mp hnodup).2.1).1
      rw [fileRun_snoc]
      apply hbefore.step hlaws hfh hxid
      · exact hapart call (by simp [hcalls])
      · intro off data hop
        exact hfull before call rest off data hcalls hop

end Runs

/-- READ and WRITE calls with transaction ids of their own, through a handle
that stands for the file, in a run without a short `pwrite`: a READ answered
`NFS_OK` returns at every place what the latest acknowledged WRITE over it put
there, else what the file held in the beginning. -/
theorem acknowledged_writes_readable
    {σ : Type} (os : Os σ) (ex : Export) (path : Bytes) (content : σ → Bytes)
    (hlaws : FileLaws os path content) (w : σ) (pre : List (Datagram σ)) (fh : Bytes)
    (hfh : fh.length = fhSize)
    (hden : Denotes ex.root (serve (gnRoutes os ex) (Rpc.start w) pre).srv.table fh path)
    (calls : List (FileCall σ fh)) (hnodup : (calls.map FileCall.xid).Nodup)
    (hfresh : ∀ dg ∈ pre, ∀ call ∈ calls,
      cachedXid (gnRoutes os ex) dg ≠ some call.xid)
    (hapart : ∀ call ∈ calls, ∀ w, content (call.dg.outside w) = content w)
    (hfull : NoShortWrite os ex path content
      (serve (gnRoutes os ex) (Rpc.start w) pre) calls)
    (before after : List (FileCall σ fh)) (call : FileCall σ fh)
    (hcalls : calls = before ++ call :: after) (off count : UInt32)
    (hop : call.op = .read off count) (reply : Bytes)
    (hsent : fileReply os ex (serve (gnRoutes os ex) (Rpc.start w) pre) before call =
      some reply) (hok : statusOf reply = some nfsOk) :
    ∃ data, readData reply = some data ∧ ∀ i b, data[i]? = some b →
      b = lastWritten 0 (content (serve (gnRoutes os ex) (Rpc.start w) pre).srv.world)
        (fileRun os ex (serve (gnRoutes os ex) (Rpc.start w) pre) before).2
        (off.toNat + i) := by
  have hunseen : Unseen (serve (gnRoutes os ex) (Rpc.start w) pre).drc
      (calls.map FileCall.xid) := by
    apply (Unseen.init (calls.map FileCall.xid)).serve pre
    intro dg hdg xid hxid
    obtain ⟨other, hother, rfl⟩ := List.mem_map.mp hxid
    exact hfresh dg hdg other hother
  have hlogged := fileRun_logged hlaws hfh ⟨hden, Reflects.start 0 _, hunseen⟩ hnodup
    hapart hfull before (call :: after) hcalls
  exact hlogged.read hlaws hfh (hapart call (by simp [hcalls])) hop hsent hok

/-! ## A system that stores a bounded part of a write -/

/-- The file `/r/a` of a system that stores at most `chunk` bytes at a time. -/
def chunkOs (chunk : ℕ) : Os (List Bytes) :=
  { flatOs with
    view := fun w =>
      { noFs with
        lstat := fun path =>
          if path = ascii "/r/a" then .ok (plainStat 0o100644 2) else .error 2
        stat := fun path =>
          if path = ascii "/r" then .ok (plainStat 0o40755 1) else .error 2
        readAt := fun path count off =>
          if path = ascii "/r/a" then
            .ok (((w.headD []).drop off).take count, plainStat 0o100644 2)
          else .error 2 }
    writeAt := fun w path data off =>
      if path = ascii "/r/a" then
        (.ok (plainStat 0o100644 2), [overwrite 0 (w.headD []) (data.take chunk) off])
      else (.error 2, w) }

theorem chunkOs_laws (chunk : ℕ) :
    FileLaws (chunkOs chunk) (ascii "/r/a") (·.headD []) where
  read := by
    intro w count off data st hread
    simp only [chunkOs, if_true, Except.ok.injEq, Prod.mk.injEq] at hread
    rw [← hread.1]
    exact List.take_prefix _ _
  readFailed := by
    intro w count off e hread
    simp [chunkOs] at hread
  write := by
    intro w data off st _
    refine ⟨min chunk data.length, min_le_right _ _, ?_⟩
    rw [← List.take_eq_take_min]
    simp [chunkOs]
  writeFailed := by
    intro w data off e hwrite
    simp [chunkOs] at hwrite

/-- The handle a client gets for `/r/a` after a mount. -/
def chunkFh : Bytes :=
  handleBytes 1 (ascii "/r/a") (hash64 (ascii "a")).1 (hash64 (ascii "a")).2

/-- A server with the file `xy`, after a mount and a lookup. -/
def chunkStart (chunk : ℕ) : Rpc (List Bytes) :=
  serve (gnRoutes (chunkOs chunk) flatExport) (Rpc.start [ascii "xy"])
    [mountCall, lookupCall (ascii "a")]

def writeAb : FileCall (List Bytes) chunkFh where
  dg := ⟨⟨1, 1023⟩, callHead 20 nfsProg nfsVers 8 ++ (chunkFh ++ ([0, 0, 0].flatMap be32 ++
    (counted (ascii "ab") ++ []))), id, 95, 95⟩
  xid := 20
  op := .write 0 (ascii "ab")
  args := chunkFh ++ ([0, 0, 0].flatMap be32 ++ (counted (ascii "ab") ++ []))
  parses := by decide +kernel
  shaped := ⟨by decide, 0, 0, [], rfl⟩

def readTwo : FileCall (List Bytes) chunkFh where
  dg := ⟨⟨1, 1023⟩, callHead 21 nfsProg nfsVers 6 ++
    (chunkFh ++ ([0, 2, 0].flatMap be32 ++ [])), id, 96, 96⟩
  xid := 21
  op := .read 0 2
  args := chunkFh ++ ([0, 2, 0].flatMap be32 ++ [])
  parses := by decide +kernel
  shaped := ⟨0, [], rfl⟩

/-- A system that stores one byte at a time: the WRITE of `ab` is answered
`NFS_OK`, and the READ behind it returns `ay`. -/
theorem short_write_acknowledged :
    FileLaws (chunkOs 1) (ascii "/r/a") (·.headD []) ∧
      ∃ reply, fileReply (chunkOs 1) flatExport (chunkStart 1) [writeAb] readTwo =
          some reply ∧ statusOf reply = some nfsOk ∧
        readData reply = some (ascii "ay") ∧
        (ascii "ay")[1]? ≠ some (lastWritten 0 ((chunkStart 1).srv.world.headD [])
          (fileRun (chunkOs 1) flatExport (chunkStart 1) [writeAb]).2 1) := by
  refine ⟨chunkOs_laws 1, (fileReply (chunkOs 1) flatExport (chunkStart 1) [writeAb]
    readTwo).getD [], ?_, ?_, ?_, ?_⟩
  · decide +kernel
  · decide +kernel
  · decide +kernel
  · decide +kernel

theorem chunkOs_stores
    {chunk : ℕ} {data : Bytes} (hdata : data.length ≤ chunk) (w : List Bytes) (off : ℕ) :
    StoresAll (chunkOs chunk) (ascii "/r/a") (·.headD []) w data off := by
  intro st _
  simp [chunkOs, List.take_of_length_le hdata]

/-- A system that stores two bytes at a time returns both of them. -/
theorem acknowledged_write_read_back :
    ∃ data, readData ((fileReply (chunkOs 2) flatExport (chunkStart 2) [writeAb]
        readTwo).getD []) = some data ∧
      ∀ i b, data[i]? = some b → b = lastWritten 0 ((chunkStart 2).srv.world.headD [])
        (fileRun (chunkOs 2) flatExport (chunkStart 2) [writeAb]).2
        ((0 : UInt32).toNat + i) := by
  have hden : Denotes flatExport.root (chunkStart 2).srv.table chunkFh (ascii "/r/a") :=
    fun fs => fhToPath_fast (by decide +kernel) (by decide +kernel)
  have hmem : ∀ call ∈ [writeAb, readTwo], call = writeAb ∨ call = readTwo := by
    simp
  have hapart : ∀ call ∈ [writeAb, readTwo], ∀ w : List Bytes,
      (call.dg.outside w).headD [] = w.headD [] := by
    intro call hcall w
    rcases hmem call hcall with rfl | rfl
    · rfl
    · rfl
  have hfull : NoShortWrite (chunkOs 2) flatExport (ascii "/r/a") (·.headD [])
      (chunkStart 2) [writeAb, readTwo] := by
    intro before call after off data hcalls hop
    rcases hmem call (by simp [hcalls]) with rfl | rfl
    · obtain ⟨-, rfl⟩ := FileOp.write.inj hop
      exact chunkOs_stores (by decide) _ _
    · exact absurd hop (by simp [readTwo])
  have hsent : fileReply (chunkOs 2) flatExport (chunkStart 2) [writeAb] readTwo =
      some ((fileReply (chunkOs 2) flatExport (chunkStart 2) [writeAb] readTwo).getD []) := by
    decide +kernel
  have hok : statusOf ((fileReply (chunkOs 2) flatExport (chunkStart 2) [writeAb]
      readTwo).getD []) = some nfsOk := by
    decide +kernel
  rw [chunkStart] at hden hfull hsent hok ⊢
  exact acknowledged_writes_readable (chunkOs 2) flatExport (ascii "/r/a") (·.headD [])
    (chunkOs_laws 2) [ascii "xy"] [mountCall, lookupCall (ascii "a")] chunkFh
    (by decide +kernel) hden [writeAb, readTwo] (by decide) (by decide +kernel) hapart hfull
    [writeAb] [] readTwo rfl 0 2 rfl _ hsent hok

end GrandCross
