import GrandCross.NfsCalls

/-!
# What the calls do

The service behind the wire: a call on handles and names changes the file
system and the handle table and has a result.  Every procedure of `nfsd/nfs.c`,
run on the arguments of a call behind the header of a reply, writes that
result and leaves the server in that state.
-/

namespace GrandCross

open CText EarlyExit

/-- The words of `fattr` that reach a client. -/
def wireAttrs (st : Stat) : List ℕ := (fattrWords st).map (· % 2 ^ 32)

section Service

variable {σ : Type} (os : Os σ) (ex : Export)

def lstatAt (path : Bytes) (s : Srv σ) : Except ℕ Stat := (os.view s.world).lstat path

/-- Work on the object a handle stands for, if there is one. -/
def withFh (fh : Bytes) (s : Srv σ) (f : Bytes → Srv σ → NfsResult × Srv σ) :
    NfsResult × Srv σ :=
  let r := fhToPath (os.view s.world) ex.root s.table fh
  match r.1 with
  | none => (.failed nfsErrStale, { s with table := r.2 })
  | some path => f path { s with table := r.2 }

/-- What a successful call makes of its value; a failed one has its status. -/
def orFailed {α : Type} (r : Except ℕ α) (s : Srv σ) (f : α → NfsResult × Srv σ) :
    NfsResult × Srv σ :=
  match r with
  | .error e => (.failed (errnoToNfs e), s)
  | .ok a => f a

def orStatus {α : Type} (r : Option α) (status : ℕ) (s : Srv σ)
    (f : α → NfsResult × Srv σ) : NfsResult × Srv σ :=
  match r with
  | none => (.failed status, s)
  | some a => f a

def attrsAt (path : Bytes) (s : Srv σ) : NfsResult × Srv σ :=
  orFailed (lstatAt os path s) s fun st => (.attrs (wireAttrs st), s)

/-- A new handle for a path, with its attributes. -/
def entryAt (path : Bytes) (st : Stat) (s : Srv σ) : NfsResult × Srv σ :=
  let r := fhFromPath ex.root s.table path
  (.entry r.1 (wireAttrs st), { s with table := r.2 })

/-- A change that returns nothing else. -/
def changed (r : Except ℕ Unit × σ) (s : Srv σ) : NfsResult × Srv σ :=
  orFailed r.1 { s with world := r.2 } fun _ => (.done, { s with world := r.2 })

/-- `CREATE` and `MKDIR`: an object that cannot be looked at afterwards is an
I/O error. -/
def makeAt (dirMode : Bool) (dir name : Bytes) (attrs : Sattr) (s : Srv σ) :
    NfsResult × Srv σ :=
  withFh os ex dir s fun dir s =>
    orStatus (joinChild ex.root dir name pathMax) nfsErrAcces s fun child =>
      let mode := if attrs.mode = noValue then (if dirMode then 0o755 else 0o644) else attrs.mode
      let made := if dirMode then os.mkdir s.world child (mode % 4096)
        else os.creat s.world child (mode % 4096)
      orFailed made.1 { s with world := made.2 } fun _ =>
        match (os.view made.2).lstat child with
        | .error _ => (.failed nfsErrIo, { s with world := made.2 })
        | .ok st => entryAt ex child st { s with world := made.2 }

/-- `REMOVE` and `RMDIR`. -/
def eraseAt (isDir : Bool) (dir name : Bytes) (s : Srv σ) : NfsResult × Srv σ :=
  withFh os ex dir s fun dir s =>
    orStatus (joinChild ex.root dir name pathMax) nfsErrAcces s fun child =>
      changed (if isDir then os.rmdir s.world child else os.unlink s.world child) s

/-- The result of a call and the state it leaves. -/
def answer (c : NfsCall) (s : Srv σ) : NfsResult × Srv σ :=
  match c with
  | .pmapNull | .mntNull | .umnt _ | .nfsNull => (.void, s)
  | .getport prog _ _ _ =>
      (.port (if prog = mountProg ∨ prog = nfsProg then ex.nfsPort % 2 ^ 32 else 0), s)
  | .mnt dir =>
      if dir ≠ ex.root then (.failed nfsErrAcces, s)
      else
        match (os.view s.world).stat ex.root with
        | .error _ => (.failed nfsErrNotdir, s)
        | .ok st =>
            if st.isDir then
              let r := fhFromPath ex.root s.table ex.root
              (.handle r.1, { s with table := r.2 })
            else (.failed nfsErrNotdir, s)
  | .exports => (.exports [⟨ex.root, []⟩], s)
  | .getattr fh => withFh os ex fh s (attrsAt os)
  | .setattr fh attrs => withFh os ex fh s fun path s =>
      let w := if attrs.mode ≠ noValue then os.chmod s.world path (attrs.mode % 4096)
        else s.world
      let w := if attrs.size ≠ noValue then os.truncate w path attrs.size else w
      attrsAt os path { s with world := w }
  | .lookup dir name => withFh os ex dir s fun dir s =>
      orStatus (joinChild ex.root dir name pathMax) nfsErrNoent s fun child =>
        orFailed (lstatAt os child s) s fun st => entryAt ex child st s
  | .readlink fh => withFh os ex fh s fun path s =>
      orFailed ((os.view s.world).readlink path) s fun target =>
        (.target (target.take 1023), s)
  | .read fh offset count _ => withFh os ex fh s fun path s =>
      orFailed ((os.view s.world).readAt path (min count 8192) offset) s fun p =>
        (.data (wireAttrs p.2) (p.1.take (min count 8192)), s)
  | .write fh _ offset _ data => withFh os ex fh s fun path s =>
      let r := os.writeAt s.world path data offset
      orFailed r.1 { s with world := r.2 } fun st =>
        (.attrs (wireAttrs st), { s with world := r.2 })
  | .create dir name attrs => makeAt os ex false dir name attrs s
  | .mkdir dir name attrs => makeAt os ex true dir name attrs s
  | .remove dir name => eraseAt os ex false dir name s
  | .rmdir dir name => eraseAt os ex true dir name s
  | .rename fromDir fromName toDir toName =>
      withFh os ex fromDir s fun fromDir s => withFh os ex toDir s fun toDir s =>
        orStatus (joinChild ex.root fromDir fromName pathMax) nfsErrAcces s fun old =>
          orStatus (joinChild ex.root toDir toName pathMax) nfsErrAcces s fun new =>
            changed (os.rename s.world old new) s
  | .link fh toDir toName =>
      withFh os ex fh s fun path s => withFh os ex toDir s fun toDir s =>
        orStatus (joinChild ex.root toDir toName pathMax) nfsErrAcces s fun new =>
          changed (os.link s.world path new) s
  | .symlink dir name target _ => withFh os ex dir s fun dir s =>
      orStatus (joinChild ex.root dir name pathMax) nfsErrAcces s fun child =>
        changed (os.symlink s.world target child) s
  | .readdir dir cookie count => withFh os ex dir s fun path s =>
      orFailed ((os.view s.world).opendir path) s fun stream =>
        let p := pageOf (os.view s.world) ex.root path cookie (min count rdMaxData)
          stream.names 0 0
        (.page ⟨p.1, p.2 ∧ stream.errno = 0⟩, s)
  | .statfs fh => withFh os ex fh s fun path s =>
      orFailed ((os.view s.world).statvfs path) s fun v =>
        (.space ([8192, v.1, v.2.1, v.2.2.1, v.2.2.2].map (· % 2 ^ 32)), s)

end Service

/-- A call that fails has set `errno`. -/
structure Os.SetsErrno {σ : Type} (os : Os σ) : Prop where
  lstat : ∀ w path, (os.view w).lstat path ≠ .error 0
  opendir : ∀ w path, (os.view w).opendir path ≠ .error 0
  readAt : ∀ w path count offset, (os.view w).readAt path count offset ≠ .error 0
  readlink : ∀ w path, (os.view w).readlink path ≠ .error 0
  statvfs : ∀ w path, (os.view w).statvfs path ≠ .error 0
  writeAt : ∀ w path data offset, (os.writeAt w path data offset).1 ≠ .error 0
  mkdir : ∀ w path mode, (os.mkdir w path mode).1 ≠ .error 0
  creat : ∀ w path mode, (os.creat w path mode).1 ≠ .error 0
  unlink : ∀ w path, (os.unlink w path).1 ≠ .error 0
  rmdir : ∀ w path, (os.rmdir w path).1 ≠ .error 0
  rename : ∀ w old new, (os.rename w old new).1 ≠ .error 0
  link : ∀ w path new, (os.link w path new).1 ≠ .error 0
  symlink : ∀ w target path, (os.symlink w target path).1 ≠ .error 0

/-! ## What a procedure writes -/

/-- The largest body of a reply: a status, the attributes and a block. -/
def replyBodyMax : ℕ := 8268

/-- A reply that accepts the call, with this body so far. -/
def replyWith (xid : ℕ) (body : Bytes) : XdrOut := ⟨headBytes xid ++ body, rpcBufSize, false⟩

/-- The encoder an outcome hands over to be sent. -/
def replyOf : Except (Option XdrOut) XdrOut → Option XdrOut
  | .ok out => some out
  | .error exit => exit

/-- The outcome is a result behind the header, with the state that goes with
it, and `read` finds the result in it. -/
structure Returns {σ : Type} (xid : ℕ) (read : Bytes → Option NfsResult)
    (p : Except (Option XdrOut) XdrOut × Srv σ) (r : NfsResult × Srv σ) : Prop where
  reply : replyOf p.1 = some (replyWith xid r.1.encode)
  state : p.2 = r.2
  decodes : read r.1.encode = some r.1
  length : r.1.encode.length ≤ replyBodyMax

section Encoder

variable {xid : ℕ} {body : Bytes}

theorem replyWith_nil (xid : ℕ) :
    replyHead xid 0 (xdrInit rpcBufSize) = replyWith xid [] := by
  rw [replyHead_eq, replyWith, List.append_nil]

theorem put_replyWith {data : Bytes} (hroom : body.length + data.length ≤ replyBodyMax) :
    (replyWith xid body).put data = replyWith xid (body ++ data) := by
  have hhead : (headBytes xid).length = 24 := rfl
  have hbuf : rpcBufSize = 65536 := rfl
  have hmax : replyBodyMax = 8268 := rfl
  unfold replyWith
  rw [XdrOut.put_ok, List.append_assoc]
  rw [List.length_append]
  omega

theorem putU32_replyWith (v : ℕ) (hroom : body.length + 4 ≤ replyBodyMax) :
    xdrPutU32 (replyWith xid body) v = replyWith xid (body ++ be32 v) :=
  put_replyWith hroom

theorem putWords_replyWith
    (words : List ℕ) (hroom : body.length + 4 * words.length ≤ replyBodyMax) :
    words.foldl xdrPutU32 (replyWith xid body) =
      replyWith xid (body ++ words.flatMap be32) := by
  induction words generalizing body with
  | nil => simp
  | cons v words ih =>
      rw [List.length_cons] at hroom
      rw [List.foldl_cons, putU32_replyWith v (by omega), ih, List.flatMap_cons,
        List.append_assoc]
      rw [List.length_append, be32_length]
      omega

theorem putHandle_replyWith
    {fh : Bytes} (hfh : fh.length = fhSize) (hroom : body.length + 32 ≤ replyBodyMax) :
    xdrPutFixed (replyWith xid body) fh = replyWith xid (body ++ fh) := by
  have hpad : padOf fh.length = 0 := by
    rw [hfh]
    rfl
  have hsize : fh.length = 32 := hfh
  rw [xdrPutFixed, hpad, List.replicate_zero, List.append_nil, put_replyWith]
  omega

theorem putBytes_replyWith
    {p : Bytes} (hroom : body.length + (counted p).length ≤ replyBodyMax) :
    xdrPutBytes (replyWith xid body) p = replyWith xid (body ++ counted p) := by
  have hlen := counted_length p
  rw [xdrPutBytes, xdrPutFixed, putU32_replyWith _ (by omega), put_replyWith]
  · simp [counted]
  · rw [List.length_append, List.length_append, List.length_replicate, be32_length]
    omega

theorem flatMap_be32_mod (words : List ℕ) :
    (words.map (· % 2 ^ 32)).flatMap be32 = words.flatMap be32 := by
  rw [List.flatMap_map]
  exact List.flatMap_congr fun v _ => be32_mod v

theorem wordsFit_mod (words : List ℕ) : WordsFit (words.map (· % 2 ^ 32)) := by
  intro v hv
  obtain ⟨w, -, rfl⟩ := List.mem_map.mp hv
  exact Nat.mod_lt _ (by norm_num)

theorem flatMap_be32_length (words : List ℕ) :
    (words.flatMap be32).length = 4 * words.length := by
  induction words with
  | nil => rfl
  | cons v words ih =>
      rw [List.flatMap_cons, List.length_append, ih, be32_length, List.length_cons]
      omega

theorem wireAttrs_length (st : Stat) : (wireAttrs st).length = fattrLength := rfl

theorem putFattr_replyWith
    (st : Stat) (hroom : body.length + 68 ≤ replyBodyMax) :
    putFattr (replyWith xid body) st =
      replyWith xid (body ++ (wireAttrs st).flatMap be32) := by
  rw [putFattr, putWords_replyWith _ hroom, wireAttrs, flatMap_be32_mod]

end Encoder

/-! ## The building blocks -/

theorem errnoToNfs_fits {e : ℕ} (he : e ≠ 0) : errnoToNfs e ≠ 0 ∧ errnoToNfs e < 2 ^ 32 := by
  unfold errnoToNfs
  split
  · exact absurd rfl he
  all_goals decide

section Blocks

variable {σ : Type} {os : Os σ} {ex : Export} {xid : ℕ} {read body : Bytes → Option NfsResult}

theorem Returns.pure
    {out : XdrOut} {r : NfsResult} {s : Srv σ} (hout : out = replyWith xid r.encode)
    (hread : read r.encode = some r) (hlen : r.encode.length ≤ replyBodyMax) :
    Returns xid read (exec (Pure.pure out : NfsM σ XdrOut) s) (r, s) where
  reply := by rw [exec_pure, replyOf, hout]
  state := rfl
  decodes := hread
  length := hlen

theorem readStatus_failed {status : ℕ} (hne : status ≠ 0) (hlt : status < 2 ^ 32) :
    readStatus body (NfsResult.failed status).encode = some (.failed status) := by
  have hword := xdrGetU32_word hlt []
  rw [List.append_nil] at hword
  simp [readStatus, NfsResult.encode, hword, nfsOk, hne]

theorem readStatus_ok {rest : Bytes} {r : NfsResult} (hbody : body rest = some r) :
    readStatus body (be32 nfsOk ++ rest) = some r := by
  have hword := xdrGetU32_word (by decide : nfsOk < 2 ^ 32) rest
  simp [readStatus, hword, hbody]

theorem finishStatus_returns
    {status : ℕ} (hne : status ≠ 0) (hlt : status < 2 ^ 32) (s : Srv σ) :
    Returns xid (readStatus body)
      (exec (finishStatus (replyWith xid []) status : NfsM σ XdrOut) s) (.failed status, s) where
  reply := by
    rw [finishStatus, finish, exec_throw, replyOf, putU32_replyWith _ (by decide)]
    rfl
  state := rfl
  decodes := readStatus_failed hne hlt
  length := (by decide : 4 ≤ replyBodyMax)

theorem okOr_returns
    {α : Type} {r : Except ℕ α} (hr : r ≠ .error 0) {s : Srv σ} {f : α → NfsM σ XdrOut}
    {g : α → NfsResult × Srv σ}
    (hf : ∀ a, r = .ok a → Returns xid (readStatus body) (exec (f a) s) (g a)) :
    Returns xid (readStatus body) (exec (okOr (replyWith xid []) r >>= f) s)
      (orFailed r s g) := by
  cases r with
  | ok a => exact hf a rfl
  | error e =>
      have hne : e ≠ 0 := fun h => hr (h ▸ rfl)
      obtain ⟨hpos, hlt⟩ := errnoToNfs_fits hne
      exact finishStatus_returns hpos hlt s

theorem exec_orDrop_bind
    {α β : Type} {get : Option α} {a : α} (hget : get = some a) (f : α → NfsM σ β)
    (s : Srv σ) : exec (orDrop get >>= f) s = exec (f a) s := by
  rw [hget]
  rfl

/-- The lookup of a handle that `arg_fh` and the second handle of `RENAME` and
`LINK` share. -/
theorem resolveFh_returns
    {fh : Bytes} {s : Srv σ} {f : Option Bytes → NfsM σ XdrOut}
    {g : Bytes → Srv σ → NfsResult × Srv σ}
    (hnone : f none = finishStatus (replyWith xid []) nfsErrStale)
    (hsome : ∀ path s, Returns xid (readStatus body) (exec (f (some path)) s) (g path s)) :
    Returns xid (readStatus body) (exec (resolveFh os ex fh >>= f) s)
      (withFh os ex fh s g) := by
  rw [exec_bind, resolveFh, exec_act]
  dsimp only [withFh]
  cases (fhToPath (os.view s.world) ex.root s.table fh).1 with
  | none =>
      rw [hnone]
      exact finishStatus_returns (by decide) (by decide) _
  | some path => exact hsome path _

theorem argFh_returns
    {input fh rest : Bytes} (hget : xdrGetFixed fhSize input = some (fh, rest)) {s : Srv σ}
    {f : Bytes × Bytes → NfsM σ XdrOut} {g : Bytes → Srv σ → NfsResult × Srv σ}
    (hf : ∀ path s, Returns xid (readStatus body) (exec (f (path, rest)) s) (g path s)) :
    Returns xid (readStatus body) (exec (argFh os ex input (replyWith xid []) >>= f) s)
      (withFh os ex fh s g) := by
  unfold argFh
  rw [hget]
  dsimp only
  rw [bind_assoc]
  exact resolveFh_returns rfl hf

theorem argToDir_returns
    {input fh rest : Bytes} (hget : xdrGetFixed fhSize input = some (fh, rest)) {s : Srv σ}
    {f : Bytes × Bytes → NfsM σ XdrOut} {g : Bytes → Srv σ → NfsResult × Srv σ}
    (hf : ∀ path s, Returns xid (readStatus body) (exec (f (path, rest)) s) (g path s)) :
    Returns xid (readStatus body) (exec (argToDir os ex input (replyWith xid []) >>= f) s)
      (withFh os ex fh s g) := by
  unfold argToDir
  rw [bind_assoc, exec_orDrop_bind hget]
  dsimp only
  rw [bind_assoc]
  exact resolveFh_returns rfl hf

theorem exec_look_bind
    {α : Type} (h : FsView → α) (f : α → NfsM σ XdrOut) (s : Srv σ) :
    exec (look os h >>= f) s = exec (f (h (os.view s.world))) s := rfl

theorem exec_change_bind
    {α : Type} (h : σ → α × σ) (f : α → NfsM σ XdrOut) (s : Srv σ) :
    exec (change h >>= f) s = exec (f (h s.world).1) { s with world := (h s.world).2 } := rfl

theorem exec_makeFh_bind
    (path : Bytes) (f : Bytes → NfsM σ XdrOut) (s : Srv σ) :
    exec (makeFh ex path >>= f) s =
      exec (f (fhFromPath ex.root s.table path).1)
        { s with table := (fhFromPath ex.root s.table path).2 } := rfl

theorem fhFromPath_size (root path : Bytes) (t : Table) :
    (fhFromPath root t path).1.length = fhSize := rfl

/-! ### Results -/

theorem attrs_returns (st : Stat) (s : Srv σ) :
    Returns xid (readStatus readAttrs)
      (exec (Pure.pure (putFattr (xdrPutU32 (replyWith xid []) nfsOk) st) : NfsM σ XdrOut) s)
      (.attrs (wireAttrs st), s) := by
  apply Returns.pure
  · rw [putU32_replyWith _ (by decide), putFattr_replyWith _ (by decide)]
    rfl
  · apply readStatus_ok
    have hwords := getWords_end (wordsFit_mod (fattrWords st))
    simp only [readAttrs, fattrLength, wireAttrs] at hwords ⊢
    rw [show (17 : ℕ) = ((fattrWords st).map (· % 2 ^ 32)).length from rfl, hwords]
    rfl
  · rw [NfsResult.encode, List.length_append, flatMap_be32_length, wireAttrs_length]
    decide

theorem attrsAt_returns (herrno : os.SetsErrno) (path : Bytes) (s : Srv σ) :
    Returns xid (readStatus readAttrs) (exec (replyStatFattr os (replyWith xid []) path) s)
      (attrsAt os path s) := by
  unfold replyStatFattr
  rw [exec_look_bind]
  exact okOr_returns (herrno.lstat _ _) fun st _ => attrs_returns st s

theorem entryAt_returns (path : Bytes) (st : Stat) (s : Srv σ) :
    Returns xid (readStatus readEntry)
      (exec (makeFh ex path >>= fun fh => (Pure.pure
        (putFattr (xdrPutFixed (xdrPutU32 (replyWith xid []) nfsOk) fh) st) : NfsM σ XdrOut)) s)
      (entryAt ex path st s) := by
  rw [exec_makeFh_bind]
  have hsize := fhFromPath_size ex.root path s.table
  have hlen : (NfsResult.entry (fhFromPath ex.root s.table path).1 (wireAttrs st)).encode.length =
      104 := by
    rw [NfsResult.encode, List.length_append, List.length_append, flatMap_be32_length,
      wireAttrs_length, hsize]
    rfl
  apply Returns.pure
  · rw [putU32_replyWith _ (by decide), putHandle_replyWith hsize (by decide),
      putFattr_replyWith, NfsResult.encode, List.append_assoc]
    · rfl
    · rw [List.length_append, hsize]
      decide
  · apply readStatus_ok
    have hwords := getWords_end (wordsFit_mod (fattrWords st))
    simp only [readEntry, xdrGetFixed_fh hsize, fattrLength, wireAttrs, Option.bind_eq_bind,
      Option.bind_some] at hwords ⊢
    rw [show (17 : ℕ) = ((fattrWords st).map (· % 2 ^ 32)).length from rfl, hwords]
    rfl
  · rw [hlen]
    decide

theorem changed_returns
    {h : σ → Except ℕ Unit × σ} {s : Srv σ} (hh : (h s.world).1 ≠ .error 0) :
    Returns xid (readStatus readDone)
      (exec (change h >>= fun rc =>
        (Pure.pure (putResult (replyWith xid []) rc) : NfsM σ XdrOut)) s)
      (changed (h s.world) s) := by
  rw [exec_change_bind]
  unfold changed
  cases hrc : (h s.world).1 with
  | ok u =>
      apply Returns.pure
      · exact putU32_replyWith _ (by decide)
      · exact readStatus_ok (rfl : readDone [] = some .done)
      · decide
  | error e =>
      have hne : e ≠ 0 := by
        rintro rfl
        exact hh hrc
      obtain ⟨hpos, hlt⟩ := errnoToNfs_fits hne
      apply Returns.pure
      · exact putU32_replyWith _ (by decide)
      · exact readStatus_failed hpos hlt
      · exact (by decide : 4 ≤ replyBodyMax)

end Blocks

/-! ## The procedures -/

section Procedures

variable {σ : Type} {os : Os σ} {ex : Export} {xid : ℕ} {fh dir name : Bytes}
  {attrs : Sattr}

theorem null_returns (s : Srv σ) :
    Returns xid (fun _ => some .void)
      (exec (Pure.pure (replyWith xid []) : NfsM σ XdrOut) s) (.void, s) :=
  Returns.pure rfl rfl (Nat.zero_le _)

theorem pmapGetport_returns
    {prog vers prot port : ℕ} (hwords : WordsFit [prog, vers, prot, port]) (s : Srv σ) :
    Returns xid (NfsCall.getport prog vers prot port).readResult
      (exec (pmapGetport ex ([prog, vers, prot, port].flatMap be32) (replyWith xid [])) s)
      (answer os ex (.getport prog vers prot port) s) := by
  have hget : getWords 4 ([prog, vers, prot, port].flatMap be32) = _ := getWords_end hwords
  unfold pmapGetport
  rw [exec_orDrop_bind hget]
  dsimp only [answer]
  rw [List.getD_cons_zero]
  apply Returns.pure
  · rw [putU32_replyWith _ (by decide), NfsResult.encode, List.nil_append]
    split_ifs
    · rw [be32_mod]
    · rfl
  · generalize hp : (if prog = mountProg ∨ prog = nfsProg then ex.nfsPort % 2 ^ 32 else 0) = p
    have hlt : p < 2 ^ 32 := by
      rw [← hp]
      split_ifs <;> omega
    have hword := xdrGetU32_word hlt []
    rw [List.append_nil] at hword
    simp [NfsCall.readResult, NfsResult.encode, hword]
  · exact (by decide : 4 ≤ replyBodyMax)

theorem mntMnt_returns (hdir : TextFits 1024 dir) (s : Srv σ) :
    Returns xid (readStatus readHandle)
      (exec (mntMnt os ex (counted dir) (replyWith xid [])) s)
      (answer os ex (.mnt dir) s) := by
  unfold mntMnt
  rw [exec_orDrop_bind (xdrGetString_text_end hdir (by norm_num))]
  dsimp only [answer]
  split_ifs with hroot
  · exact finishStatus_returns (by decide : nfsErrAcces ≠ 0) (by decide) s
  · rw [exec_look_bind]
    cases (os.view s.world).stat ex.root with
    | error e => exact finishStatus_returns (by decide : nfsErrNotdir ≠ 0) (by decide) s
    | ok st =>
        dsimp only
        split_ifs
        · rw [exec_makeFh_bind]
          have hsize := fhFromPath_size ex.root ex.root s.table
          apply Returns.pure
          · change xdrPutFixed (xdrPutU32 (replyWith xid []) nfsOk) _ = _
            rw [putU32_replyWith _ (by decide), putHandle_replyWith hsize (by decide)]
            rfl
          · apply readStatus_ok
            simp [readHandle, xdrGetFixed_fh_end hsize]
          · rw [NfsResult.encode, List.length_append, hsize]
            exact (by decide : 4 + 32 ≤ replyBodyMax)
        · exact finishStatus_returns (by decide : nfsErrNotdir ≠ 0) (by decide) s

theorem decodeExports_entry
    {n follows : ℕ} {input dir r₁ r₂ r₃ : Bytes} {groups : List Bytes}
    {entries : List ExportEntry} (hfollows : xdrGetU32 input = some (follows, r₁))
    (hmore : follows ≠ 0) (hdir : xdrGetBytes r₁ = some (dir, r₂))
    (hgroups : decodeGroups (r₂.length + 1) r₂ = some (groups, r₃))
    (hrest : decodeExports n r₃ = some entries) :
    decodeExports (n + 1) input = some (⟨dir, groups⟩ :: entries) := by
  simp [decodeExports, hfollows, hmore, hdir, hgroups, hrest]

/-- The list of one directory that anyone may mount. -/
theorem readExports_root (hroot : ex.root.length < 2 ^ 32) :
    NfsCall.exports.readResult (NfsResult.exports [⟨ex.root, []⟩]).encode =
      some (.exports [⟨ex.root, []⟩]) := by
  have hcode : (NfsResult.exports [⟨ex.root, []⟩]).encode =
      be32 1 ++ (counted ex.root ++ (be32 0 ++ be32 0)) := by
    simp [NfsResult.encode, encodeExports, encodeGroups]
  have hzero := xdrGetU32_word (by norm_num : 0 < 2 ^ 32) []
  rw [List.append_nil] at hzero
  have hgroups : ∀ n, decodeGroups (n + 1) (be32 0 ++ be32 0) = some ([], be32 0) := by
    intro n
    simp [decodeGroups, xdrGetU32_word (by norm_num : 0 < 2 ^ 32)]
  have hend : ∀ n, decodeExports (n + 1) (be32 0) = some [] := by
    intro n
    simp [decodeExports, hzero]
  have hentries : ∀ n, decodeExports (n + 1 + 1)
      (be32 1 ++ (counted ex.root ++ (be32 0 ++ be32 0))) = some [⟨ex.root, []⟩] := fun n =>
    decodeExports_entry (xdrGetU32_word (by norm_num) _) one_ne_zero
      (xdrGetBytes_counted hroot _) (hgroups _) (hend n)
  have hlen : (be32 1 ++ (counted ex.root ++ (be32 0 ++ be32 0))).length + 1 =
      (counted ex.root).length + 11 + 1 + 1 := by
    simp only [List.length_append, be32_length]
    omega
  rw [hcode, NfsCall.readResult, hlen, hentries]
  rfl

theorem mntExport_returns (hroot : ex.root.length ≤ 1023) (s : Srv σ) :
    Returns xid NfsCall.exports.readResult
      (exec (mntExport ex [] (replyWith xid [])) s)
      (answer os ex .exports s) := by
  have hpad : padOf ex.root.length < 4 := Nat.mod_lt _ (by norm_num)
  have hcounted := counted_length ex.root
  have hmax : replyBodyMax = 8268 := rfl
  apply Returns.pure
  · rw [putU32_replyWith _ (by decide), putBytes_replyWith, putU32_replyWith,
      putU32_replyWith]
    · simp [NfsResult.encode, encodeExports, encodeGroups]
    all_goals
      simp only [List.length_append, be32_length, List.length_nil]
      omega
  · exact readExports_root (by omega)
  · simp only [NfsResult.encode, encodeExports, encodeGroups, List.flatMap_cons,
      List.flatMap_nil, List.length_append, be32_length, List.length_nil]
    omega

section Files

variable (herrno : os.SetsErrno)

include herrno

theorem nfsGetattr_returns (hfh : fh.length = fhSize) (s : Srv σ) :
    Returns xid (readStatus readAttrs) (exec (nfsGetattr os ex fh (replyWith xid [])) s)
      (answer os ex (.getattr fh) s) := by
  unfold nfsGetattr
  exact argFh_returns (xdrGetFixed_fh_end hfh) fun path s => attrsAt_returns herrno path s

theorem nfsSetattr_returns
    (hfh : fh.length = fhSize) (hattrs : WordsFit attrs.words) (s : Srv σ) :
    Returns xid (readStatus readAttrs)
      (exec (nfsSetattr os ex (fh ++ attrs.words.flatMap be32) (replyWith xid [])) s)
      (answer os ex (.setattr fh attrs) s) := by
  have hget : getWords 8 (attrs.words.flatMap be32) = _ := getWords_end hattrs
  unfold nfsSetattr
  dsimp only [answer]
  apply argFh_returns (xdrGetFixed_fh hfh _)
  intro path s
  dsimp only
  rw [exec_orDrop_bind hget]
  dsimp only [changeIf]
  rw [exec_change_bind, exec_change_bind]
  have h := @attrsAt_returns _ os xid herrno path
    { s with world := if attrs.size ≠ noValue then
        os.truncate (if attrs.mode ≠ noValue then os.chmod s.world path (attrs.mode % 4096)
          else s.world) path attrs.size
      else if attrs.mode ≠ noValue then os.chmod s.world path (attrs.mode % 4096)
        else s.world }
  simpa [Sattr.words] using h

theorem nfsLookup_returns
    (hdir : dir.length = fhSize) (hname : TextFits (nameMax + 1) name) (s : Srv σ) :
    Returns xid (readStatus readEntry)
      (exec (nfsLookup os ex (dir ++ counted name) (replyWith xid [])) s)
      (answer os ex (.lookup dir name) s) := by
  unfold nfsLookup
  dsimp only [answer]
  apply argFh_returns (xdrGetFixed_fh hdir _)
  intro path s
  dsimp only
  rw [exec_orDrop_bind (xdrGetString_text_end hname (by decide))]
  dsimp only
  cases joinChild ex.root path name pathMax with
  | none => exact finishStatus_returns (by decide : nfsErrNoent ≠ 0) (by decide) s
  | some child =>
      dsimp only
      rw [exec_look_bind]
      exact okOr_returns (herrno.lstat _ _) fun st _ => entryAt_returns child st s

theorem nfsReadlink_returns (hfh : fh.length = fhSize) (s : Srv σ) :
    Returns xid (readStatus readTarget) (exec (nfsReadlink os ex fh (replyWith xid [])) s)
      (answer os ex (.readlink fh) s) := by
  unfold nfsReadlink
  dsimp only [answer]
  apply argFh_returns (xdrGetFixed_fh_end hfh)
  intro path s
  dsimp only
  rw [exec_look_bind]
  apply okOr_returns (herrno.readlink _ _)
  intro target _
  have hlen : (target.take 1023).length ≤ 1023 := List.length_take_le _ _
  have hcounted := counted_length (target.take 1023)
  have hpad : padOf (target.take 1023).length < 4 := Nat.mod_lt _ (by norm_num)
  have hmax : replyBodyMax = 8268 := rfl
  have hok : (be32 nfsOk).length = 4 := rfl
  apply Returns.pure
  · rw [putU32_replyWith _ (by decide), putBytes_replyWith]
    · rfl
    · rw [List.nil_append]
      omega
  · apply readStatus_ok
    have hread := xdrGetBytes_counted (by omega : (target.take 1023).length < 2 ^ 32) []
    rw [List.append_nil] at hread
    simp [readTarget, hread]
  · rw [NfsResult.encode, List.length_append]
    omega

theorem nfsRead_returns
    {offset count total : ℕ} (hfh : fh.length = fhSize)
    (hwords : WordsFit [offset, count, total]) (s : Srv σ) :
    Returns xid (readStatus readBlock)
      (exec (nfsRead os ex (fh ++ [offset, count, total].flatMap be32) (replyWith xid [])) s)
      (answer os ex (.read fh offset count total) s) := by
  have hget : getWords 3 ([offset, count, total].flatMap be32) = _ := getWords_end hwords
  unfold nfsRead
  dsimp only [answer]
  apply argFh_returns (xdrGetFixed_fh hfh _)
  intro path s
  dsimp only
  rw [exec_orDrop_bind hget]
  dsimp only
  rw [exec_look_bind]
  apply okOr_returns (herrno.readAt _ _ _ _)
  rintro ⟨block, st⟩ _
  dsimp only
  have hcount : [offset, count, total].getD 1 0 = count := rfl
  rw [hcount]
  generalize hdata : block.take (min count 8192) = data
  have hlen : data.length ≤ 8192 := by
    rw [← hdata, List.length_take]
    omega
  have hcounted := counted_length data
  have hpad : data.length + padOf data.length ≤ 8192 := by
    unfold padOf
    omega
  have hmax : replyBodyMax = 8268 := rfl
  have hok : (be32 nfsOk).length = 4 := rfl
  have hattrs : ((wireAttrs st).flatMap be32).length = 68 := flatMap_be32_length _
  apply Returns.pure
  · rw [putU32_replyWith _ (by decide), putFattr_replyWith _ (by decide), putBytes_replyWith]
    · simp [NfsResult.encode]
    · rw [List.nil_append, List.length_append]
      omega
  · apply readStatus_ok
    have hfit : WordsFit (wireAttrs st) := wordsFit_mod (fattrWords st)
    have hwords : getWords fattrLength ((wireAttrs st).flatMap be32 ++ counted data) =
        some (wireAttrs st, counted data) := getWords_flatMap hfit _
    have hread := xdrGetBytes_counted (by omega : data.length < 2 ^ 32) []
    rw [List.append_nil] at hread
    rw [readBlock, hwords, Option.bind_eq_bind, Option.bind_some]
    dsimp only
    rw [hread]
    rfl
  · rw [NfsResult.encode, List.length_append, List.length_append]
    omega

theorem nfsWrite_returns
    {begin offset total : ℕ} {data : Bytes} (hfh : fh.length = fhSize)
    (hwords : WordsFit [begin, offset, total]) (hdata : data.length < 2 ^ 32) (s : Srv σ) :
    Returns xid (readStatus readAttrs)
      (exec (nfsWrite os ex (fh ++ ([begin, offset, total].flatMap be32 ++ counted data))
        (replyWith xid [])) s)
      (answer os ex (.write fh begin offset total data) s) := by
  have hget : getWords 3 ([begin, offset, total].flatMap be32 ++ counted data) = _ :=
    getWords_flatMap hwords (counted data)
  have hbytes := xdrGetBytes_counted hdata []
  rw [List.append_nil] at hbytes
  unfold nfsWrite
  dsimp only [answer]
  apply argFh_returns (xdrGetFixed_fh hfh _)
  intro path s
  dsimp only
  rw [exec_orDrop_bind hget]
  dsimp only
  rw [exec_orDrop_bind hbytes]
  dsimp only
  rw [exec_change_bind]
  exact okOr_returns (herrno.writeAt _ _ _ _) fun st _ => attrs_returns st _

theorem createCommon_returns
    (dirMode : Bool) (hdir : dir.length = fhSize) (hname : TextFits (nameMax + 1) name)
    (hattrs : WordsFit attrs.words) (s : Srv σ) :
    Returns xid (readStatus readEntry)
      (exec (createCommon os ex dirMode (dir ++ (counted name ++ attrs.words.flatMap be32))
        (replyWith xid [])) s)
      (makeAt os ex dirMode dir name attrs s) := by
  have hget : getWords 8 (attrs.words.flatMap be32) = _ := getWords_end hattrs
  unfold createCommon makeAt
  apply argFh_returns (xdrGetFixed_fh hdir _)
  intro path s
  dsimp only
  rw [exec_orDrop_bind (xdrGetString_text hname (by decide) _)]
  dsimp only
  rw [exec_orDrop_bind hget]
  dsimp only
  cases joinChild ex.root path name pathMax with
  | none => exact finishStatus_returns (by decide : nfsErrAcces ≠ 0) (by decide) s
  | some child =>
      have hmode : attrs.words.getD 0 0 = attrs.mode := rfl
      dsimp only [orStatus]
      rw [hmode, exec_change_bind]
      apply okOr_returns
      · cases dirMode
        · exact herrno.creat _ _ _
        · exact herrno.mkdir _ _ _
      · intro _ _
        rw [exec_look_bind]
        dsimp only
        cases (os.view _).lstat child with
        | error e => exact finishStatus_returns (by decide : nfsErrIo ≠ 0) (by decide) _
        | ok st => exact entryAt_returns child st _

theorem removeCommon_returns
    (isDir : Bool) (hdir : dir.length = fhSize) (hname : TextFits (nameMax + 1) name)
    (s : Srv σ) :
    Returns xid (readStatus readDone)
      (exec (removeCommon os ex isDir (dir ++ counted name) (replyWith xid [])) s)
      (eraseAt os ex isDir dir name s) := by
  unfold removeCommon eraseAt
  apply argFh_returns (xdrGetFixed_fh hdir _)
  intro path s
  dsimp only
  rw [exec_orDrop_bind (xdrGetString_text_end hname (by decide))]
  dsimp only
  cases joinChild ex.root path name pathMax with
  | none => exact finishStatus_returns (by decide : nfsErrAcces ≠ 0) (by decide) s
  | some child =>
      cases isDir
      · exact changed_returns (herrno.unlink _ _)
      · exact changed_returns (herrno.rmdir _ _)

theorem nfsRename_returns
    {toDir toName : Bytes} (hdir : dir.length = fhSize)
    (hname : TextFits (nameMax + 1) name) (hto : toDir.length = fhSize)
    (htoName : TextFits (nameMax + 1) toName) (s : Srv σ) :
    Returns xid (readStatus readDone)
      (exec (nfsRename os ex (dir ++ (counted name ++ (toDir ++ counted toName)))
        (replyWith xid [])) s)
      (answer os ex (.rename dir name toDir toName) s) := by
  unfold nfsRename
  dsimp only [answer]
  apply argFh_returns (xdrGetFixed_fh hdir _)
  intro path s
  dsimp only
  rw [exec_orDrop_bind (xdrGetString_text hname (by decide) _)]
  dsimp only
  apply argToDir_returns (xdrGetFixed_fh hto _)
  intro toPath s
  dsimp only
  rw [exec_orDrop_bind (xdrGetString_text_end htoName (by decide))]
  dsimp only
  cases joinChild ex.root path name pathMax with
  | none => exact finishStatus_returns (by decide : nfsErrAcces ≠ 0) (by decide) s
  | some old =>
      cases joinChild ex.root toPath toName pathMax with
      | none => exact finishStatus_returns (by decide : nfsErrAcces ≠ 0) (by decide) s
      | some new => exact changed_returns (herrno.rename _ _ _)

theorem nfsLink_returns
    {toDir toName : Bytes} (hfh : fh.length = fhSize) (hto : toDir.length = fhSize)
    (htoName : TextFits (nameMax + 1) toName) (s : Srv σ) :
    Returns xid (readStatus readDone)
      (exec (nfsLink os ex (fh ++ (toDir ++ counted toName)) (replyWith xid [])) s)
      (answer os ex (.link fh toDir toName) s) := by
  unfold nfsLink
  dsimp only [answer]
  apply argFh_returns (xdrGetFixed_fh hfh _)
  intro path s
  dsimp only
  apply argToDir_returns (xdrGetFixed_fh hto _)
  intro toPath s
  dsimp only
  rw [exec_orDrop_bind (xdrGetString_text_end htoName (by decide))]
  dsimp only
  cases joinChild ex.root toPath toName pathMax with
  | none => exact finishStatus_returns (by decide : nfsErrAcces ≠ 0) (by decide) s
  | some new => exact changed_returns (herrno.link _ _ _)

theorem nfsSymlink_returns
    {target : Bytes} (hdir : dir.length = fhSize) (hname : TextFits (nameMax + 1) name)
    (htarget : TextFits 1024 target) (hattrs : WordsFit attrs.words) (s : Srv σ) :
    Returns xid (readStatus readDone)
      (exec (nfsSymlink os ex
        (dir ++ (counted name ++ (counted target ++ attrs.words.flatMap be32)))
        (replyWith xid [])) s)
      (answer os ex (.symlink dir name target attrs) s) := by
  have hget : getWords 8 (attrs.words.flatMap be32) = _ := getWords_end hattrs
  unfold nfsSymlink
  dsimp only [answer]
  apply argFh_returns (xdrGetFixed_fh hdir _)
  intro path s
  dsimp only
  rw [exec_orDrop_bind (xdrGetString_text hname (by decide) _)]
  dsimp only
  rw [exec_orDrop_bind (xdrGetString_text htarget (by norm_num) _)]
  dsimp only
  rw [exec_orDrop_bind hget]
  cases joinChild ex.root path name pathMax with
  | none => exact finishStatus_returns (by decide : nfsErrAcces ≠ 0) (by decide) s
  | some child => exact changed_returns (herrno.symlink _ _ _)

theorem nfsReaddir_returns
    {cookie count : ℕ} (hdir : dir.length = fhSize) (hwords : WordsFit [cookie, count])
    (s : Srv σ) :
    Returns xid (readStatus readPage)
      (exec (nfsReaddir os ex (dir ++ [cookie, count].flatMap be32) (replyWith xid [])) s)
      (answer os ex (.readdir dir cookie count) s) := by
  have hget : getWords 2 ([cookie, count].flatMap be32) = _ := getWords_end hwords
  unfold nfsReaddir
  dsimp only [answer]
  apply argFh_returns (xdrGetFixed_fh hdir _)
  intro path s
  dsimp only
  rw [exec_orDrop_bind hget]
  dsimp only
  rw [exec_look_bind]
  apply okOr_returns (herrno.opendir _ _)
  intro stream _
  have hcookie : [cookie, count].getD 0 0 = cookie := rfl
  have hcount : [cookie, count].getD 1 0 = count := rfl
  rw [hcookie, hcount]
  generalize hp : pageOf (os.view s.world) ex.root path cookie (min count rdMaxData)
    stream.names 0 0 = p
  have hfits : ∀ e ∈ p.1, e.Fits := by
    intro e he
    rw [← hp] at he
    obtain ⟨n, -, i, hi⟩ := mem_pageOf he
    have hshort := entryFor_short hi
    exact entryFor_fits (hshort.trans (by decide)) hi
  have hsmall : (encodeEntries p.1).length ≤ 4096 := by
    rw [← hp]
    exact encodeEntries_small _ _ _ _ _ _
  have hreply : readdirReply (os.view s.world) ex.root path cookie count stream
      (replyWith xid []) =
        replyWith xid (NfsResult.page ⟨p.1, p.2 ∧ stream.errno = 0⟩).encode := by
    rw [replyWith, List.append_nil, readdirReply_eq, hp, replyWith, NfsResult.encode]
    by_cases heof : p.2 = true ∧ stream.errno = 0
    · simp [heof, nfsOk]
    · simp [heof, nfsOk]
  change Returns xid _ (exec (Pure.pure (readdirReply (os.view s.world) ex.root path cookie
    count stream (replyWith xid [])) : NfsM σ XdrOut) s) _
  apply Returns.pure hreply
  · apply readStatus_ok
    generalize decide (p.2 = true ∧ stream.errno = 0) = eof
    have hlt : eof.toNat < 2 ^ 32 := lt_of_le_of_lt eof.toNat_le (by norm_num)
    have hle := length_le_encodeEntries p.1
    have hread := decodeEntries_encode p.1 hfits hlt
      ((encodeEntries p.1 ++ (be32 0 ++ be32 eof.toNat)).length + 1) (by
        rw [List.length_append]
        omega)
    rw [readPage, hread]
    cases eof
    · rfl
    · rfl
  · rw [NfsResult.encode]
    simp only [List.length_append, be32_length]
    have hmax : replyBodyMax = 8268 := rfl
    omega

theorem nfsStatfs_returns (hfh : fh.length = fhSize) (s : Srv σ) :
    Returns xid (readStatus readSpace) (exec (nfsStatfs os ex fh (replyWith xid [])) s)
      (answer os ex (.statfs fh) s) := by
  unfold nfsStatfs
  dsimp only [answer]
  apply argFh_returns (xdrGetFixed_fh_end hfh)
  intro path s
  dsimp only
  rw [exec_look_bind]
  apply okOr_returns (herrno.statvfs _ _)
  rintro ⟨bsize, blocks, bfree, bavail⟩ _
  dsimp only
  have hwords := getWords_end (wordsFit_mod [8192, bsize, blocks, bfree, bavail])
  have hlen := flatMap_be32_length ([8192, bsize, blocks, bfree, bavail].map (· % 2 ^ 32))
  have hput : [nfsOk, 8192, bsize, blocks, bfree, bavail].foldl xdrPutU32 (replyWith xid []) =
      replyWith xid ([] ++ [nfsOk, 8192, bsize, blocks, bfree, bavail].flatMap be32) :=
    putWords_replyWith _ (by decide : 0 + 4 * 6 ≤ replyBodyMax)
  apply Returns.pure
  · rw [hput, NfsResult.encode, flatMap_be32_mod]
    rfl
  · apply readStatus_ok
    have hread : getWords 5 (([8192, bsize, blocks, bfree, bavail].map (· % 2 ^ 32)).flatMap
        be32) = _ := hwords
    simp only [readSpace, hread]
    rfl
  · rw [NfsResult.encode, List.length_append, hlen]
    exact (by decide : 4 + 4 * 5 ≤ replyBodyMax)

end Files

end Procedures

end GrandCross
