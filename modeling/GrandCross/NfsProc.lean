import GrandCross.EarlyExit
import GrandCross.FileHandle

/-!
# The procedures of the NFS server

`nfsd/nfs.c`: portmapper, MOUNT v1 and NFS v2.  A procedure reads its
arguments from the datagram, works on the file system and the handle table,
and appends its result to the reply.  `return 0` after a status word is an
exit with the reply, `return -1` an exit that drops the call.
-/

namespace GrandCross

open CText EarlyExit

def nfsOk : ℕ := 0
def nfsErrPerm : ℕ := 1
def nfsErrNoent : ℕ := 2
def nfsErrIo : ℕ := 5
def nfsErrAcces : ℕ := 13
def nfsErrExist : ℕ := 17
def nfsErrNotdir : ℕ := 20
def nfsErrIsdir : ℕ := 21
def nfsErrNospc : ℕ := 28
def nfsErrNametoolong : ℕ := 63
def nfsErrNotempty : ℕ := 66
def nfsErrStale : ℕ := 70

/-- `errno_to_nfs`, with the numbers of a Linux host. -/
def errnoToNfs : ℕ → ℕ
  | 0 => nfsOk
  | 1 => nfsErrPerm
  | 2 => nfsErrNoent
  | 13 => nfsErrAcces
  | 17 => nfsErrExist
  | 20 => nfsErrNotdir
  | 21 => nfsErrIsdir
  | 28 => nfsErrNospc
  | 36 => nfsErrNametoolong
  | 39 => nfsErrNotempty
  | _ => nfsErrIo

def pmapProg : ℕ := 100000
def pmapVers : ℕ := 2
def mountProg : ℕ := 100005
def mountVers : ℕ := 1
def nfsProg : ℕ := 100003
def nfsVers : ℕ := 2

def nameMax : ℕ := 255
def pathMax : ℕ := 1024
def fhSize : ℕ := 32
def noValue : ℕ := 0xffffffff

/-- What `main` configures: the exported directory and the service port. -/
structure Export where
  root : Bytes
  nfsPort : ℕ

/-- Cut at the last slash, unless there is none or it is the first byte. -/
def cutLastSlash (path : Bytes) : Bytes :=
  match path.reverse.dropWhile (· ≠ slash) with
  | _ :: b :: rest => (b :: rest).reverse
  | _ => path

def joinChild (root dir name : Bytes) (max : ℕ) : Option Bytes :=
  if name = [] ∨ slash ∈ name then none
  else if name = [dot] then
    if max ≤ dir.length then none else some dir
  else if name = [dot, dot] then
    if dir = root then some dir
    else if max ≤ dir.length then none
    else some (cutLastSlash dir)
  else if max ≤ dir.length + 1 + name.length then none
  else some (dir ++ slash :: name)

def ftypeOf (st : Stat) : ℕ :=
  if st.fmt = 8 then 1
  else if st.fmt = 4 then 2
  else if st.fmt = 6 then 3
  else if st.fmt = 2 then 4
  else if st.fmt = 10 then 5
  else 0

/-- The words of an NFSv2 `fattr`. -/
def fattrWords (st : Stat) : List ℕ :=
  [ftypeOf st, st.mode, st.nlink, st.uid, st.gid, st.size,
    if st.blksize = 0 then 4096 else st.blksize, st.rdev, st.blocks, st.dev,
    st.ino, st.atime, st.atimeNsec / 1000, st.mtime, st.mtimeNsec / 1000,
    st.ctime, st.ctimeNsec / 1000]

def putFattr (out : XdrOut) (st : Stat) : XdrOut :=
  (fattrWords st).foldl xdrPutU32 out

/-! ## Procedures -/

/-- The file system and the handle table. -/
structure Srv (σ : Type) where
  world : σ
  table : Table

/-- An exit is a reply, or nothing when the call is dropped. -/
abbrev NfsM (σ : Type) (α : Type) := Proc (Srv σ) (Option XdrOut) α

section Procs

variable {σ : Type} (os : Os σ) (ex : Export)

/-- `return 0` after a status word. -/
def finish {α : Type} (out : XdrOut) : NfsM σ α := throw (some out)

def finishStatus {α : Type} (out : XdrOut) (status : ℕ) : NfsM σ α :=
  finish (xdrPutU32 out status)

def orDrop {α : Type} : Option α → NfsM σ α := need none

def look {α : Type} (f : FsView → α) : NfsM σ α :=
  act fun s => (f (os.view s.world), s)

def change {α : Type} (f : σ → α × σ) : NfsM σ α :=
  act fun s => ((f s.world).1, { s with world := (f s.world).2 })

@[simp] theorem exec_orDrop {α : Type} (a : α) (s : Srv σ) :
    exec (orDrop (some a) : NfsM σ α) s = (.ok a, s) := rfl

@[simp] theorem exec_look {α : Type} (f : FsView → α) (s : Srv σ) :
    exec (look os f) s = (.ok (f (os.view s.world)), s) := rfl

@[simp] theorem exec_change {α : Type} (f : σ → α × σ) (s : Srv σ) :
    exec (change f) s = (.ok (f s.world).1, { s with world := (f s.world).2 }) := rfl

def changeIf (c : Bool) (f : σ → σ) : NfsM σ Unit :=
  change fun w => ((), if c then f w else w)

def resolveFh (fh : Bytes) : NfsM σ (Option Bytes) :=
  act fun s =>
    let r := fhToPath (os.view s.world) ex.root s.table fh
    (r.1, { s with table := r.2 })

def makeFh (path : Bytes) : NfsM σ Bytes :=
  act fun s =>
    let r := fhFromPath ex.root s.table path
    (r.1, { s with table := r.2 })

/-- `arg_fh`: the resolved path and the arguments behind the handle. -/
def argFh (input : Bytes) (out : XdrOut) : NfsM σ (Bytes × Bytes) :=
  match xdrGetFixed fhSize input with
  | none => finishStatus out nfsErrStale
  | some (fh, rest) => do
      match ← resolveFh os ex fh with
      | none => finishStatus out nfsErrStale
      | some path => pure (path, rest)

/-- A status word for a failed call, the value of one that worked. -/
def okOr {α : Type} (out : XdrOut) : Except ℕ α → NfsM σ α
  | .ok a => pure a
  | .error e => finishStatus out (errnoToNfs e)

def replyStatFattr (out : XdrOut) (path : Bytes) : NfsM σ XdrOut := do
  let st ← okOr out (← look os fun fs => fs.lstat path)
  pure (putFattr (xdrPutU32 out nfsOk) st)

/-- Read `n` words. -/
def getWords : ℕ → Bytes → Option (List ℕ × Bytes)
  | 0, input => some ([], input)
  | n + 1, input => do
      let (v, rest) ← xdrGetU32 input
      let (vs, rest) ← getWords n rest
      pure (v :: vs, rest)

def pmapNull (_input : Bytes) (out : XdrOut) : NfsM σ XdrOut := pure out

def pmapGetport (input : Bytes) (out : XdrOut) : NfsM σ XdrOut := do
  let (words, _) ← orDrop (getWords 4 input)
  let prog := words.getD 0 0
  pure (xdrPutU32 out
    (if prog = mountProg ∨ prog = nfsProg then ex.nfsPort else 0))

def mntNull (_input : Bytes) (out : XdrOut) : NfsM σ XdrOut := pure out

def mntMnt (input : Bytes) (out : XdrOut) : NfsM σ XdrOut := do
  let (dir, _) ← orDrop (xdrGetString 1024 input)
  if dir ≠ ex.root then finishStatus out nfsErrAcces
  else
    match ← look os fun fs => fs.stat ex.root with
    | .error _ => finishStatus out nfsErrNotdir
    | .ok st =>
        if st.isDir then do
          let fh ← makeFh ex ex.root
          pure (xdrPutFixed (xdrPutU32 out 0) fh)
        else finishStatus out nfsErrNotdir

def mntUmnt (_input : Bytes) (out : XdrOut) : NfsM σ XdrOut := pure out

def mntExport (_input : Bytes) (out : XdrOut) : NfsM σ XdrOut :=
  pure (xdrPutU32 (xdrPutU32 (xdrPutBytes (xdrPutU32 out 1) ex.root) 0) 0)

def nfsNull (_input : Bytes) (out : XdrOut) : NfsM σ XdrOut := pure out

def nfsGetattr (input : Bytes) (out : XdrOut) : NfsM σ XdrOut := do
  let (path, _) ← argFh os ex input out
  replyStatFattr os out path

/-- `chmod` and `truncate` are best effort; owner and times are ignored. -/
def nfsSetattr (input : Bytes) (out : XdrOut) : NfsM σ XdrOut := do
  let (path, rest) ← argFh os ex input out
  let (words, _) ← orDrop (getWords 8 rest)
  let mode := words.getD 0 0
  let size := words.getD 3 0
  changeIf (mode ≠ noValue) fun w => os.chmod w path (mode % 4096)
  changeIf (size ≠ noValue) fun w => os.truncate w path size
  replyStatFattr os out path

def nfsLookup (input : Bytes) (out : XdrOut) : NfsM σ XdrOut := do
  let (dir, rest) ← argFh os ex input out
  let (name, _) ← orDrop (xdrGetString (nameMax + 1) rest)
  match joinChild ex.root dir name pathMax with
  | none => finishStatus out nfsErrNoent
  | some child => do
      let st ← okOr out (← look os fun fs => fs.lstat child)
      let fh ← makeFh ex child
      pure (putFattr (xdrPutFixed (xdrPutU32 out nfsOk) fh) st)

def nfsRead (input : Bytes) (out : XdrOut) : NfsM σ XdrOut := do
  let (path, rest) ← argFh os ex input out
  let (words, _) ← orDrop (getWords 3 rest)
  let count := min (words.getD 1 0) 8192
  let (data, st) ← okOr out
    (← look os fun fs => fs.readAt path count (words.getD 0 0))
  pure (xdrPutBytes (putFattr (xdrPutU32 out nfsOk) st) (data.take count))

def nfsWrite (input : Bytes) (out : XdrOut) : NfsM σ XdrOut := do
  let (path, rest) ← argFh os ex input out
  let (words, rest) ← orDrop (getWords 3 rest)
  let (data, _) ← orDrop (xdrGetBytes rest)
  let st ← okOr out
    (← change fun w => os.writeAt w path data (words.getD 1 0))
  pure (putFattr (xdrPutU32 out nfsOk) st)

/-- `CREATE` and `MKDIR`. -/
def createCommon (dirMode : Bool) (input : Bytes) (out : XdrOut) :
    NfsM σ XdrOut := do
  let (dir, rest) ← argFh os ex input out
  let (name, rest) ← orDrop (xdrGetString (nameMax + 1) rest)
  let (words, _) ← orDrop (getWords 8 rest)
  match joinChild ex.root dir name pathMax with
  | none => finishStatus out nfsErrAcces
  | some child => do
      let asked := words.getD 0 0
      let mode :=
        if asked = noValue then (if dirMode then 0o755 else 0o644) else asked
      okOr out (← change fun w =>
        if dirMode then os.mkdir w child (mode % 4096)
        else os.creat w child (mode % 4096))
      match ← look os fun fs => fs.lstat child with
      | .error _ => finishStatus out nfsErrIo
      | .ok st => do
          let fh ← makeFh ex child
          pure (putFattr (xdrPutFixed (xdrPutU32 out nfsOk) fh) st)

def nfsCreate : Bytes → XdrOut → NfsM σ XdrOut := createCommon os ex false

def nfsMkdir : Bytes → XdrOut → NfsM σ XdrOut := createCommon os ex true

/-- The status word of a call that returns nothing else. -/
def putResult (out : XdrOut) : Except ℕ Unit → XdrOut
  | .ok _ => xdrPutU32 out nfsOk
  | .error e => xdrPutU32 out (errnoToNfs e)

/-- `REMOVE` and `RMDIR`. -/
def removeCommon (isDir : Bool) (input : Bytes) (out : XdrOut) :
    NfsM σ XdrOut := do
  let (dir, rest) ← argFh os ex input out
  let (name, _) ← orDrop (xdrGetString (nameMax + 1) rest)
  match joinChild ex.root dir name pathMax with
  | none => finishStatus out nfsErrAcces
  | some child => do
      let rc ← change fun w =>
        if isDir then os.rmdir w child else os.unlink w child
      pure (putResult out rc)

def nfsRemove : Bytes → XdrOut → NfsM σ XdrOut := removeCommon os ex false

def nfsRmdir : Bytes → XdrOut → NfsM σ XdrOut := removeCommon os ex true

/-- The second handle of `RENAME` and `LINK`. -/
def argToDir (input : Bytes) (out : XdrOut) : NfsM σ (Bytes × Bytes) := do
  let (fh, rest) ← orDrop (xdrGetFixed fhSize input)
  match ← resolveFh os ex fh with
  | none => finishStatus out nfsErrStale
  | some path => pure (path, rest)

def nfsRename (input : Bytes) (out : XdrOut) : NfsM σ XdrOut := do
  let (fromdir, rest) ← argFh os ex input out
  let (fname, rest) ← orDrop (xdrGetString (nameMax + 1) rest)
  let (todir, rest) ← argToDir os ex rest out
  let (tname, _) ← orDrop (xdrGetString (nameMax + 1) rest)
  match joinChild ex.root fromdir fname pathMax,
      joinChild ex.root todir tname pathMax with
  | some fpath, some tpath => do
      let rc ← change fun w => os.rename w fpath tpath
      pure (putResult out rc)
  | _, _ => finishStatus out nfsErrAcces

def nfsLink (input : Bytes) (out : XdrOut) : NfsM σ XdrOut := do
  let (path, rest) ← argFh os ex input out
  let (todir, rest) ← argToDir os ex rest out
  let (tname, _) ← orDrop (xdrGetString (nameMax + 1) rest)
  match joinChild ex.root todir tname pathMax with
  | none => finishStatus out nfsErrAcces
  | some tpath => do
      let rc ← change fun w => os.link w path tpath
      pure (putResult out rc)

def nfsReadlink (input : Bytes) (out : XdrOut) : NfsM σ XdrOut := do
  let (path, _) ← argFh os ex input out
  let target ← okOr out (← look os fun fs => fs.readlink path)
  pure (xdrPutBytes (xdrPutU32 out nfsOk) (target.take 1023))

def nfsSymlink (input : Bytes) (out : XdrOut) : NfsM σ XdrOut := do
  let (dir, rest) ← argFh os ex input out
  let (name, rest) ← orDrop (xdrGetString (nameMax + 1) rest)
  let (target, rest) ← orDrop (xdrGetString 1024 rest)
  let _ ← orDrop (getWords 8 rest)
  match joinChild ex.root dir name pathMax with
  | none => finishStatus out nfsErrAcces
  | some child => do
      let rc ← change fun w => os.symlink w target child
      pure (putResult out rc)

def rdMaxData : ℕ := 4096

/-- Size of a directory entry in the reply: value-follows, file id, name and
cookie. -/
def entryBytes (name : Bytes) : ℕ := 4 + 4 + (4 + (name.length + 3) / 4 * 4) + 4

def putEntry (out : XdrOut) (st : Stat) (name : Bytes) (idx : ℕ) : XdrOut :=
  xdrPutU32 (xdrPutBytes (xdrPutU32 (xdrPutU32 out 1) st.ino) name) idx

/-- The loop of `nfs_readdir` over what `readdir` delivers; the flag says that
it ran to the end. -/
def readdirLoop (fs : FsView) (root path : Bytes) (cookie cap : ℕ) :
    List Bytes → ℕ → ℕ → XdrOut → XdrOut × Bool
  | [], _, _, out => (out, true)
  | name :: names, idx, dirbytes, out =>
      if (idx + 1) % 2 ^ 32 ≤ cookie then
        readdirLoop fs root path cookie cap names (idx + 1) dirbytes out
      else if 0 < dirbytes ∧ cap < dirbytes + entryBytes name then (out, false)
      else
        match joinChild root path name pathMax with
        | none => readdirLoop fs root path cookie cap names (idx + 1) dirbytes out
        | some child =>
            match fs.lstat child with
            | .error _ =>
                readdirLoop fs root path cookie cap names (idx + 1) dirbytes out
            | .ok st =>
                readdirLoop fs root path cookie cap names (idx + 1)
                  (dirbytes + entryBytes name) (putEntry out st name (idx + 1))

/-- Everything behind `opendir`. -/
def readdirReply (fs : FsView) (root path : Bytes) (cookie count : ℕ)
    (stream : DirStream) (out : XdrOut) : XdrOut :=
  let r := readdirLoop fs root path cookie (min count rdMaxData) stream.names 0 0
    (xdrPutU32 out nfsOk)
  xdrPutU32 (xdrPutU32 r.1 0) (if r.2 ∧ stream.errno = 0 then 1 else 0)

def nfsReaddir (input : Bytes) (out : XdrOut) : NfsM σ XdrOut := do
  let (path, rest) ← argFh os ex input out
  let (words, _) ← orDrop (getWords 2 rest)
  let stream ← okOr out (← look os fun fs => fs.opendir path)
  look os fun fs =>
    readdirReply fs ex.root path (words.getD 0 0) (words.getD 1 0) stream out

def nfsStatfs (input : Bytes) (out : XdrOut) : NfsM σ XdrOut := do
  let (path, _) ← argFh os ex input out
  let (bsize, blocks, bfree, bavail) ← okOr out
    (← look os fun fs => fs.statvfs path)
  pure ([nfsOk, 8192, bsize, blocks, bfree, bavail].foldl xdrPutU32 out)

/-! ## Routes -/

structure Route (σ : Type) where
  prog : ℕ
  vers : ℕ
  proc : ℕ
  fn : Bytes → XdrOut → NfsM σ XdrOut
  cache : Bool

def gnRoutes : List (Route σ) :=
  [⟨pmapProg, pmapVers, 0, pmapNull, false⟩,
    ⟨pmapProg, pmapVers, 3, pmapGetport ex, false⟩,
    ⟨mountProg, mountVers, 0, mntNull, false⟩,
    ⟨mountProg, mountVers, 1, mntMnt os ex, false⟩,
    ⟨mountProg, mountVers, 3, mntUmnt, false⟩,
    ⟨mountProg, mountVers, 5, mntExport ex, false⟩,
    ⟨nfsProg, nfsVers, 0, nfsNull, false⟩,
    ⟨nfsProg, nfsVers, 1, nfsGetattr os ex, false⟩,
    ⟨nfsProg, nfsVers, 2, nfsSetattr os ex, true⟩,
    ⟨nfsProg, nfsVers, 4, nfsLookup os ex, false⟩,
    ⟨nfsProg, nfsVers, 5, nfsReadlink os ex, false⟩,
    ⟨nfsProg, nfsVers, 6, nfsRead os ex, false⟩,
    ⟨nfsProg, nfsVers, 8, nfsWrite os ex, true⟩,
    ⟨nfsProg, nfsVers, 9, nfsCreate os ex, true⟩,
    ⟨nfsProg, nfsVers, 10, nfsRemove os ex, true⟩,
    ⟨nfsProg, nfsVers, 11, nfsRename os ex, true⟩,
    ⟨nfsProg, nfsVers, 12, nfsLink os ex, true⟩,
    ⟨nfsProg, nfsVers, 13, nfsSymlink os ex, true⟩,
    ⟨nfsProg, nfsVers, 14, nfsMkdir os ex, true⟩,
    ⟨nfsProg, nfsVers, 15, nfsRmdir os ex, true⟩,
    ⟨nfsProg, nfsVers, 16, nfsReaddir os ex, false⟩,
    ⟨nfsProg, nfsVers, 17, nfsStatfs os ex, false⟩]

end Procs

end GrandCross
