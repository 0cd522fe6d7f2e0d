import GrandCross.Answered
import GrandCross.CallHeader
import GrandCross.ReadDirRemove

/-!
# Calls and results as a client means them

The other end of `nfsd/nfs.c`: a call of one of the three programs with its
arguments, a result, and how both travel.  A client writes the arguments behind
the call header and reads the result behind the reply header.
-/

namespace GrandCross

open CText

structure Sattr where
  mode : ℕ
  uid : ℕ
  gid : ℕ
  size : ℕ
  atime : ℕ
  atimeUsec : ℕ
  mtime : ℕ
  mtimeUsec : ℕ

def Sattr.words (a : Sattr) : List ℕ :=
  [a.mode, a.uid, a.gid, a.size, a.atime, a.atimeUsec, a.mtime, a.mtimeUsec]

inductive NfsCall where
  | pmapNull
  | getport (prog vers prot port : ℕ)
  | mntNull
  | mnt (dir : Bytes)
  | umnt (dir : Bytes)
  | exports
  | nfsNull
  | getattr (fh : Bytes)
  | setattr (fh : Bytes) (attrs : Sattr)
  | lookup (dir name : Bytes)
  | readlink (fh : Bytes)
  | read (fh : Bytes) (offset count total : ℕ)
  | write (fh : Bytes) (begin offset total : ℕ) (data : Bytes)
  | create (dir name : Bytes) (attrs : Sattr)
  | remove (dir name : Bytes)
  | rename (fromDir fromName toDir toName : Bytes)
  | link (fh toDir toName : Bytes)
  | symlink (dir name target : Bytes) (attrs : Sattr)
  | mkdir (dir name : Bytes) (attrs : Sattr)
  | rmdir (dir name : Bytes)
  | readdir (dir : Bytes) (cookie count : ℕ)
  | statfs (fh : Bytes)

/-- An exported directory and the groups that may mount it. -/
structure ExportEntry where
  dir : Bytes
  groups : List Bytes

inductive NfsResult where
  | void
  | port (p : ℕ)
  | exports (entries : List ExportEntry)
  | failed (status : ℕ)
  | done
  | handle (fh : Bytes)
  | attrs (words : List ℕ)
  | entry (fh : Bytes) (words : List ℕ)
  | target (path : Bytes)
  | data (words : List ℕ) (block : Bytes)
  | page (p : Page)
  | space (words : List ℕ)

/-! ## A call on the wire -/

namespace NfsCall

/-- Program, version and procedure. -/
def number : NfsCall → ℕ × ℕ × ℕ
  | pmapNull => (pmapProg, pmapVers, 0)
  | getport .. => (pmapProg, pmapVers, 3)
  | mntNull => (mountProg, mountVers, 0)
  | mnt .. => (mountProg, mountVers, 1)
  | umnt .. => (mountProg, mountVers, 3)
  | exports => (mountProg, mountVers, 5)
  | nfsNull => (nfsProg, nfsVers, 0)
  | getattr .. => (nfsProg, nfsVers, 1)
  | setattr .. => (nfsProg, nfsVers, 2)
  | lookup .. => (nfsProg, nfsVers, 4)
  | readlink .. => (nfsProg, nfsVers, 5)
  | read .. => (nfsProg, nfsVers, 6)
  | write .. => (nfsProg, nfsVers, 8)
  | create .. => (nfsProg, nfsVers, 9)
  | remove .. => (nfsProg, nfsVers, 10)
  | rename .. => (nfsProg, nfsVers, 11)
  | link .. => (nfsProg, nfsVers, 12)
  | symlink .. => (nfsProg, nfsVers, 13)
  | mkdir .. => (nfsProg, nfsVers, 14)
  | rmdir .. => (nfsProg, nfsVers, 15)
  | readdir .. => (nfsProg, nfsVers, 16)
  | statfs .. => (nfsProg, nfsVers, 17)

/-- The calls a retransmission of which must not run again. -/
def changes : NfsCall → Bool
  | setattr .. | write .. | create .. | remove .. | rename .. | link .. | symlink ..
  | mkdir .. | rmdir .. => true
  | _ => false

def args : NfsCall → Bytes
  | pmapNull | mntNull | exports | nfsNull => []
  | getport prog vers prot port => [prog, vers, prot, port].flatMap be32
  | mnt dir | umnt dir => counted dir
  | getattr fh | readlink fh | statfs fh => fh
  | setattr fh attrs => fh ++ attrs.words.flatMap be32
  | lookup dir name | remove dir name | rmdir dir name => dir ++ counted name
  | read fh offset count total => fh ++ [offset, count, total].flatMap be32
  | write fh begin offset total data =>
      fh ++ ([begin, offset, total].flatMap be32 ++ counted data)
  | create dir name attrs | mkdir dir name attrs =>
      dir ++ (counted name ++ attrs.words.flatMap be32)
  | rename fromDir fromName toDir toName =>
      fromDir ++ (counted fromName ++ (toDir ++ counted toName))
  | link fh toDir toName => fh ++ (toDir ++ counted toName)
  | symlink dir name target attrs =>
      dir ++ (counted name ++ (counted target ++ attrs.words.flatMap be32))
  | readdir dir cookie count => dir ++ [cookie, count].flatMap be32

end NfsCall

/-- A text that fits a buffer of `max` bytes and ends at no NUL of its own. -/
def TextFits (max : ℕ) (s : Bytes) : Prop := s.length < max ∧ nul ∉ s

def WordsFit (words : List ℕ) : Prop := ∀ v ∈ words, v < 2 ^ 32

instance (max : ℕ) (s : Bytes) : Decidable (TextFits max s) :=
  inferInstanceAs (Decidable (_ ∧ _))

instance (words : List ℕ) : Decidable (WordsFit words) :=
  inferInstanceAs (Decidable (∀ v ∈ words, v < 2 ^ 32))

/-- The arguments have the sizes the format gives them. -/
def NfsCall.Fits : NfsCall → Prop
  | pmapNull | mntNull | exports | nfsNull => True
  | getport prog vers prot port => WordsFit [prog, vers, prot, port]
  | mnt dir | umnt dir => TextFits 1024 dir
  | getattr fh | readlink fh | statfs fh => fh.length = fhSize
  | setattr fh attrs => fh.length = fhSize ∧ WordsFit attrs.words
  | lookup dir name | remove dir name | rmdir dir name =>
      dir.length = fhSize ∧ TextFits (nameMax + 1) name
  | read fh offset count total => fh.length = fhSize ∧ WordsFit [offset, count, total]
  | write fh begin offset total data =>
      fh.length = fhSize ∧ WordsFit [begin, offset, total] ∧ data.length < 2 ^ 32
  | create dir name attrs | mkdir dir name attrs =>
      dir.length = fhSize ∧ TextFits (nameMax + 1) name ∧ WordsFit attrs.words
  | rename fromDir fromName toDir toName =>
      fromDir.length = fhSize ∧ TextFits (nameMax + 1) fromName ∧
        toDir.length = fhSize ∧ TextFits (nameMax + 1) toName
  | link fh toDir toName =>
      fh.length = fhSize ∧ toDir.length = fhSize ∧ TextFits (nameMax + 1) toName
  | symlink dir name target attrs =>
      dir.length = fhSize ∧ TextFits (nameMax + 1) name ∧ TextFits 1024 target ∧
        WordsFit attrs.words
  | readdir dir cookie count => dir.length = fhSize ∧ WordsFit [cookie, count]

/-! ## What the server reads of it -/

theorem xdrGetFixed_fh {fh : Bytes} (hfh : fh.length = fhSize) (rest : Bytes) :
    xdrGetFixed fhSize (fh ++ rest) = some (fh, rest) := by
  rw [← hfh]
  apply xdrGetFixed_append
  rw [hfh]
  rfl

theorem xdrGetFixed_fh_end {fh : Bytes} (hfh : fh.length = fhSize) :
    xdrGetFixed fhSize fh = some (fh, []) := by
  have h := xdrGetFixed_fh hfh []
  rwa [List.append_nil] at h

theorem xdrGetString_text
    {max : ℕ} {s : Bytes} (hs : TextFits max s) (hmax : max ≤ 2 ^ 32) (rest : Bytes) :
    xdrGetString max (counted s ++ rest) = some (s, rest) :=
  xdrGetString_bytes (xdrGetBytes_counted (hs.1.trans_le hmax) rest) hs.1 hs.2

theorem xdrGetString_text_end
    {max : ℕ} {s : Bytes} (hs : TextFits max s) (hmax : max ≤ 2 ^ 32) :
    xdrGetString max (counted s) = some (s, []) := by
  have h := xdrGetString_text hs hmax []
  rwa [List.append_nil] at h

theorem getWords_end {words : List ℕ} (hwords : WordsFit words) :
    getWords words.length (words.flatMap be32) = some (words, []) := by
  have h := getWords_flatMap hwords []
  rwa [List.append_nil] at h

/-! ## A result on the wire -/

/-- The list of an `exports` reply: an entry is its directory and a list of
groups. -/
def encodeGroups (groups : List Bytes) : Bytes :=
  groups.flatMap (fun g => be32 1 ++ counted g) ++ be32 0

def encodeExports (entries : List ExportEntry) : Bytes :=
  entries.flatMap (fun e => be32 1 ++ (counted e.dir ++ encodeGroups e.groups)) ++ be32 0

def NfsResult.encode : NfsResult → Bytes
  | void => []
  | port p => be32 p
  | exports entries => encodeExports entries
  | failed status => be32 status
  | done => be32 nfsOk
  | handle fh => be32 nfsOk ++ fh
  | attrs words => be32 nfsOk ++ words.flatMap be32
  | entry fh words => be32 nfsOk ++ (fh ++ words.flatMap be32)
  | target path => be32 nfsOk ++ counted path
  | data words block => be32 nfsOk ++ (words.flatMap be32 ++ counted block)
  | page p => be32 nfsOk ++ (encodeEntries p.entries ++ (be32 0 ++ be32 p.eof.toNat))
  | space words => be32 nfsOk ++ words.flatMap be32

/-! ## What the client reads of it -/

def decodeGroups : ℕ → Bytes → Option (List Bytes × Bytes)
  | 0, _ => none
  | n + 1, input => do
      let (follows, rest) ← xdrGetU32 input
      if follows = 0 then pure ([], rest)
      else do
        let (g, rest) ← xdrGetBytes rest
        let (gs, rest) ← decodeGroups n rest
        pure (g :: gs, rest)

def decodeExports : ℕ → Bytes → Option (List ExportEntry)
  | 0, _ => none
  | n + 1, input => do
      let (follows, rest) ← xdrGetU32 input
      if follows = 0 then pure []
      else do
        let (dir, rest) ← xdrGetBytes rest
        let (groups, rest) ← decodeGroups (rest.length + 1) rest
        let entries ← decodeExports n rest
        pure (⟨dir, groups⟩ :: entries)

/-- A status, and a body behind `NFS_OK`. -/
def readStatus (body : Bytes → Option NfsResult) (input : Bytes) : Option NfsResult := do
  let (status, rest) ← xdrGetU32 input
  if status = nfsOk then body rest else pure (.failed status)

def fattrLength : ℕ := 17

def readAttrs (rest : Bytes) : Option NfsResult := do
  let (words, _) ← getWords fattrLength rest
  pure (.attrs words)

def readEntry (rest : Bytes) : Option NfsResult := do
  let (fh, rest) ← xdrGetFixed fhSize rest
  let (words, _) ← getWords fattrLength rest
  pure (.entry fh words)

def readHandle (rest : Bytes) : Option NfsResult := do
  let (fh, _) ← xdrGetFixed fhSize rest
  pure (.handle fh)

def readTarget (rest : Bytes) : Option NfsResult := do
  let (path, _) ← xdrGetBytes rest
  pure (.target path)

def readBlock (rest : Bytes) : Option NfsResult := do
  let (words, rest) ← getWords fattrLength rest
  let (block, _) ← xdrGetBytes rest
  pure (.data words block)

def readPage (rest : Bytes) : Option NfsResult := do
  let p ← decodeEntries (rest.length + 1) rest
  pure (.page p)

def readSpace (rest : Bytes) : Option NfsResult := do
  let (words, _) ← getWords 5 rest
  pure (.space words)

def readDone (_rest : Bytes) : Option NfsResult := some .done

namespace NfsCall

/-- The result of a call, from what stands behind the reply header. -/
def readResult (c : NfsCall) (input : Bytes) : Option NfsResult :=
  match c with
  | pmapNull | mntNull | umnt .. | nfsNull => some .void
  | getport .. => do
      let (p, _) ← xdrGetU32 input
      pure (.port p)
  | exports => do
      let entries ← decodeExports (input.length + 1) input
      pure (.exports entries)
  | mnt .. => readStatus readHandle input
  | getattr .. | setattr .. | write .. => readStatus readAttrs input
  | lookup .. | create .. | mkdir .. => readStatus readEntry input
  | readlink .. => readStatus readTarget input
  | read .. => readStatus readBlock input
  | remove .. | rename .. | link .. | symlink .. | rmdir .. => readStatus readDone input
  | readdir .. => readStatus readPage input
  | statfs .. => readStatus readSpace input

/-- The transaction id and the result in a reply that accepts the call. -/
def readReply (c : NfsCall) (reply : Bytes) : Option (ℕ × NfsResult) := do
  let (xid, rest) ← xdrGetU32 reply
  let (head, rest) ← getWords 5 rest
  if head = [1, 0, 0, 0, 0] then do
    let r ← c.readResult rest
    pure (xid, r)
  else none

end NfsCall

end GrandCross
