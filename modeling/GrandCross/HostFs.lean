import GrandCross.Xdr

/-!
# The host file system as the NFS server sees it

The kernel is not part of the program.  `FsView` collects what the server can
read of the file system at one moment, `Os` adds the calls that change it; a
failing call yields its `errno`.
-/

namespace GrandCross

open CText

def slash : Byte := 47
def dot : Byte := 46

/-- The fields of `struct stat` that reach a reply, as unsigned words. -/
structure Stat where
  mode : ℕ
  nlink : ℕ
  uid : ℕ
  gid : ℕ
  size : ℕ
  blksize : ℕ
  rdev : ℕ
  blocks : ℕ
  dev : ℕ
  ino : ℕ
  atime : ℕ
  atimeNsec : ℕ
  mtime : ℕ
  mtimeNsec : ℕ
  ctime : ℕ
  ctimeNsec : ℕ
  deriving DecidableEq

/-- `st_mode & S_IFMT`. -/
def Stat.fmt (st : Stat) : ℕ := st.mode / 2 ^ 12 % 16

def Stat.isDir (st : Stat) : Bool := st.fmt = 4

/-- A name the kernel can hand out: not empty, no slash, no NUL. -/
def NameOk (name : Bytes) : Prop :=
  name ≠ [] ∧ slash ∉ name ∧ nul ∉ name

instance (name : Bytes) : Decidable (NameOk name) :=
  inferInstanceAs (Decidable (_ ∧ _ ∧ _))

/-- What `readdir` delivers until it returns NULL, and `errno` at that
point. -/
structure DirStream where
  names : List Bytes
  errno : ℕ
  namesOk : ∀ name ∈ names, NameOk name

structure FsView where
  lstat : Bytes → Except ℕ Stat
  stat : Bytes → Except ℕ Stat
  opendir : Bytes → Except ℕ DirStream
  /-- `open`, `pread` of at most `count` bytes, `fstat`. -/
  readAt : Bytes → ℕ → ℕ → Except ℕ (Bytes × Stat)
  readlink : Bytes → Except ℕ Bytes
  /-- Block size, blocks, free blocks, available blocks. -/
  statvfs : Bytes → Except ℕ (ℕ × ℕ × ℕ × ℕ)

structure Os (σ : Type) where
  view : σ → FsView
  chmod : σ → Bytes → ℕ → σ
  truncate : σ → Bytes → ℕ → σ
  /-- `open`, `pwrite` at an offset, `fstat`. -/
  writeAt : σ → Bytes → Bytes → ℕ → Except ℕ Stat × σ
  mkdir : σ → Bytes → ℕ → Except ℕ Unit × σ
  creat : σ → Bytes → ℕ → Except ℕ Unit × σ
  unlink : σ → Bytes → Except ℕ Unit × σ
  rmdir : σ → Bytes → Except ℕ Unit × σ
  rename : σ → Bytes → Bytes → Except ℕ Unit × σ
  link : σ → Bytes → Bytes → Except ℕ Unit × σ
  symlink : σ → Bytes → Bytes → Except ℕ Unit × σ

/-- `lstat(path) == 0 && S_ISDIR(st.st_mode)`. -/
def FsView.isDir (fs : FsView) (path : Bytes) : Bool :=
  match fs.lstat path with
  | .ok st => st.isDir
  | .error _ => false

end GrandCross
