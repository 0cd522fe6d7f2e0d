import GrandCross.HostFs

/-!
# File handles

`nfsd/handle.c`: a table of interned paths with two parallel arrays of
hashes, 32-byte handles built from it, and the resolution of a handle, first
by index and verifier, then by hash after one walk over the export.
-/

namespace GrandCross

open CText

def fhMagic : ℕ := 0x47465348

/-- The three parallel arrays, their capacity and the flag of the walk. -/
structure Table where
  paths : List Bytes
  hi : List ℕ
  lo : List ℕ
  cap : ℕ
  rebuilt : Bool
  deriving DecidableEq

def Table.empty : Table := ⟨[], [], [], 0, false⟩

/-- Trailing slashes go while more than one byte is left; the path is given
backwards. -/
def trimSlashes : Bytes → Bytes
  | a :: b :: rest =>
      if a = slash then trimSlashes (b :: rest) else a :: b :: rest
  | short => short

theorem trimSlashes_suffix (s : Bytes) : trimSlashes s <:+ s := by
  induction s with
  | nil => exact List.suffix_rfl
  | cons a s ih =>
      cases s with
      | nil => exact List.suffix_rfl
      | cons b rest =>
          unfold trimSlashes
          split_ifs with ha
          · exact ih.trans (List.suffix_cons a _)
          · exact List.suffix_rfl

/-- `fh_set_root` and `svc_config`. -/
def fhSetRoot (root : Bytes) : Bytes :=
  (trimSlashes (root.take 1023).reverse).reverse

def relpath (root path : Bytes) : Bytes :=
  if root ≠ [] ∧ root <+: path then
    (path.drop root.length).dropWhile (· = slash)
  else path

def hash64Step (h : ℕ × ℕ) (c : Byte) : ℕ × ℕ :=
  let h1 := (h.1 ^^^ c.toNat) * 16777619 % 2 ^ 32
  let h2 := (h.2 + c.toNat) * 2246822519 % 2 ^ 32
  (h1, h2 ^^^ (h1 / 2 ^ 13))

def hash64 (s : Bytes) : ℕ × ℕ :=
  s.foldl hash64Step (0x811C9DC5, 0x01000193)

/-- `hash_str` on a 64-bit `unsigned long`. -/
def hashStr (s : Bytes) : ℕ :=
  s.foldl (fun h c => (h * 33 % 2 ^ 64) ^^^ c.toNat) 5381

/-- The index verifier as a handle carries it. -/
def verifier (path : Bytes) : ℕ := hashStr path % 2 ^ 32

def intern (root : Bytes) (t : Table) (path : Bytes) : ℕ × Table :=
  if t.paths.idxOf path < t.paths.length then (t.paths.idxOf path, t)
  else
    (t.paths.length,
      { t with
        paths := t.paths ++ [path]
        hi := t.hi ++ [(hash64 (relpath root path)).1]
        lo := t.lo ++ [(hash64 (relpath root path)).2]
        cap :=
          if t.cap ≤ t.paths.length then
            (if t.cap = 0 then 64 else t.cap * 2)
          else t.cap })

/-- The 32 bytes of a handle. -/
def handleBytes (index : ℕ) (path : Bytes) (hi lo : ℕ) : Bytes :=
  be32 index ++ be32 fhMagic ++ be32 (hashStr path) ++ be32 hi ++ be32 lo ++
    List.replicate 12 0

def fhFromPath (root : Bytes) (t : Table) (path : Bytes) : Bytes × Table :=
  let (i, t) := intern root t path
  (handleBytes i path (t.hi.getD i 0) (t.lo.getD i 0), t)

/-- The path `rebuild_dir` builds for an entry. -/
def walkChild (dir name : Bytes) : Bytes :=
  if dir.getLast? = some slash then dir ++ name else dir ++ slash :: name

/-- `rebuild_dir`; the first argument is how many levels the depth guard
still lets through. -/
def rebuildDir (fs : FsView) (root : Bytes) : ℕ → Bytes → Table → Table
  | 0, _, t => t
  | levels + 1, dir, t =>
      match fs.opendir dir with
      | .error _ => t
      | .ok stream =>
          stream.names.foldl
            (fun t name =>
              if name = [dot] ∨ name = [dot, dot] then t
              else if 1024 < dir.length + name.length + 2 then t
              else
                let child := walkChild dir name
                let t := (intern root t child).2
                if fs.isDir child then rebuildDir fs root levels child t
                else t)
            t

def rebuild (fs : FsView) (root : Bytes) (t : Table) : Table :=
  if t.rebuilt ∨ root = [] then t
  else
    rebuildDir fs root 33 root (intern root { t with rebuilt := true } root).2

/-- `get_be32` at an offset of a handle. -/
def be32At (fh : Bytes) (k : ℕ) : ℕ :=
  match fh.drop k with
  | a :: b :: c :: d :: _ => wordOf a b c d
  | _ => 0

/-- The index still refers to a path with the handle's verifier. -/
def fastPath (t : Table) (fh : Bytes) : Option Bytes :=
  match t.paths[be32At fh 0]? with
  | some path => if be32At fh 8 = verifier path then some path else none
  | none => none

/-- The first entry with the given pair of hashes. -/
def findHash (t : Table) (hi lo : ℕ) : Option Bytes :=
  ((t.paths.zip (t.hi.zip t.lo)).find? fun e => e.2 = (hi, lo)).map Prod.fst

/-- The `for (;;)` of `fh_to_path`, with a bound on its rounds. -/
def findLoop (fs : FsView) (root : Bytes) (hi lo : ℕ) :
    ℕ → Table → Option (Option Bytes × Table)
  | 0, _ => none
  | rounds + 1, t =>
      match findHash t hi lo with
      | some path => some (some path, t)
      | none =>
          if t.rebuilt then some (none, t)
          else findLoop fs root hi lo rounds (rebuild fs root t)

def fhToPathIn (fs : FsView) (root : Bytes) (t : Table) (fh : Bytes)
    (rounds : ℕ) : Option (Option Bytes × Table) :=
  if be32At fh 4 ≠ fhMagic then some (none, t)
  else
    match fastPath t fh with
    | some path => some (some path, t)
    | none =>
        if be32At fh 12 = 0 ∧ be32At fh 16 = 0 then some (none, t)
        else findLoop fs root (be32At fh 12) (be32At fh 16) rounds t

/-- `fh_to_path`; two rounds of its loop are all it ever takes. -/
def fhToPath (fs : FsView) (root : Bytes) (t : Table) (fh : Bytes) :
    Option Bytes × Table :=
  (fhToPathIn fs root t fh 2).getD (none, t)

end GrandCross
