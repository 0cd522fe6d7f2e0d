import GrandCross.Answered
import GrandCross.Confinement
import GrandCross.NfsEffects
import GrandCross.ReadDirRemove

/-!
# Which directory entries a call changes

Directories are seen as tables from names to objects, `.` and `..` left out,
and a path denotes a directory.  A system call on `dir/name` changes at most
the entry `name` of the directory that `dir` denotes.  `join_child` gives `.`
and `..` the meaning they have for LOOKUP, so this reaches the server's calls
only for other names; and `open` with `O_CREAT` follows a symbolic link.
-/

namespace GrandCross

open CText EarlyExit

/-- The object under a name in a directory, and the directory a path
denotes. -/
structure DirModel (σ Obj : Type) where
  entry : σ → Obj → Bytes → Option Obj
  dirAt : σ → Bytes → Option Obj

namespace DirModel

variable {σ Obj : Type} (m : DirModel σ Obj)

/-- The two states differ at most in the entries of a set. -/
def OnlyAt (A : Obj → Bytes → Prop) (w w' : σ) : Prop :=
  ∀ o n, ¬ A o n → m.entry w' o n = m.entry w o n

/-- The entry a path of the form `dir/name` stands for. -/
def At (w : σ) (dir name : Bytes) (o : Obj) (n : Bytes) : Prop :=
  m.dirAt w dir = some o ∧ n = name

variable {m} {A B : Obj → Bytes → Prop} {w w' w'' : σ}

theorem OnlyAt.refl (A : Obj → Bytes → Prop) (w : σ) : m.OnlyAt A w w := fun _ _ _ => rfl

theorem OnlyAt.mono (h : m.OnlyAt A w w') (hsub : ∀ o n, A o n → B o n) :
    m.OnlyAt B w w' :=
  fun o n hn => h o n fun hA => hn (hsub o n hA)

theorem OnlyAt.trans (h : m.OnlyAt A w w') (h' : m.OnlyAt A w' w'') : m.OnlyAt A w w'' :=
  fun o n hn => (h' o n hn).trans (h o n hn)

end DirModel

/-- What the system calls do to directories: data and attributes are apart
from entries, and a call on `dir/name` changes at most this entry, except that
`open` with `O_CREAT` goes where a symbolic link leads.  No directory is its
own entry. -/
structure EntryLaws {σ Obj : Type} (os : Os σ) (m : DirModel σ Obj) : Prop where
  chmod : ∀ w p mode, m.OnlyAt (fun _ _ => False) w (os.chmod w p mode)
  truncate : ∀ w p size, m.OnlyAt (fun _ _ => False) w (os.truncate w p size)
  writeAt : ∀ w p data off, m.OnlyAt (fun _ _ => False) w (os.writeAt w p data off).2
  mkdir : ∀ w dir name mode, OrdinaryName name →
    m.OnlyAt (m.At w dir name) w (os.mkdir w (dir ++ slash :: name) mode).2
  creat : ∀ w dir name mode, OrdinaryName name →
    (∀ st, (os.view w).lstat (dir ++ slash :: name) = .ok st → ftypeOf st ≠ 5) →
      m.OnlyAt (m.At w dir name) w (os.creat w (dir ++ slash :: name) mode).2
  unlink : ∀ w dir name, OrdinaryName name →
    m.OnlyAt (m.At w dir name) w (os.unlink w (dir ++ slash :: name)).2
  rmdir : ∀ w dir name, OrdinaryName name →
    m.OnlyAt (m.At w dir name) w (os.rmdir w (dir ++ slash :: name)).2
  rename : ∀ w dir name dir' name', OrdinaryName name → OrdinaryName name' →
    m.OnlyAt (fun o n => m.At w dir name o n ∨ m.At w dir' name' o n) w
      (os.rename w (dir ++ slash :: name) (dir' ++ slash :: name')).2
  link : ∀ w p dir name, OrdinaryName name →
    m.OnlyAt (m.At w dir name) w (os.link w p (dir ++ slash :: name)).2
  symlink : ∀ w target dir name, OrdinaryName name →
    m.OnlyAt (m.At w dir name) w (os.symlink w target (dir ++ slash :: name)).2
  apart : ∀ w o n, m.entry w o n ≠ some o

/-! ## The names a call gives -/

section Gives

variable (fs : FsView) (root : Bytes) (t : Table) (args : Bytes)

/-- A directory, behind a handle, and a name that the arguments of a directory
operation give. -/
inductive Gives : ℕ → Bytes → Bytes → Prop where
  | one {proc : ℕ} {dir name rest : Bytes} {t' : Table}
      (hproc : proc ∈ [9, 10, 11, 13, 14, 15])
      (hreads : ReadsEntry fs root t args dir name rest t') : Gives proc dir name
  | renameTo {fromdir fname rest dir name rest' : Bytes} {t' t'' : Table}
      (hfrom : ReadsEntry fs root t args fromdir fname rest t')
      (hto : ReadsEntry fs root t' rest dir name rest' t'') : Gives 11 dir name
  | linkTo {path rest dir name rest' : Bytes} {t' t'' : Table}
      (hfrom : ReadsFh fs root t args path rest t')
      (hto : ReadsEntry fs root t' rest dir name rest' t'') : Gives 12 dir name

end Gives

section Calls

variable {σ Obj : Type} (os : Os σ) (ex : Export)

/-- The datagram is a directory operation on this entry, and is performed. -/
def Names (s : Rpc σ) (dg : Datagram σ) (dir name : Bytes) : Prop :=
  ∃ c args, rpcParseCall dg.data = some (c, args) ∧ Performed os ex s dg c args ∧
    Gives (os.view (dg.outside s.srv.world)) ex.root s.srv.table args
      (nfsProcOf c.prog c.proc) dir name

/-- The datagram is a CREATE of this entry, and is performed. -/
def Creates (s : Rpc σ) (dg : Datagram σ) (dir name : Bytes) : Prop :=
  ∃ c args rest t, rpcParseCall dg.data = some (c, args) ∧ Performed os ex s dg c args ∧
    nfsProcOf c.prog c.proc = 9 ∧
    ReadsEntry (os.view (dg.outside s.srv.world)) ex.root s.srv.table args dir name rest t

/-- No name of the call is `.` or `..`, and a CREATE does not name a symbolic
link. -/
structure PlainNames (s : Rpc σ) (dg : Datagram σ) : Prop where
  ordinary : ∀ dir name, Names os ex s dg dir name → name ≠ [dot] ∧ name ≠ [dot, dot]
  notLink : ∀ dir name, Creates os ex s dg dir name → ∀ st,
    (os.view (dg.outside s.srv.world)).lstat (dir ++ slash :: name) = .ok st →
      ftypeOf st ≠ 5

/-- The entries a datagram names, as places in the directories. -/
def NamedAt (m : DirModel σ Obj) (s : Rpc σ) (dg : Datagram σ) (o : Obj) (n : Bytes) :
    Prop :=
  ∃ dir, Names os ex s dg dir n ∧ m.dirAt (dg.outside s.srv.world) dir = some o

variable {os ex}

/-- An ordinary name is joined behind a slash. -/
theorem joinChild_ordinary
    {root dir name child : Bytes} {max : ℕ} (hdot : name ≠ [dot]) (hdots : name ≠ [dot, dot])
    (hjoin : joinChild root dir name max = some child) :
    OrdinaryName name ∧ child = dir ++ slash :: name := by
  unfold joinChild at hjoin
  rw [if_neg hdot, if_neg hdots] at hjoin
  split_ifs at hjoin with hbad
  rw [not_or] at hbad
  exact ⟨⟨⟨hbad.1, hbad.2⟩, hdot, hdots⟩, (Option.some.inj hjoin).symm⟩

variable {m : DirModel σ Obj}

/-- A change of the entry that is given, by a call on its path. -/
theorem Gives.onlyAt
    {fs : FsView} {root : Bytes} {t : Table} {args : Bytes} {proc : ℕ} {w w' : σ}
    {dir name child : Bytes} (hgives : Gives fs root t args proc dir name)
    (hplain : ∀ dir name, Gives fs root t args proc dir name →
      name ≠ [dot] ∧ name ≠ [dot, dot])
    (hjoin : joinChild root dir name pathMax = some child)
    (hcall : OrdinaryName name → child = dir ++ slash :: name →
      m.OnlyAt (m.At w dir name) w w') :
    m.OnlyAt (fun o n => ∃ dir, Gives fs root t args proc dir n ∧ m.dirAt w dir = some o)
      w w' := by
  obtain ⟨hdot, hdots⟩ := hplain dir name hgives
  obtain ⟨hname, hchild⟩ := joinChild_ordinary hdot hdots hjoin
  apply (hcall hname hchild).mono
  rintro o n ⟨hdir, rfl⟩
  exact ⟨dir, hgives, hdir⟩

theorem NfsEffect.entries
    (hlaws : EntryLaws os m) {srv : Srv σ} {args : Bytes} {proc : ℕ} {w' : σ}
    (hplain : ∀ dir name, Gives (os.view srv.world) ex.root srv.table args proc dir name →
      name ≠ [dot] ∧ name ≠ [dot, dot])
    (hlink : proc = 9 → ∀ dir name rest t,
      ReadsEntry (os.view srv.world) ex.root srv.table args dir name rest t → ∀ st,
        (os.view srv.world).lstat (dir ++ slash :: name) = .ok st → ftypeOf st ≠ 5)
    (h : NfsEffect os ex srv args proc w') :
    m.OnlyAt (fun o n => ∃ dir,
      Gives (os.view srv.world) ex.root srv.table args proc dir n ∧
        m.dirAt srv.world dir = some o) srv.world w' := by
  cases h with
  | quiet => exact .refl _ _
  | setattr path mode size setMode setSize =>
      have hnone : m.OnlyAt (fun _ _ => False) srv.world
          (if setMode then os.chmod srv.world path mode else srv.world) := by
        split_ifs
        · exact hlaws.chmod _ _ _
        · exact .refl _ _
      refine DirModel.OnlyAt.mono ?_ fun _ _ h => absurd h not_false
      split_ifs at hnone ⊢
      · exact hnone.trans (hlaws.truncate _ _ _)
      · exact hnone.trans (hlaws.truncate _ _ _)
      · exact hnone
      · exact hnone
  | write path data off =>
      exact (hlaws.writeAt _ _ _ _).mono fun _ _ h => absurd h not_false
  | create mode hreads hjoin =>
      apply (Gives.one (by decide) hreads).onlyAt hplain hjoin
      rintro hname rfl
      exact hlaws.creat _ _ _ mode hname (hlink rfl _ _ _ _ hreads)
  | remove hreads hjoin =>
      apply (Gives.one (by decide) hreads).onlyAt hplain hjoin
      rintro hname rfl
      exact hlaws.unlink _ _ _ hname
  | rename hfrom hto hjoin hjoin' =>
      -- two entries change, each given by a handle of its own
      have hgives : Gives (os.view srv.world) ex.root srv.table args 11 _ _ :=
        .one (by decide) hfrom
      have hgives' := Gives.renameTo hfrom hto
      obtain ⟨hdot, hdots⟩ := hplain _ _ hgives
      obtain ⟨hdot', hdots'⟩ := hplain _ _ hgives'
      obtain ⟨hname, rfl⟩ := joinChild_ordinary hdot hdots hjoin
      obtain ⟨hname', rfl⟩ := joinChild_ordinary hdot' hdots' hjoin'
      refine (hlaws.rename _ _ _ _ _ hname hname').mono ?_
      rintro o n (⟨hdir, rfl⟩ | ⟨hdir, rfl⟩)
      · exact ⟨_, hgives, hdir⟩
      · exact ⟨_, hgives', hdir⟩
  | link hfrom hto hjoin =>
      apply (Gives.linkTo hfrom hto).onlyAt hplain hjoin
      rintro hname rfl
      exact hlaws.link _ _ _ _ hname
  | symlink target hreads hjoin =>
      apply (Gives.one (by decide) hreads).onlyAt hplain hjoin
      rintro hname rfl
      exact hlaws.symlink _ target _ _ hname
  | mkdir mode hreads hjoin =>
      apply (Gives.one (by decide) hreads).onlyAt hplain hjoin
      rintro hname rfl
      exact hlaws.mkdir _ _ _ mode hname
  | rmdir hreads hjoin =>
      apply (Gives.one (by decide) hreads).onlyAt hplain hjoin
      rintro hname rfl
      exact hlaws.rmdir _ _ _ hname

variable {s : Rpc σ} {dg : Datagram σ}

/-- One datagram changes at most the entries it names. -/
theorem handleOne_entries
    (hlaws : EntryLaws os m) (hplain : PlainNames os ex s dg) :
    m.OnlyAt (NamedAt os ex m s dg) (dg.outside s.srv.world)
      (handleOne (gnRoutes os ex) s dg).1.srv.world := by
  cases hparse : rpcParseCall dg.data with
  | none =>
      rw [handleOne_unparsed os ex s hparse]
      exact .refl _ _
  | some p =>
      obtain ⟨c, args⟩ := p
      by_cases hdone : Performed os ex s dg c args
      · have heffect := handleOne_effect os ex s hparse
        have hordinary : ∀ dir name, Gives (os.view (s.arrive dg).srv.world) ex.root
            (s.arrive dg).srv.table args (nfsProcOf c.prog c.proc) dir name →
              name ≠ [dot] ∧ name ≠ [dot, dot] := by
          intro dir name hgives
          exact hplain.ordinary dir name ⟨c, args, hparse, hdone, hgives⟩
        have hlink : nfsProcOf c.prog c.proc = 9 → ∀ dir name rest t,
            ReadsEntry (os.view (s.arrive dg).srv.world) ex.root (s.arrive dg).srv.table args
              dir name rest t → ∀ st, (os.view (s.arrive dg).srv.world).lstat
                (dir ++ slash :: name) = .ok st → ftypeOf st ≠ 5 := by
          intro hproc dir name rest t hreads
          exact hplain.notLink dir name ⟨c, args, rest, t, hparse, hdone, hproc, hreads⟩
        have hentries := heffect.entries hlaws hordinary hlink
        apply hentries.mono
        rintro o n ⟨dir, hgives, hdir⟩
        exact ⟨dir, ⟨c, args, hparse, hdone, hgives⟩, hdir⟩
      · rw [handleOne_unperformed hparse hdone]
        exact .refl _ _

variable (os ex) in
/-- No handle of the datagram leads to the directory, and other programs leave
one of its entries alone. -/
structure LeavesAlone (m : DirModel σ Obj) (p : Obj) (r : Bytes) (s : Rpc σ)
    (dg : Datagram σ) : Prop where
  outside : ∀ v, m.entry (dg.outside v) p r = m.entry v p r
  apart : ∀ dir name, Names os ex s dg dir name →
    m.dirAt (dg.outside s.srv.world) dir ≠ some p

/-- An entry of a directory that no handle leads to stays as it is. -/
theorem handleOne_leaves
    (hlaws : EntryLaws os m) (hplain : PlainNames os ex s dg) {p : Obj} {r : Bytes}
    (halone : LeavesAlone os ex m p r s dg) :
    m.entry (handleOne (gnRoutes os ex) s dg).1.srv.world p r = m.entry s.srv.world p r := by
  rw [← halone.outside s.srv.world]
  apply handleOne_entries hlaws hplain
  rintro ⟨dir, hnames, hdir⟩
  exact halone.apart dir r hnames hdir

theorem serve_leaves
    (hlaws : EntryLaws os m) {dgs : List (Datagram σ)} {p : Obj} {r : Bytes}
    (hplain : ∀ before dg after, dgs = before ++ dg :: after →
      PlainNames os ex (serve (gnRoutes os ex) s before) dg)
    (halone : ∀ before dg after, dgs = before ++ dg :: after →
      LeavesAlone os ex m p r (serve (gnRoutes os ex) s before) dg)
    (before rest : List (Datagram σ)) (hdgs : dgs = before ++ rest) :
    m.entry (serve (gnRoutes os ex) s before).srv.world p r = m.entry s.srv.world p r := by
  induction before using List.reverseRecOn generalizing rest with
  | nil => rfl
  | append_singleton before dg ih =>
      rw [List.append_assoc, List.singleton_append] at hdgs
      rw [serve_append, serve_cons, serve_nil,
        handleOne_leaves hlaws (hplain before dg rest hdgs) (halone before dg rest hdgs)]
      exact ih (dg :: rest) hdgs

end Calls

/-- In every run whose datagrams give plain names: each of them changes at
most the entries it names; an object loses its own entry only when the entry
is named through the directory that holds it, never through the object; and an
entry of a directory that no handle leads to, such as that of the export root,
is never changed. -/
theorem directory_effects
    {σ Obj : Type} (os : Os σ) (ex : Export) (m : DirModel σ Obj) (hlaws : EntryLaws os m)
    (w : σ) (dgs : List (Datagram σ))
    (hplain : ∀ before dg after, dgs = before ++ dg :: after →
      PlainNames os ex (serve (gnRoutes os ex) (Rpc.start w) before) dg) :
    (∀ before dg after, dgs = before ++ dg :: after →
      m.OnlyAt (NamedAt os ex m (serve (gnRoutes os ex) (Rpc.start w) before) dg)
          (dg.outside (serve (gnRoutes os ex) (Rpc.start w) before).srv.world)
          (serve (gnRoutes os ex) (Rpc.start w) (before ++ [dg])).srv.world ∧
        ∀ d o n,
          m.entry (dg.outside (serve (gnRoutes os ex) (Rpc.start w) before).srv.world) o n =
              some d →
            m.entry (serve (gnRoutes os ex) (Rpc.start w) (before ++ [dg])).srv.world o n =
                some d ∨
              (o ≠ d ∧
                NamedAt os ex m (serve (gnRoutes os ex) (Rpc.start w) before) dg o n)) ∧
    ∀ p r, (∀ before dg after, dgs = before ++ dg :: after →
        LeavesAlone os ex m p r (serve (gnRoutes os ex) (Rpc.start w) before) dg) →
      m.entry (serve (gnRoutes os ex) (Rpc.start w) dgs).srv.world p r = m.entry w p r := by
  refine ⟨?_, ?_⟩
  · intro before dg after hdgs
    have honly := handleOne_entries hlaws (hplain before dg after hdgs)
    rw [serve_append, serve_cons, serve_nil]
    refine ⟨honly, ?_⟩
    intro d o n hentry
    by_cases hnamed : NamedAt os ex m (serve (gnRoutes os ex) (Rpc.start w) before) dg o n
    · right
      refine ⟨?_, hnamed⟩
      rintro rfl
      exact hlaws.apart _ _ _ hentry
    · left
      rw [honly o n hnamed]
      exact hentry
  · intro p r halone
    exact serve_leaves hlaws hplain halone dgs [] (List.append_nil dgs).symm

/-! ## A system that only removes directories -/

/-- The directories of the system; one is removed when it is empty. -/
def treeOs : Os (List Bytes) where
  view w :=
    { noFs with
      lstat := fun path =>
        if w.contains path then .ok (plainStat 0o40755 1) else .error 2
      stat := fun path =>
        if w.contains path then .ok (plainStat 0o40755 1) else .error 2 }
  chmod w _ _ := w
  truncate w _ _ := w
  writeAt w _ _ _ := (.error 21, w)
  mkdir w _ _ := (.error 13, w)
  creat w _ _ := (.error 13, w)
  unlink w _ := (.error 21, w)
  rmdir w path :=
    if w.contains path then
      if w.any fun q => (path ++ [slash]).isPrefixOf q then (.error 39, w)
      else (.ok (), w.filter (· ≠ path))
    else (.error 2, w)
  rename w _ _ := (.error 13, w)
  link w _ _ := (.error 13, w)
  symlink w _ _ := (.error 13, w)

/-- A directory is known by its path. -/
def treeModel : DirModel (List Bytes) Bytes where
  entry w o n :=
    if !n.contains slash && w.contains (o ++ slash :: n) then some (o ++ slash :: n)
    else none
  dirAt _ dir := some dir

theorem snoc_slash_inj
    {o n dir name : Bytes} (hn : slash ∉ n) (hname : slash ∉ name)
    (h : o ++ slash :: n = dir ++ slash :: name) : o = dir ∧ n = name := by
  have hsame : ∀ {a b x y : Bytes}, slash ∉ x → (∃ c, b = a ++ c ∧
      slash :: x = c ++ slash :: y) → a = b ∧ x = y := by
    rintro a b x y hx ⟨c, rfl, hc⟩
    cases c with
    | nil => exact ⟨(List.append_nil a).symm, (List.cons.inj hc).2⟩
    | cons b c =>
        have htail := (List.cons.inj hc).2
        exact absurd (by rw [htail]; simp) hx
  rcases List.append_eq_append_iff.mp h with ⟨c, hc⟩ | ⟨c, hc⟩
  · exact hsame hn ⟨c, hc⟩
  · obtain ⟨hdir, hsame⟩ := hsame hname ⟨c, hc⟩
    exact ⟨hdir.symm, hsame.symm⟩

theorem treeOs_laws : EntryLaws treeOs treeModel where
  chmod _ _ _ := .refl _ _
  truncate _ _ _ := .refl _ _
  writeAt _ _ _ _ := .refl _ _
  mkdir _ _ _ _ _ := .refl _ _
  creat _ _ _ _ _ _ := .refl _ _
  unlink _ _ _ _ := .refl _ _
  rmdir w dir name hname := by
    unfold treeOs
    dsimp only
    split_ifs
    · exact .refl _ _
    · intro o n hn
      have hother : slash ∉ n → o ++ slash :: n ≠ dir ++ slash :: name := by
        intro hslash heq
        obtain ⟨rfl, rfl⟩ := snoc_slash_inj hslash hname.1.2 heq
        exact hn ⟨rfl, rfl⟩
      unfold treeModel
      dsimp only
      apply if_congr _ rfl rfl
      simp only [Bool.and_eq_true, Bool.not_eq_true', List.contains_iff_mem, List.mem_filter,
        decide_eq_true_eq]
      have hslash : n.contains slash = false → slash ∉ n := by
        intro h
        rw [← List.contains_iff_mem, h]
        exact Bool.false_ne_true
      tauto
    · exact .refl _ _
  rename _ _ _ _ _ _ _ := .refl _ _
  link _ _ _ _ _ := .refl _ _
  symlink _ _ _ _ _ := .refl _ _
  apart := by
    intro w o n h
    unfold treeModel at h
    dsimp only at h
    split_ifs at h
    have hlen := congrArg List.length (Option.some.inj h)
    simp only [List.length_append, List.length_cons] at hlen
    omega

/-- An RMDIR through a handle. -/
def rmdirCall (fh name : Bytes) : Datagram (List Bytes) :=
  ⟨⟨1, 1023⟩, callHead 30 nfsProg nfsVers 15 ++ (fh ++ (counted name ++ [])), id, 92, 92⟩

theorem rmdirCall_parse (fh name : Bytes) :
    rpcParseCall (rmdirCall fh name).data =
      some (⟨30, nfsProg, nfsVers, 15⟩, fh ++ (counted name ++ [])) :=
  rpcParseCall_callHead (by norm_num) (by decide) (by decide) (by norm_num) _

section Rmdir

variable {os : Os (List Bytes)} {ex : Export} {s : Rpc (List Bytes)} {fh name : Bytes}

/-- An RMDIR gives one name, the one it was made with, in the directory its
handle resolves to. -/
theorem names_rmdirCall
    (hfh : fh.length = fhSize) (hshort : name.length ≤ 255) (hnul : nul ∉ name)
    {dir n : Bytes} (h : Names os ex s (rmdirCall fh name) dir n) :
    n = name ∧ (fhToPath (os.view s.srv.world) ex.root s.srv.table fh).1 = some dir := by
  obtain ⟨c, args, hparse, -, hgives⟩ := h
  rw [rmdirCall_parse] at hparse
  obtain ⟨rfl, rfl⟩ := Prod.mk.inj (Option.some.inj hparse)
  have hproc : nfsProcOf nfsProg 15 = 15 := rfl
  dsimp only at hgives
  rw [hproc] at hgives
  cases hgives with
  | one _ hreads =>
      obtain ⟨mid, ⟨fh', hget, hres⟩, hname⟩ := hreads
      have hget' : xdrGetFixed fhSize (fh ++ (counted name ++ [])) =
          some (fh, counted name ++ []) := by
        rw [← hfh]
        apply xdrGetFixed_append
        rw [hfh]
        rfl
      rw [hget'] at hget
      obtain ⟨rfl, rfl⟩ := Prod.mk.inj (Option.some.inj hget)
      rw [List.append_nil, xdrGetString_counted hshort hnul] at hname
      exact ⟨(Prod.mk.inj (Option.some.inj hname)).1.symm, congrArg Prod.fst hres⟩

theorem plainNames_rmdirCall
    (hfh : fh.length = fhSize) (hshort : name.length ≤ 255) (hnul : nul ∉ name)
    (hdot : name ≠ [dot]) (hdots : name ≠ [dot, dot]) :
    PlainNames os ex s (rmdirCall fh name) where
  ordinary dir n hnames := by
    rw [(names_rmdirCall hfh hshort hnul hnames).1]
    exact ⟨hdot, hdots⟩
  notLink dir n hcreates := by
    obtain ⟨c, args, rest, t, hparse, -, hproc, -⟩ := hcreates
    rw [rmdirCall_parse] at hparse
    obtain ⟨rfl, -⟩ := Prod.mk.inj (Option.some.inj hparse)
    exact absurd hproc (by decide)

end Rmdir

/-- The handle of the export root. -/
def rootFh : Bytes := issue (ascii "/r") Table.empty (ascii "/r")

/-- A server on `/r` that has looked up the directory `/r/d`. -/
def treeStart : Rpc (List Bytes) :=
  serve (gnRoutes treeOs flatExport) (Rpc.start [ascii "/r", ascii "/r/d"])
    [mountCall, lookupCall (ascii "d")]

/-- The handle that LOOKUP returned. -/
def treeFh : Bytes := issue (ascii "/r") treeStart.srv.table (ascii "/r/d")

/-- RMDIR of `.` through the handle of `/r/d` removes the entry `d` of `/r`,
and the same through the handle of an empty export root removes the root. -/
theorem rmdir_dot_removes_directory :
    EntryLaws treeOs treeModel ∧
      ¬ treeModel.OnlyAt (NamedAt treeOs flatExport treeModel treeStart
          (rmdirCall treeFh [dot])) treeStart.srv.world
        (handleOne (gnRoutes treeOs flatExport) treeStart
          (rmdirCall treeFh [dot])).1.srv.world ∧
      treeModel.entry [ascii "/r"] [] (ascii "r") = some (ascii "/r") ∧
      treeModel.entry (serve (gnRoutes treeOs flatExport) (Rpc.start [ascii "/r"])
        [mountCall, rmdirCall rootFh [dot]]).srv.world [] (ascii "r") = none := by
  refine ⟨treeOs_laws, ?_, ?_, ?_⟩
  · intro honly
    have hbefore : treeModel.entry treeStart.srv.world (ascii "/r") (ascii "d") =
        some (ascii "/r/d") := by
      decide +kernel
    have hafter : treeModel.entry (handleOne (gnRoutes treeOs flatExport) treeStart
        (rmdirCall treeFh [dot])).1.srv.world (ascii "/r") (ascii "d") = none := by
      decide +kernel
    have hsame := honly (ascii "/r") (ascii "d") (by
      rintro ⟨dir, hnames, -⟩
      have hname := names_rmdirCall (by decide +kernel) (by decide) (by decide) hnames
      exact absurd hname.1 (by decide))
    rw [hbefore, hafter] at hsame
    exact absurd hsame (by simp)
  · decide +kernel
  · decide +kernel

/-- RMDIR of `d` through the handle of the root leaves the root's own entry. -/
theorem directory_effects_rmdir :
    treeModel.entry (serve (gnRoutes treeOs flatExport)
        (Rpc.start [ascii "/r", ascii "/r/d"]) [rmdirCall rootFh (ascii "d")]).srv.world []
        (ascii "r") =
      treeModel.entry [ascii "/r", ascii "/r/d"] [] (ascii "r") := by
  have hplain : ∀ before dg after,
      [rmdirCall rootFh (ascii "d")] = before ++ dg :: after →
        PlainNames treeOs flatExport (serve (gnRoutes treeOs flatExport)
          (Rpc.start [ascii "/r", ascii "/r/d"]) before) dg := by
    intro before dg after hdgs
    have hmem : dg ∈ [rmdirCall rootFh (ascii "d")] := by
      simp [hdgs]
    rw [List.mem_singleton.mp hmem]
    exact plainNames_rmdirCall (by decide +kernel) (by decide) (by decide) (by decide)
      (by decide)
  apply (directory_effects treeOs flatExport treeModel treeOs_laws
    [ascii "/r", ascii "/r/d"] [rmdirCall rootFh (ascii "d")] hplain).2
  intro before dg after hdgs
  cases before with
  | cons first before => simp at hdgs
  | nil =>
      obtain ⟨rfl, -⟩ := List.cons.inj hdgs
      refine ⟨fun v => rfl, ?_⟩
      intro dir name hnames hdir
      have hres := (names_rmdirCall (by decide +kernel) (by decide) (by decide) hnames).2
      have hroot : (fhToPath (treeOs.view [ascii "/r", ascii "/r/d"]) (ascii "/r")
          Table.empty rootFh).1 = some (ascii "/r") := by
        decide +kernel
      have hsame : some (ascii "/r") = some dir := hroot.symm.trans hres
      rw [← Option.some.inj hsame] at hdir
      exact absurd hdir (by decide)

end GrandCross
