import GrandCross.ReadDirScan

/-!
# READDIR while names are removed

The cookie is a position in the listing.  A removal in front of it shifts the
entries behind it, so the next one falls in front of the cookie and is never
returned.  A scan with removals loses nothing exactly when no removal takes
effect before its end.
-/

namespace GrandCross

open CText EarlyExit

/-- A directory of listable entries: `unlink` takes at most the named entry
out of it and leaves the others in their order. -/
structure DirLaws {σ : Type} (os : Os σ) (root path : Bytes)
    (names : σ → List Bytes) : Prop where
  opens : ∀ w, ∃ stream, (os.view w).opendir path = .ok stream ∧
    stream.names = names w ∧ stream.errno = 0
  nodup : ∀ w, (names w).Nodup
  short : ∀ w, ∀ name ∈ names w, name.length ≤ 255
  few : ∀ w, (names w).length < 2 ^ 32
  listable : ∀ w, ∀ name ∈ names w, ∀ idx,
    (entryFor (os.view w) root path name idx).isSome
  unlink : ∀ w child, names (os.unlink w child).2 = names w ∨
    ∃ name, child = path ++ slash :: name ∧
      names (os.unlink w child).2 = (names w).erase name

/-! ## One removal -/

section Remove

variable {σ : Type} {os : Os σ} {ex : Export} {path : Bytes}
  {names : σ → List Bytes}

theorem cutLastSlash_length (p : Bytes) : (cutLastSlash p).length ≤ p.length := by
  unfold cutLastSlash
  split
  · rename_i a b rest heq
    have hle := (List.dropWhile_suffix (l := p.reverse) (· ≠ slash)).length_le
    rw [heq] at hle
    simp only [List.length_cons, List.length_reverse] at hle ⊢
    omega
  · exact le_rfl

/-- A join that lands behind the directory's own slash was of that name. -/
theorem joinChild_name
    {root dir name child other : Bytes}
    (hjoin : joinChild root dir name pathMax = some child)
    (hchild : child = dir ++ slash :: other) : other = name := by
  unfold joinChild at hjoin
  have hlong : ∀ p : Bytes, p.length ≤ dir.length → p ≠ dir ++ slash :: other := by
    intro p hp heq
    rw [heq, List.length_append, List.length_cons] at hp
    omega
  split_ifs at hjoin
  · exact absurd (Option.some.inj hjoin ▸ hchild) (hlong dir le_rfl)
  · exact absurd (Option.some.inj hjoin ▸ hchild) (hlong dir le_rfl)
  · exact absurd (Option.some.inj hjoin ▸ hchild)
      (hlong _ (cutLastSlash_length dir))
  · rw [← Option.some.inj hjoin] at hchild
    have htail := List.append_cancel_left hchild
    exact ((List.cons.injEq _ _ _ _).mp htail).2.symm

theorem xdrGetString_bytes
    {max : ℕ} {input p rest : Bytes} (hbytes : xdrGetBytes input = some (p, rest))
    (hroom : p.length < max) (hnul : nul ∉ p) :
    xdrGetString max input = some (p, rest) := by
  have hfits : ¬ max ≤ p.length := Nat.not_le.mpr hroom
  simp only [xdrGetString, hbytes, Option.bind_eq_bind, Option.bind_some, hfits,
    if_false, cstr_eq_self hnul]

theorem xdrGetString_counted
    {name : Bytes} (hshort : name.length ≤ 255) (hnul : nul ∉ name) :
    xdrGetString (nameMax + 1) (counted name) = some (name, []) := by
  have hbytes := xdrGetBytes_counted (by omega : name.length < 2 ^ 32) []
  rw [List.append_nil] at hbytes
  exact xdrGetString_bytes hbytes (Nat.lt_succ_of_le hshort) hnul

/-- What `unlink` does to the names when REMOVE gets that far. -/
def namesAfter (os : Os σ) (root path : Bytes) (names : σ → List Bytes)
    (w : σ) (name : Bytes) : List Bytes :=
  match joinChild root path name pathMax with
  | none => names w
  | some child => names (os.unlink w child).2

theorem DirLaws.namesAfter
    (laws : DirLaws os ex.root path names) (w : σ) (name : Bytes) :
    namesAfter os ex.root path names w name = names w ∨
      namesAfter os ex.root path names w name = (names w).erase name := by
  unfold GrandCross.namesAfter
  cases hjoin : joinChild ex.root path name pathMax with
  | none => exact Or.inl rfl
  | some child =>
      rcases laws.unlink w child with hsame | ⟨other, hchild, herase⟩
      · exact Or.inl hsame
      · right
        rw [← joinChild_name hjoin hchild]
        exact herase

theorem exec_nfsRemove
    {srv : Srv σ} {input rest tail name : Bytes} {out : XdrOut}
    (harg : exec (argFh os ex input out) srv = (.ok (path, rest), srv))
    (hname : xdrGetString (nameMax + 1) rest = some (name, tail)) :
    (exec (nfsRemove os ex input out) srv).2.table = srv.table ∧
      names (exec (nfsRemove os ex input out) srv).2.world =
        namesAfter os ex.root path names srv.world name := by
  have hget : exec (orDrop (xdrGetString (nameMax + 1) rest) :
      NfsM σ (Bytes × Bytes)) srv = (.ok (name, tail), srv) := by
    rw [hname]
    rfl
  unfold nfsRemove removeCommon
  rw [exec_bind, harg]
  simp only
  rw [exec_bind, hget]
  simp only
  unfold namesAfter
  cases joinChild ex.root path name pathMax with
  | none => exact ⟨rfl, rfl⟩
  | some child =>
      simp only [exec_bind, change, exec_act, Bool.false_eq_true, if_false]
      exact ⟨rfl, rfl⟩

end Remove

/-! ## Positions after a removal -/

section Positions

variable {l : List Bytes} {cookie : ℕ} {y : Bytes}

theorem erase_of_mem_take (hy : y ∈ l.take cookie) :
    l.erase y = (l.take cookie).erase y ++ l.drop cookie := by
  conv_lhs => rw [← List.take_append_drop cookie l]
  exact List.erase_append_left _ hy

/-- The entry behind the cookie moves in front of it. -/
theorem take_erase_of_lt
    (hy : y ∈ l.take cookie) (hlt : cookie < l.length) :
    (l.erase y).take cookie = (l.take cookie).erase y ++ (l.drop cookie).take 1 ∧
      (l.erase y).drop cookie = l.drop (cookie + 1) := by
  have hpos : 0 < cookie := by
    by_contra h
    simp [show cookie = 0 by omega] at hy
  have hlen : ((l.take cookie).erase y).length = cookie - 1 := by
    rw [List.length_erase_of_mem hy, List.length_take]
    omega
  rw [erase_of_mem_take hy, List.take_append, List.drop_append, hlen,
    show cookie - (cookie - 1) = 1 by omega]
  have htake : ((l.take cookie).erase y).take cookie = (l.take cookie).erase y :=
    List.take_of_length_le (by omega)
  have hdrop : ((l.take cookie).erase y).drop cookie = [] :=
    List.drop_of_length_le (by omega)
  rw [htake, hdrop, List.nil_append, List.drop_drop]
  exact ⟨rfl, rfl⟩

theorem erase_of_le
    (hle : l.length ≤ cookie) :
    (l.erase y).take cookie = l.erase y ∧ (l.erase y).drop cookie = [] := by
  have hlen : (l.erase y).length ≤ cookie :=
    le_trans List.length_erase_le hle
  exact ⟨List.take_of_length_le hlen, List.drop_of_length_le hlen⟩

theorem drop_erase_subset (hy : y ∈ l.take cookie) :
    (l.erase y).drop cookie ⊆ l.drop cookie := by
  by_cases hlt : cookie < l.length
  · rw [(take_erase_of_lt hy hlt).2, ← List.drop_drop]
    exact List.drop_subset 1 _
  · rw [(erase_of_le (by omega)).2]
    exact List.nil_subset _

end Positions

/-! ## Scans with removals -/

/-- A client that lists a directory and removes names it has been given: the
server, the last cookie, the names so far and whether the end was reached. -/
structure DirRun (σ : Type) where
  srv : Srv σ
  cookie : ℕ
  returned : List Bytes
  done : Bool

inductive DirOp where
  | readdir (xid : ℕ) (count : UInt32)
  | remove (xid : ℕ) (name : Bytes)

section Runs

variable {σ : Type} (os : Os σ) (ex : Export) (fh : Bytes)

def removeRoute : Route σ := ⟨nfsProg, nfsVers, 10, nfsRemove os ex, true⟩

/-- The state a REMOVE call leaves the server in. -/
def askRemove (xid : ℕ) (name : Bytes) (srv : Srv σ) : Srv σ :=
  (runRoute (removeRoute os ex) ⟨xid, nfsProg, nfsVers, 10⟩
    (fh ++ counted name) srv).2

/-- One call of the client; behind the end of the directory it makes none. -/
def dirStep (s : DirRun σ) (op : DirOp) : DirRun σ :=
  if s.done then s
  else
    match op with
    | .readdir xid count =>
        match askReaddir os ex xid fh s.cookie count.toNat s.srv with
        | (none, srv) => { s with srv }
        | (some page, srv) =>
            { srv
              cookie := lastCookie s.cookie page.entries
              returned := s.returned ++ page.entries.map DirEntry.name
              done := page.eof }
    | .remove xid name => { s with srv := askRemove os ex fh xid name s.srv }

def dirRun : DirRun σ → List DirOp → DirRun σ := List.foldl (dirStep os ex fh)

def DirRun.start (srv : Srv σ) : DirRun σ := ⟨srv, 0, [], false⟩

/-- Every name that is removed has been returned. -/
def RemovesReturned (s : DirRun σ) : List DirOp → Prop
  | [] => True
  | op :: ops =>
      (∀ xid name, op = .remove xid name → name ∈ s.returned) ∧
        RemovesReturned (dirStep os ex fh s op) ops

/-- Before the end of the scan, a removal takes no name out of the
directory. -/
def RemoveWaits (path : Bytes) (names : σ → List Bytes) (s : DirRun σ) :
    DirOp → Prop
  | .readdir _ _ => True
  | .remove _ name => s.done = false →
      namesAfter os ex.root path names s.srv.world name = names s.srv.world

def RemovesWait (path : Bytes) (names : σ → List Bytes) (s : DirRun σ) :
    List DirOp → Prop
  | [] => True
  | op :: ops => RemoveWaits os ex path names s op ∧
      RemovesWait path names (dirStep os ex fh s op) ops

/-- An entry in front of the cookie that was never returned. -/
def Lost (names : σ → List Bytes) (s : DirRun σ) : Prop :=
  ∃ name ∈ (names s.srv.world).take s.cookie, name ∉ s.returned

/-- What holds before the end of a scan: the handle keeps resolving, no entry
behind the cookie has been returned, and there is one unless some entry is
lost. -/
structure Scanning (path : Bytes) (names : σ → List Bytes) (s : DirRun σ) :
    Prop where
  resolves : ∀ fs, fhToPath fs ex.root s.srv.table fh = (some path, s.srv.table)
  cookie : s.cookie < 2 ^ 32
  okNames : ∀ name ∈ s.returned, name.length ≤ 255 ∧ nul ∉ name
  behind : ∀ name ∈ (names s.srv.world).drop s.cookie, name ∉ s.returned
  more : s.returned ≠ [] → Lost names s ∨ s.cookie < (names s.srv.world).length

variable {os ex fh} {path : Bytes} {names : σ → List Bytes} {s : DirRun σ}

theorem listed_names
    {fs : FsView} {root : Bytes} (l : List Bytes) (idx : ℕ)
    (hall : ∀ name ∈ l, ∀ i, (entryFor fs root path name i).isSome) :
    (listed fs root path idx l).map DirEntry.name = l := by
  induction l generalizing idx with
  | nil => rfl
  | cons name l ih =>
      obtain ⟨e, he⟩ := Option.isSome_iff_exists.mp (hall name (by simp) (idx + 1))
      have hrest := ih (idx + 1) fun n hn => hall n (by simp [hn])
      rw [listed, he, List.map_append, hrest]
      simp [(entryFor_name he).1]

/-- One READDIR call of a scan: the names of the page are those next behind
the cookie, and all of them at the end. -/
theorem Scanning.page
    (laws : DirLaws os ex.root path names) (hfh : fh.length = fhSize)
    (h : Scanning ex fh path names s) (xid : ℕ) (count : UInt32) :
    ∃ page, askReaddir os ex xid fh s.cookie count.toNat s.srv =
        (some page, s.srv) ∧
      (page.eof = true → page.entries.map DirEntry.name =
        (names s.srv.world).drop s.cookie) ∧
      (page.eof = false → s.cookie < lastCookie s.cookie page.entries ∧
        lastCookie s.cookie page.entries < (names s.srv.world).length ∧
        (names s.srv.world).drop s.cookie = page.entries.map DirEntry.name ++
          (names s.srv.world).drop (lastCookie s.cookie page.entries)) := by
  obtain ⟨stream, hopen, hnames, herrno⟩ := laws.opens s.srv.world
  have hscan : Scannable os ex s.srv fh path stream :=
    { size := hfh
      resolves := h.resolves _
      opens := hopen
      errno := herrno
      short := by
        rw [hnames]
        exact laws.short s.srv.world
      few := by
        rw [hnames]
        exact laws.few s.srv.world }
  have hlisted : ∀ c, (listed (os.view s.srv.world) ex.root path c
      ((names s.srv.world).drop c)).map DirEntry.name =
        (names s.srv.world).drop c := by
    intro c
    apply listed_names
    intro name hname
    exact laws.listable s.srv.world name (List.mem_of_mem_drop hname)
  obtain ⟨page, hask, -, hlast, hmore⟩ := hscan.ask h.cookie count xid
  rw [hnames] at hlast hmore
  refine ⟨page, hask, ?_, ?_⟩
  · intro heof
    rw [hlast heof]
    exact hlisted s.cookie
  · intro heof
    obtain ⟨-, hgrows, hlt, hsplit⟩ := hmore heof
    refine ⟨hgrows, hlt, ?_⟩
    rw [← hlisted s.cookie, hsplit, List.map_append, hlisted]

theorem DirLaws.okName
    (laws : DirLaws os ex.root path names) {w : σ} {name : Bytes}
    (hname : name ∈ names w) : name.length ≤ 255 ∧ nul ∉ name := by
  obtain ⟨stream, -, hnames, -⟩ := laws.opens w
  refine ⟨laws.short w name hname, ?_⟩
  rw [← hnames] at hname
  exact (stream.namesOk name hname).2.2

section Page

variable {page : Page}
  (laws : DirLaws os ex.root path names) (h : Scanning ex fh path names s)

theorem nextPage_front
    (hsplit : (names s.srv.world).drop s.cookie = page.entries.map DirEntry.name ++
      (names s.srv.world).drop (lastCookie s.cookie page.entries)) :
    (names s.srv.world).take (lastCookie s.cookie page.entries) =
      (names s.srv.world).take s.cookie ++ page.entries.map DirEntry.name := by
  have hall := List.take_append_drop s.cookie (names s.srv.world)
  rw [hsplit, ← List.append_assoc] at hall
  apply (List.append_left_inj
    ((names s.srv.world).drop (lastCookie s.cookie page.entries))).mp
  rw [hall, List.take_append_drop]

include laws h

theorem Scanning.nextPage
    (hlt : lastCookie s.cookie page.entries < (names s.srv.world).length)
    (hsplit : (names s.srv.world).drop s.cookie = page.entries.map DirEntry.name ++
      (names s.srv.world).drop (lastCookie s.cookie page.entries)) :
    Scanning ex fh path names
      ⟨s.srv, lastCookie s.cookie page.entries,
        s.returned ++ page.entries.map DirEntry.name, false⟩ where
  resolves := h.resolves
  cookie := lt_trans hlt (laws.few s.srv.world)
  okNames := by
    intro name hname
    rcases List.mem_append.mp hname with hold | hnew
    · exact h.okNames name hold
    · apply laws.okName (w := s.srv.world)
      apply List.mem_of_mem_drop (i := s.cookie)
      rw [hsplit]
      exact List.mem_append_left _ hnew
  behind := by
    intro name hname hreturned
    have hnodup := (laws.nodup s.srv.world).sublist (List.drop_sublist s.cookie _)
    rw [hsplit] at hnodup
    rcases List.mem_append.mp hreturned with hold | hnew
    · refine h.behind name ?_ hold
      rw [hsplit]
      exact List.mem_append_right _ hname
    · exact List.disjoint_of_nodup_append hnodup hnew hname
  more := fun _ => Or.inr hlt

omit h in
theorem nextPage_lost
    (hsplit : (names s.srv.world).drop s.cookie = page.entries.map DirEntry.name ++
      (names s.srv.world).drop (lastCookie s.cookie page.entries)) :
    Lost names ⟨s.srv, lastCookie s.cookie page.entries,
      s.returned ++ page.entries.map DirEntry.name, false⟩ ↔ Lost names s := by
  have hfront := nextPage_front hsplit
  have hnodup := laws.nodup s.srv.world
  rw [← List.take_append_drop (lastCookie s.cookie page.entries)
    (names s.srv.world), hfront] at hnodup
  have hapart := List.disjoint_of_nodup_append (List.nodup_append.mp hnodup).1
  unfold Lost
  simp only [hfront, List.mem_append, not_or]
  constructor
  · rintro ⟨name, hold | hnew, hreturned⟩
    · exact ⟨name, hold, hreturned.1⟩
    · exact absurd hnew hreturned.2
  · rintro ⟨name, hname, hreturned⟩
    exact ⟨name, Or.inl hname, hreturned, fun hnew => hapart hname hnew⟩

omit h in
/-- At the end of the directory exactly the lost entries are missing. -/
theorem lastPage_all
    (hlast : page.entries.map DirEntry.name = (names s.srv.world).drop s.cookie) :
    (∀ name ∈ names s.srv.world,
        name ∈ s.returned ++ page.entries.map DirEntry.name) ↔ ¬ Lost names s := by
  have hall := List.take_append_drop s.cookie (names s.srv.world)
  have hnodup := laws.nodup s.srv.world
  rw [← hall] at hnodup
  have hapart := List.disjoint_of_nodup_append hnodup
  rw [hlast]
  constructor
  · rintro hin ⟨name, hname, hreturned⟩
    rcases List.mem_append.mp (hin name (List.mem_of_mem_take hname)) with
      hold | hback
    · exact hreturned hold
    · exact hapart hname hback
  · intro hlost name hname
    rw [← hall] at hname
    rcases List.mem_append.mp hname with hfront | hback
    · by_contra hmissing
      refine hlost ⟨name, hfront, ?_⟩
      intro hreturned
      exact hmissing (List.mem_append_left _ hreturned)
    · exact List.mem_append_right _ hback

end Page

section Removal

variable {name : Bytes} {srv : Srv σ}

/-- A removed name lies in front of the cookie. -/
theorem Scanning.front_of_returned
    (h : Scanning ex fh path names s) (hreturned : name ∈ s.returned)
    (hname : name ∈ names s.srv.world) :
    name ∈ (names s.srv.world).take s.cookie := by
  rw [← List.take_append_drop s.cookie (names s.srv.world)] at hname
  rcases List.mem_append.mp hname with hfront | hback
  · exact hfront
  · exact absurd hreturned (h.behind name hback)

theorem Scanning.shrink
    (h : Scanning ex fh path names s) (htable : srv.table = s.srv.table)
    (hsub : (names srv.world).drop s.cookie ⊆ (names s.srv.world).drop s.cookie)
    (hmore : s.returned ≠ [] →
      Lost names { s with srv } ∨ s.cookie < (names srv.world).length) :
    Scanning ex fh path names { s with srv } where
  resolves := by
    intro fs
    show fhToPath fs ex.root srv.table fh = (some path, srv.table)
    rw [htable]
    exact h.resolves fs
  cookie := h.cookie
  okNames := h.okNames
  behind := fun n hn => h.behind n (hsub hn)
  more := hmore

/-- A removal with an entry behind the cookie loses that entry. -/
theorem Scanning.lost_of_lt
    (h : Scanning ex fh path names s)
    (hy : name ∈ (names s.srv.world).take s.cookie)
    (hlt : s.cookie < (names s.srv.world).length)
    (hafter : names srv.world = (names s.srv.world).erase name) :
    Lost names { s with srv } := by
  obtain ⟨next, hnext⟩ : ∃ next, next ∈ ((names s.srv.world).drop s.cookie).take 1 := by
    apply List.exists_mem_of_ne_nil
    intro hnil
    have hlen := congrArg List.length hnil
    rw [List.length_take, List.length_drop, List.length_nil] at hlen
    omega
  refine ⟨next, ?_, h.behind next (List.mem_of_mem_take hnext)⟩
  show next ∈ (names srv.world).take s.cookie
  rw [hafter, (take_erase_of_lt hy hlt).1]
  exact List.mem_append_right _ hnext

/-- A removal that takes effect leaves something lost. -/
theorem Scanning.lost_of_effect
    (h : Scanning ex fh path names s) (hreturned : name ∈ s.returned)
    (hname : name ∈ names s.srv.world)
    (hafter : names srv.world = (names s.srv.world).erase name) :
    Lost names { s with srv } := by
  have hfront := h.front_of_returned hreturned hname
  by_cases hlt : s.cookie < (names s.srv.world).length
  · exact h.lost_of_lt hfront hlt hafter
  · obtain ⟨other, hother, hmissing⟩ :=
      (h.more (List.ne_nil_of_mem hreturned)).resolve_right hlt
    have hne : other ≠ name := fun heq => hmissing (heq ▸ hreturned)
    refine ⟨other, ?_, hmissing⟩
    show other ∈ (names srv.world).take s.cookie
    rw [hafter, (erase_of_le (by omega)).1]
    exact (List.mem_erase_of_ne hne).mpr (List.mem_of_mem_take hother)

variable (os) in
theorem Scanning.askRemove
    (h : Scanning ex fh path names s) (hfh : fh.length = fhSize)
    (hreturned : name ∈ s.returned) (xid : ℕ) :
    (askRemove os ex fh xid name s.srv).table = s.srv.table ∧
      names (askRemove os ex fh xid name s.srv).world =
        namesAfter os ex.root path names s.srv.world name := by
  obtain ⟨hshort, hnul⟩ := h.okNames name hreturned
  have harg : exec (argFh os ex (fh ++ counted name)
      (replyHead xid 0 (xdrInit rpcBufSize))) s.srv =
        (.ok (path, counted name), s.srv) :=
    exec_argFh hfh (h.resolves _)
  have hstate : GrandCross.askRemove os ex fh xid name s.srv =
      (exec (nfsRemove os ex (fh ++ counted name)
        (replyHead xid 0 (xdrInit rpcBufSize))) s.srv).2 := by
    unfold GrandCross.askRemove runRoute removeRoute
    split <;> rename_i heq <;> rw [heq]
  rw [hstate]
  exact exec_nfsRemove harg (xdrGetString_counted hshort hnul)

end Removal

/-! ## Whole runs -/

@[simp] theorem dirStep_done (hdone : s.done = true) (op : DirOp) :
    dirStep os ex fh s op = s := by
  simp [dirStep, hdone]

theorem dirRun_done (hdone : s.done = true) (ops : List DirOp) :
    dirRun os ex fh s ops = s := by
  induction ops with
  | nil => rfl
  | cons op ops ih =>
      show dirRun os ex fh (dirStep os ex fh s op) ops = s
      rw [dirStep_done hdone, ih]

theorem removesWait_done (hdone : s.done = true) (ops : List DirOp) :
    RemovesWait os ex fh path names s ops := by
  induction ops with
  | nil => trivial
  | cons op ops ih =>
      refine ⟨?_, ?_⟩
      · cases op with
        | readdir xid count => trivial
        | remove xid name =>
            intro hopen
            rw [hdone] at hopen
            exact absurd hopen (by decide)
      · rw [dirStep_done hdone]
        exact ih

/-- One step from `s` to `t`: no name appears, something is lost by a removal
that takes effect only, and at the end exactly the lost names are missing. -/
structure StepFacts (ex : Export) (fh path : Bytes) (names : σ → List Bytes)
    (s t : DirRun σ) (waits : Prop) : Prop where
  fewer : names t.srv.world ⊆ names s.srv.world
  scanning : t.done = false → Scanning ex fh path names t
  lost : t.done = false → (¬ Lost names t ↔ ¬ Lost names s ∧ waits)
  ends : t.done = true → waits ∧
    ((∀ name ∈ names t.srv.world, name ∈ t.returned) ↔ ¬ Lost names s)

section Step

variable (laws : DirLaws os ex.root path names) (hfh : fh.length = fhSize)
  (h : Scanning ex fh path names s) (hopen : s.done = false)
include laws hfh h hopen

theorem dirStep_readdir (xid : ℕ) (count : UInt32) :
    StepFacts ex fh path names s (dirStep os ex fh s (.readdir xid count)) True := by
  obtain ⟨page, hask, hlast, hmore⟩ := h.page laws hfh xid count
  have hstep : dirStep os ex fh s (.readdir xid count) =
      ⟨s.srv, lastCookie s.cookie page.entries,
        s.returned ++ page.entries.map DirEntry.name, page.eof⟩ := by
    simp [dirStep, hopen, hask]
  rw [hstep]
  cases heof : page.eof with
  | true =>
      have hall := lastPage_all laws (hlast heof)
      exact
        { fewer := List.Subset.refl _
          scanning := by simp
          lost := by simp
          ends := fun _ => ⟨trivial, hall⟩ }
  | false =>
      obtain ⟨-, hlt, hsplit⟩ := hmore heof
      exact
        { fewer := List.Subset.refl _
          scanning := fun _ => h.nextPage laws hlt hsplit
          lost := by
            intro _
            rw [nextPage_lost laws hsplit, and_true]
          ends := by simp }

theorem dirStep_remove
    {xid : ℕ} {name : Bytes} (hreturned : name ∈ s.returned) :
    StepFacts ex fh path names s (dirStep os ex fh s (.remove xid name))
      (RemoveWaits os ex path names s (.remove xid name)) := by
  obtain ⟨htable, hnames⟩ := h.askRemove os hfh hreturned xid
  have hstep : dirStep os ex fh s (.remove xid name) =
      { s with srv := GrandCross.askRemove os ex fh xid name s.srv } := by
    simp [dirStep, hopen]
  have hnotdone : ¬ s.done = true := by simp [hopen]
  rw [hstep]
  by_cases hsame : namesAfter os ex.root path names s.srv.world name =
      names s.srv.world
  · have hwaits : RemoveWaits os ex path names s (.remove xid name) :=
      fun _ => hsame
    rw [hsame] at hnames
    have hlost : Lost names { s with srv := askRemove os ex fh xid name s.srv } ↔
        Lost names s := by
      unfold Lost
      simp only [hnames]
    refine ⟨?_, ?_, ?_, ?_⟩
    · simp only [hnames]
      exact List.Subset.refl _
    · intro _
      apply h.shrink htable
      · rw [hnames]
        exact List.Subset.refl _
      · rw [hlost, hnames]
        exact h.more
    · intro _
      simp only [hlost, hwaits, and_true]
    · exact fun hdone => absurd hdone hnotdone
  · have herase := (laws.namesAfter s.srv.world name).resolve_left hsame
    have hname : name ∈ names s.srv.world := by
      by_contra hout
      exact hsame (herase.trans (List.erase_of_not_mem hout))
    have hacts : ¬ RemoveWaits os ex path names s (.remove xid name) :=
      fun hwaits => hsame (hwaits hopen)
    rw [herase] at hnames
    have hlost := h.lost_of_effect hreturned hname hnames
    refine ⟨?_, ?_, ?_, ?_⟩
    · simp only [hnames]
      exact List.erase_subset
    · intro _
      apply h.shrink htable
      · rw [hnames]
        exact drop_erase_subset (h.front_of_returned hreturned hname)
      · exact fun _ => Or.inl hlost
    · intro _
      simp only [hlost, hacts, not_true_eq_false, and_false]
    · exact fun hdone => absurd hdone hnotdone

theorem dirStep_facts
    {op : DirOp} (hvalid : ∀ xid name, op = .remove xid name → name ∈ s.returned) :
    StepFacts ex fh path names s (dirStep os ex fh s op)
      (RemoveWaits os ex path names s op) := by
  cases op with
  | readdir xid count => exact dirStep_readdir laws hfh h hopen xid count
  | remove xid name =>
      exact dirStep_remove laws hfh h hopen (hvalid xid name rfl)

end Step

section Run

variable (laws : DirLaws os ex.root path names) (hfh : fh.length = fhSize)
include laws hfh

theorem dirRun_fewer
    {ops : List DirOp} (h : s.done = false → Scanning ex fh path names s)
    (hvalid : RemovesReturned os ex fh s ops) (k : ℕ) :
    names (dirRun os ex fh s ops).srv.world ⊆
      names (dirRun os ex fh s (ops.take k)).srv.world := by
  induction ops generalizing s k with
  | nil =>
      rw [List.take_nil]
      exact List.Subset.refl _
  | cons op ops ih =>
      by_cases hdone : s.done = true
      · rw [dirRun_done hdone, dirRun_done hdone]
        exact List.Subset.refl _
      · have hopen : s.done = false := by simpa using hdone
        have hfacts := dirStep_facts laws hfh (h hopen) hopen hvalid.1
        have hrest := ih hfacts.scanning hvalid.2
        cases k with
        | zero => exact List.Subset.trans (hrest 0) hfacts.fewer
        | succ k => exact hrest k

/-- The names at the end are all returned exactly when nothing was lost before
and every removal waits for the end of the scan. -/
theorem dirRun_all_iff
    {ops : List DirOp} (h : Scanning ex fh path names s) (hopen : s.done = false)
    (hvalid : RemovesReturned os ex fh s ops)
    (hdone : (dirRun os ex fh s ops).done = true) :
    (∀ name ∈ names (dirRun os ex fh s ops).srv.world,
        name ∈ (dirRun os ex fh s ops).returned) ↔
      ¬ Lost names s ∧ RemovesWait os ex fh path names s ops := by
  induction ops generalizing s with
  | nil =>
      have hend : s.done = true := hdone
      rw [hopen] at hend
      exact absurd hend (by decide)
  | cons op ops ih =>
      have hfacts := dirStep_facts laws hfh h hopen hvalid.1
      have hcons : dirRun os ex fh s (op :: ops) =
          dirRun os ex fh (dirStep os ex fh s op) ops := rfl
      rw [hcons] at hdone ⊢
      by_cases hend : (dirStep os ex fh s op).done = true
      · obtain ⟨hsafe, hall⟩ := hfacts.ends hend
        rw [dirRun_done hend, hall]
        simp only [RemovesWait, hsafe, removesWait_done hend, and_true]
      · have hgoes : (dirStep os ex fh s op).done = false := by simpa using hend
        rw [ih (hfacts.scanning hgoes) hgoes hvalid.2 hdone, hfacts.lost hgoes,
          and_assoc]
        rfl

omit laws hfh in
theorem scanning_start
    {srv : Srv σ}
    (hres : ∀ fs, fhToPath fs ex.root srv.table fh = (some path, srv.table)) :
    Scanning ex fh path names (DirRun.start srv) where
  resolves := hres
  cookie := by simp [DirRun.start]
  okNames := by simp [DirRun.start]
  behind := by simp [DirRun.start]
  more := by simp [DirRun.start]

/-- Scans with removals of returned names: every name that lasts until the end
is returned if and only if no removal takes effect before the end. -/
theorem readdir_remove_complete_iff
    {srv : Srv σ} {ops : List DirOp}
    (hres : ∀ fs, fhToPath fs ex.root srv.table fh = (some path, srv.table))
    (hvalid : RemovesReturned os ex fh (DirRun.start srv) ops)
    (hdone : (dirRun os ex fh (DirRun.start srv) ops).done = true) :
    (∀ name, (∀ k, name ∈ names
          (dirRun os ex fh (DirRun.start srv) (ops.take k)).srv.world) →
        name ∈ (dirRun os ex fh (DirRun.start srv) ops).returned) ↔
      RemovesWait os ex fh path names (DirRun.start srv) ops := by
  have hstart : Scanning ex fh path names (DirRun.start srv) := scanning_start hres
  have hnone : ¬ Lost names (DirRun.start srv) := by
    rintro ⟨name, hname, -⟩
    simp [DirRun.start] at hname
  have hall := dirRun_all_iff laws hfh hstart rfl hvalid hdone
  rw [and_iff_right hnone] at hall
  rw [← hall]
  constructor
  · intro hlasts name hname
    exact hlasts name fun k =>
      dirRun_fewer laws hfh (fun _ => hstart) hvalid k hname
  · intro hin name hlasts
    have hname := hlasts ops.length
    rw [List.take_length] at hname
    exact hin name hname

end Run

end Runs

/-! ## Removing from three files -/

/-- What is left of the three names. -/
def Left : Type := {l : List Bytes // l.Sublist threeNames}

def leftOs : Os Left where
  view w := dirOs.view w.1
  chmod w _ _ := w
  truncate w _ _ := w
  writeAt w _ _ _ := (.error 5, w)
  mkdir w _ _ := (.error 13, w)
  creat w _ _ := (.error 13, w)
  unlink w path :=
    if (w.1.map (ascii "/r/" ++ ·)).contains path then
      (.ok (), ⟨w.1.erase (path.drop 3), List.erase_sublist.trans w.2⟩)
    else (.error 2, w)
  rmdir w _ := (.error 20, w)
  rename w _ _ := (.error 13, w)
  link w _ _ := (.error 13, w)
  symlink w _ _ := (.error 13, w)

def leftSrv : Srv Left := ⟨⟨threeNames, List.Sublist.refl _⟩, (dirSrv threeNames).table⟩

theorem leftOs_laws :
    DirLaws leftOs (ascii "/r") (ascii "/r") (Subtype.val : Left → List Bytes) where
  opens := by
    intro w
    refine ⟨streamOf w.1, rfl, ?_, rfl⟩
    apply List.filter_eq_self.mpr
    intro name hname
    have hall : ∀ n ∈ threeNames, decide (NameOk n) = true := by decide
    exact hall name (w.2.subset hname)
  nodup := fun w => List.Nodup.sublist w.2 (by decide)
  short := by
    intro w name hname
    have hall : ∀ n ∈ threeNames, n.length ≤ 255 := by decide
    exact hall name (w.2.subset hname)
  few := by
    intro w
    have hle := w.2.length_le
    have hthree : threeNames.length = 3 := rfl
    omega
  listable := by
    intro w name hname idx
    have hall : ∀ n ∈ threeNames, joinChild (ascii "/r") (ascii "/r") n pathMax =
        some (ascii "/r/" ++ n) := by decide
    have hstat : (leftOs.view w).lstat (ascii "/r/" ++ name) =
        .ok (plainStat 0o100644 1) :=
      if_pos (List.contains_iff_mem.mpr (List.mem_map_of_mem hname))
    simp [entryFor, hall name (w.2.subset hname), hstat]
  unlink := by
    intro w child
    by_cases hchild : (w.1.map (ascii "/r/" ++ ·)).contains child = true
    · obtain ⟨name, -, rfl⟩ := List.mem_map.mp (List.contains_iff_mem.mp hchild)
      refine Or.inr ⟨name, rfl, ?_⟩
      simp only [leftOs, hchild, if_true]
      rfl
    · left
      simp only [leftOs, hchild, if_false, Bool.false_eq_true]

theorem leftSrv_resolves (fs : FsView) :
    fhToPath fs (ascii "/r") leftSrv.table dirFh =
      (some (ascii "/r"), leftSrv.table) :=
  fhToPath_fast (by decide) (by decide)

/-- The names are listed to the end before one is removed. -/
def waitingOps : List DirOp :=
  [.readdir 1 20, .readdir 2 4096, .remove 3 (ascii "a")]

theorem readdir_remove_complete_waiting :
    (dirRun leftOs flatExport dirFh (DirRun.start leftSrv) waitingOps).done = true ∧
      ∀ name, (∀ k, name ∈ (dirRun leftOs flatExport dirFh (DirRun.start leftSrv)
          (waitingOps.take k)).srv.world.1) →
        name ∈ (dirRun leftOs flatExport dirFh (DirRun.start leftSrv)
          waitingOps).returned := by
  have hdone : (dirRun leftOs flatExport dirFh (DirRun.start leftSrv)
      waitingOps).done = true := by decide +kernel
  refine ⟨hdone, (readdir_remove_complete_iff leftOs_laws rfl leftSrv_resolves ?_
    hdone).mpr ?_⟩
  · refine ⟨by simp, by simp, ?_, trivial⟩
    intro xid name hop
    cases hop
    decide +kernel
  · refine ⟨trivial, trivial, ?_, trivial⟩
    intro hopen
    exact absurd hopen (by decide +kernel)

/-- A name is removed between the two pages. -/
def eagerOps : List DirOp :=
  [.readdir 1 20, .remove 2 (ascii "a"), .readdir 3 4096]

theorem eagerOps_valid :
    RemovesReturned leftOs flatExport dirFh (DirRun.start leftSrv) eagerOps := by
  refine ⟨by simp, ?_, by simp, trivial⟩
  intro xid name hop
  cases hop
  decide +kernel

/-- The second name moves to the first position and is skipped. -/
theorem readdir_remove_loses_entry :
    DirLaws leftOs (ascii "/r") (ascii "/r") (Subtype.val : Left → List Bytes) ∧
    RemovesReturned leftOs flatExport dirFh (DirRun.start leftSrv) eagerOps ∧
    (dirRun leftOs flatExport dirFh (DirRun.start leftSrv) eagerOps).done = true ∧
    (∀ k, ascii "bb" ∈ (dirRun leftOs flatExport dirFh (DirRun.start leftSrv)
      (eagerOps.take k)).srv.world.1) ∧
    ascii "bb" ∉ (dirRun leftOs flatExport dirFh (DirRun.start leftSrv)
      eagerOps).returned := by
  have hstart : Scanning flatExport dirFh (ascii "/r")
      (Subtype.val : Left → List Bytes) (DirRun.start leftSrv) :=
    scanning_start leftSrv_resolves
  have hlast : ascii "bb" ∈ (dirRun leftOs flatExport dirFh (DirRun.start leftSrv)
      eagerOps).srv.world.1 := by decide +kernel
  refine ⟨leftOs_laws, eagerOps_valid, by decide +kernel, ?_, by decide +kernel⟩
  intro k
  exact dirRun_fewer leftOs_laws rfl (fun _ => hstart) eagerOps_valid k hlast

end GrandCross
