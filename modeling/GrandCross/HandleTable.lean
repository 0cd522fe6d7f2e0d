import GrandCross.FileHandle

/-!
# The handle table over one server lifetime

What `intern` does to the three arrays, the invariant they keep, the fields a
handle carries, and the runs of handle operations.
-/

namespace GrandCross

open CText

/-! ## The fields of a handle -/

theorem be32At_cons
    (v : ℕ) (rest : Bytes) : be32At (be32 v ++ rest) 0 = v % 2 ^ 32 := by
  simp only [be32At, be32, List.drop_zero, List.cons_append, List.nil_append]
  exact wordOf_be32 v

theorem be32At_skip
    (v k : ℕ) (rest : Bytes) : be32At (be32 v ++ rest) (k + 4) = be32At rest k := by
  have hdrop : (be32 v ++ rest).drop (k + 4) = rest.drop k := by
    rw [Nat.add_comm k 4, ← List.drop_drop]
    rfl
  unfold be32At
  rw [hdrop]

theorem handleBytes_fields (index : ℕ) (path : Bytes) (hi lo : ℕ) :
    be32At (handleBytes index path hi lo) 0 = index % 2 ^ 32 ∧
    be32At (handleBytes index path hi lo) 4 = fhMagic ∧
    be32At (handleBytes index path hi lo) 8 = verifier path ∧
    be32At (handleBytes index path hi lo) 12 = hi % 2 ^ 32 ∧
    be32At (handleBytes index path hi lo) 16 = lo % 2 ^ 32 := by
  simp only [handleBytes, List.append_assoc]
  refine ⟨be32At_cons _ _, ?_, ?_, ?_, ?_⟩
  · rw [be32At_skip _ 0, be32At_cons]
    rfl
  · rw [be32At_skip _ 4, be32At_skip _ 0, be32At_cons]
    rfl
  · rw [be32At_skip _ 8, be32At_skip _ 4, be32At_skip _ 0, be32At_cons]
  · rw [be32At_skip _ 12, be32At_skip _ 8, be32At_skip _ 4, be32At_skip _ 0,
      be32At_cons]

theorem hash64Step_lt
    {h : ℕ × ℕ} (c : Byte) :
    (hash64Step h c).1 < 2 ^ 32 ∧ (hash64Step h c).2 < 2 ^ 32 := by
  have hfirst : (h.1 ^^^ c.toNat) * 16777619 % 2 ^ 32 < 2 ^ 32 :=
    Nat.mod_lt _ (by decide)
  refine ⟨hfirst, Nat.xor_lt_two_pow (Nat.mod_lt _ (by decide)) ?_⟩
  exact lt_of_le_of_lt (Nat.div_le_self _ _) hfirst

theorem hash64_lt (s : Bytes) :
    (hash64 s).1 < 2 ^ 32 ∧ (hash64 s).2 < 2 ^ 32 := by
  have hfold : ∀ (s : Bytes) (h : ℕ × ℕ), h.1 < 2 ^ 32 ∧ h.2 < 2 ^ 32 →
      (s.foldl hash64Step h).1 < 2 ^ 32 ∧ (s.foldl hash64Step h).2 < 2 ^ 32 := by
    intro s
    induction s with
    | nil =>
        intro h hlt
        exact hlt
    | cons c s ih =>
        intro h _
        exact ih _ (hash64Step_lt c)
  exact hfold s _ (by decide)

/-! ## The invariant of the table -/

/-- The arrays are in step, no path stands twice, and every stored pair is
the hash of the entry's path below the root. -/
structure TableOk (root : Bytes) (t : Table) : Prop where
  nodup : t.paths.Nodup
  hi_eq : t.hi = t.paths.map fun p => (hash64 (relpath root p)).1
  lo_eq : t.lo = t.paths.map fun p => (hash64 (relpath root p)).2
  room : t.paths.length ≤ t.cap

theorem tableOk_empty (root : Bytes) : TableOk root Table.empty :=
  ⟨List.nodup_nil, rfl, rfl, le_rfl⟩

section Intern

variable {root : Bytes} {t : Table}

theorem intern_of_mem {path : Bytes} (hmem : path ∈ t.paths) :
    intern root t path = (t.paths.idxOf path, t) := by
  unfold intern
  rw [if_pos (List.idxOf_lt_length_iff.mpr hmem)]

theorem intern_paths_of_not_mem {path : Bytes} (hmem : path ∉ t.paths) :
    (intern root t path).2.paths = t.paths ++ [path] := by
  have hidx : ¬ t.paths.idxOf path < t.paths.length := by
    rw [List.idxOf_lt_length_iff]
    exact hmem
  unfold intern
  rw [if_neg hidx]

theorem intern_grows (path : Bytes) :
    t.paths <+: (intern root t path).2.paths := by
  by_cases hmem : path ∈ t.paths
  · rw [intern_of_mem hmem]
  · rw [intern_paths_of_not_mem hmem]
    exact List.prefix_append _ _

theorem mem_intern (path : Bytes) : path ∈ (intern root t path).2.paths := by
  by_cases hmem : path ∈ t.paths
  · rw [intern_of_mem hmem]
    exact hmem
  · rw [intern_paths_of_not_mem hmem]
    simp

/-- What holds of the paths of a table and of a new path holds of the paths
afterwards. -/
theorem forall_mem_intern
    {P : Bytes → Prop} (ht : ∀ p ∈ t.paths, P p) {path : Bytes} (hpath : P path) :
    ∀ p ∈ (intern root t path).2.paths, P p := by
  intro p hp
  by_cases hmem : path ∈ t.paths
  · rw [intern_of_mem hmem] at hp
    exact ht p hp
  · rw [intern_paths_of_not_mem hmem, List.mem_append, List.mem_singleton] at hp
    rcases hp with h | h
    · exact ht p h
    · exact h ▸ hpath

/-- The index `intern` returns is where the path stands, old or new. -/
theorem intern_index (path : Bytes) :
    (intern root t path).1 = t.paths.idxOf path := by
  by_cases hmem : path ∈ t.paths
  · rw [intern_of_mem hmem]
  · have hidx : t.paths.idxOf path = t.paths.length :=
      List.idxOf_eq_length_iff.mpr hmem
    unfold intern
    rw [if_neg (by omega), hidx]

theorem intern_getElem? (path : Bytes) :
    (intern root t path).2.paths[t.paths.idxOf path]? = some path := by
  by_cases hmem : path ∈ t.paths
  · rw [intern_of_mem hmem]
    exact List.getElem?_idxOf hmem
  · rw [intern_paths_of_not_mem hmem, List.idxOf_eq_length_iff.mpr hmem]
    simp

@[simp] theorem intern_rebuilt (path : Bytes) :
    (intern root t path).2.rebuilt = t.rebuilt := by
  unfold intern
  split_ifs <;> rfl

theorem TableOk.intern (hok : TableOk root t) (path : Bytes) :
    TableOk root (intern root t path).2 := by
  by_cases hmem : path ∈ t.paths
  · rw [intern_of_mem hmem]
    exact hok
  · have hidx : ¬ t.paths.idxOf path < t.paths.length := by
      rw [List.idxOf_lt_length_iff]
      exact hmem
    have hroom := hok.room
    unfold GrandCross.intern
    rw [if_neg hidx]
    constructor
    · exact List.nodup_append.mpr ⟨hok.nodup, List.nodup_singleton _,
        by
          intro a ha b hb
          rw [List.mem_singleton] at hb
          subst hb
          exact fun h => hmem (h ▸ ha)⟩
    · simp [hok.hi_eq]
    · simp [hok.lo_eq]
    · simp only [List.length_append, List.length_singleton]
      split_ifs <;> omega

end Intern

/-! ## The walk over the export -/

section Walk

variable {root : Bytes} {fs : FsView}

/-- What every insertion keeps, the walk keeps; `D` tells which paths the walk
can come by. -/
theorem rebuildDir_keeps
    {P : Table → Prop} {D : Bytes → Prop}
    (hchild : ∀ dir name, D dir → NameOk name → name ≠ [dot] → name ≠ [dot, dot] →
      D (walkChild dir name))
    (hintern : ∀ t child, D child → P t → P (intern root t child).2)
    (levels : ℕ) {dir : Bytes} (hdir : D dir) {t : Table} (ht : P t) :
    P (rebuildDir fs root levels dir t) := by
  induction levels generalizing dir t with
  | zero => exact ht
  | succ levels ih =>
      unfold rebuildDir
      cases hopen : fs.opendir dir with
      | error e => exact ht
      | ok stream =>
          apply List.foldlRecOn
          · exact ht
          · intro t ht name hname
            dsimp only
            split_ifs with hdots hlong hsub
            · exact ht
            · exact ht
            · rw [not_or] at hdots
              have hnext := hchild dir name hdir (stream.namesOk name hname) hdots.1 hdots.2
              exact ih hnext (hintern t _ hnext ht)
            · rw [not_or] at hdots
              have hnext := hchild dir name hdir (stream.namesOk name hname) hdots.1 hdots.2
              exact hintern t _ hnext ht

theorem rebuild_keeps
    {P : Table → Prop} {D : Bytes → Prop}
    (hchild : ∀ dir name, D dir → NameOk name → name ≠ [dot] → name ≠ [dot, dot] →
      D (walkChild dir name))
    (hintern : ∀ t child, D child → P t → P (intern root t child).2)
    (hroot : D root) {t : Table} (hflag : P t → P { t with rebuilt := true })
    (ht : P t) : P (rebuild fs root t) := by
  unfold rebuild
  split_ifs with hskip
  · exact ht
  · exact rebuildDir_keeps hchild hintern 33 hroot
      (hintern _ _ hroot (hflag ht))

theorem rebuild_rebuilt
    (hroot : root ≠ []) (t : Table) : (rebuild fs root t).rebuilt = true := by
  unfold rebuild
  by_cases hskip : t.rebuilt = true ∨ root = []
  · rw [if_pos hskip]
    exact hskip.resolve_right hroot
  · rw [if_neg hskip]
    apply rebuildDir_keeps (P := fun t => t.rebuilt = true)
      (D := fun _ => True)
    · intros
      trivial
    · intro t child _ ht
      simpa using ht
    · trivial
    · simp

theorem TableOk.rebuild
    {t : Table} (hok : TableOk root t) :
    TableOk root (rebuild fs root t) ∧ t.paths <+: (rebuild fs root t).paths := by
  apply rebuild_keeps
    (P := fun u => TableOk root u ∧ t.paths <+: u.paths) (D := fun _ => True)
  · intros
    trivial
  · intro u child _ hu
    exact ⟨hu.1.intern child, hu.2.trans (intern_grows child)⟩
  · trivial
  · intro hu
    exact ⟨⟨hu.1.nodup, hu.1.hi_eq, hu.1.lo_eq, hu.1.room⟩, hu.2⟩
  · exact ⟨hok, List.prefix_rfl⟩

end Walk

/-! ## Resolving a handle -/

section Resolve

variable {root : Bytes} {fs : FsView}

theorem findLoop_rebuilt
    (hi lo rounds : ℕ) {t : Table} (ht : t.rebuilt = true) :
    findLoop fs root hi lo (rounds + 1) t = some (findHash t hi lo, t) := by
  unfold findLoop
  cases hfind : findHash t hi lo with
  | none => simp [ht]
  | some path => rfl

theorem findLoop_two
    (hroot : root ≠ []) (hi lo rounds : ℕ) (t : Table) :
    findLoop fs root hi lo (rounds + 2) t =
      match findHash t hi lo with
      | some path => some (some path, t)
      | none =>
          if t.rebuilt then some (none, t)
          else some (findHash (rebuild fs root t) hi lo, rebuild fs root t) := by
  rw [findLoop]
  cases hfind : findHash t hi lo with
  | some path => rfl
  | none =>
      simp only
      split_ifs with ht
      · rfl
      · exact findLoop_rebuilt hi lo rounds (rebuild_rebuilt hroot t)

/-- The handle is not settled before the search by hash. -/
def NeedsSearch (t : Table) (fh : Bytes) : Prop :=
  be32At fh 4 = fhMagic ∧ fastPath t fh = none ∧
    ¬ (be32At fh 12 = 0 ∧ be32At fh 16 = 0)

theorem fhToPathIn_search
    {t : Table} {fh : Bytes} (hneeds : NeedsSearch t fh) (rounds : ℕ) :
    fhToPathIn fs root t fh rounds =
      findLoop fs root (be32At fh 12) (be32At fh 16) rounds t := by
  obtain ⟨hmagic, hfast, hzero⟩ := hneeds
  simp [fhToPathIn, hmagic, hfast, hzero]

theorem fhToPathIn_settled
    {t : Table} {fh : Bytes} (hneeds : ¬ NeedsSearch t fh) (rounds : ℕ) :
    fhToPathIn fs root t fh rounds =
      some (if be32At fh 4 = fhMagic then fastPath t fh else none, t) := by
  unfold fhToPathIn
  by_cases hmagic : be32At fh 4 = fhMagic
  · cases hfast : fastPath t fh with
    | some path => simp [hmagic]
    | none =>
        by_cases hzero : be32At fh 12 = 0 ∧ be32At fh 16 = 0
        · simp [hmagic, hzero]
        · exact absurd ⟨hmagic, hfast, hzero⟩ hneeds
  · simp [hmagic]

theorem fhToPath_settled
    {t : Table} {fh : Bytes} (hneeds : ¬ NeedsSearch t fh) :
    fhToPath fs root t fh =
      (if be32At fh 4 = fhMagic then fastPath t fh else none, t) := by
  unfold fhToPath
  rw [fhToPathIn_settled hneeds]
  rfl

theorem fhToPath_fast
    {t : Table} {fh path : Bytes} (hmagic : be32At fh 4 = fhMagic)
    (hfast : fastPath t fh = some path) :
    fhToPath fs root t fh = (some path, t) := by
  have hneeds : ¬ NeedsSearch t fh := by
    intro h
    simp [h.2.1] at hfast
  rw [fhToPath_settled hneeds, if_pos hmagic, hfast]

theorem fhToPath_search
    (hroot : root ≠ []) {t : Table} {fh : Bytes} (hneeds : NeedsSearch t fh) :
    fhToPath fs root t fh =
      match findHash t (be32At fh 12) (be32At fh 16) with
      | some path => (some path, t)
      | none =>
          if t.rebuilt then (none, t)
          else
            (findHash (rebuild fs root t) (be32At fh 12) (be32At fh 16),
              rebuild fs root t) := by
  unfold fhToPath
  rw [fhToPathIn_search hneeds, findLoop_two hroot]
  cases hfind : findHash t (be32At fh 12) (be32At fh 16) with
  | some path => rfl
  | none =>
      simp only
      split_ifs <;> rfl

/-- The loop of `fh_to_path` ends after at most two rounds. -/
theorem fhToPath_terminates
    (hroot : root ≠ []) (t : Table) (fh : Bytes) (rounds : ℕ) :
    fhToPathIn fs root t fh (rounds + 2) = some (fhToPath fs root t fh) := by
  by_cases hneeds : NeedsSearch t fh
  · rw [fhToPathIn_search hneeds, findLoop_two hroot, fhToPath_search hroot hneeds]
    cases hfind : findHash t (be32At fh 12) (be32At fh 16) with
    | some path => rfl
    | none =>
        simp only
        split_ifs <;> rfl
  · rw [fhToPathIn_settled hneeds, fhToPath_settled hneeds]

/-- Resolution leaves the table alone or runs the one walk. -/
theorem fhToPath_table (t : Table) (fh : Bytes) :
    (fhToPath fs root t fh).2 = t ∨
      (fhToPath fs root t fh).2 = rebuild fs root t := by
  by_cases hneeds : NeedsSearch t fh
  · by_cases hroot : root = []
    · left
      have hsame : rebuild fs root t = t := by
        simp [rebuild, hroot]
      unfold fhToPath
      rw [fhToPathIn_search hneeds]
      simp only [findLoop, hsame]
      cases hfind : findHash t (be32At fh 12) (be32At fh 16) with
      | some path => rfl
      | none =>
          simp only
          split_ifs <;> rfl
    · rw [fhToPath_search hroot hneeds]
      cases hfind : findHash t (be32At fh 12) (be32At fh 16) with
      | some path => exact Or.inl rfl
      | none =>
          simp only
          split_ifs
          · exact Or.inl rfl
          · exact Or.inr rfl
  · left
    rw [fhToPath_settled hneeds]

theorem TableOk.fhToPath
    {t : Table} (hok : TableOk root t) (fh : Bytes) :
    TableOk root (fhToPath fs root t fh).2 ∧
      t.paths <+: (fhToPath fs root t fh).2.paths := by
  have htable : (GrandCross.fhToPath fs root t fh).2 = t ∨
      (GrandCross.fhToPath fs root t fh).2 = GrandCross.rebuild fs root t :=
    fhToPath_table t fh
  rcases htable with h | h
  · rw [h]
    exact ⟨hok, List.prefix_rfl⟩
  · rw [h]
    exact hok.rebuild

theorem find?_zip_map (ps : List Bytes) (f g : Bytes → ℕ) (hi lo : ℕ) :
    ((ps.zip ((ps.map f).zip (ps.map g))).find? fun e => e.2 = (hi, lo)).map
        Prod.fst =
      ps.find? fun p => (f p, g p) = (hi, lo) := by
  induction ps with
  | nil => rfl
  | cons p ps ih =>
      simp only [List.map_cons, List.zip_cons_cons]
      by_cases hp : (f p, g p) = (hi, lo)
      · rw [List.find?_cons_of_pos (by simpa using hp),
          List.find?_cons_of_pos (by simpa using hp)]
        rfl
      · rw [List.find?_cons_of_neg (by simpa using hp),
          List.find?_cons_of_neg (by simpa using hp)]
        exact ih

theorem findHash_eq (hok : TableOk root t) (hi lo : ℕ) :
    findHash t hi lo =
      t.paths.find? fun p => hash64 (relpath root p) = (hi, lo) := by
  unfold findHash
  rw [hok.hi_eq, hok.lo_eq]
  exact find?_zip_map t.paths _ _ hi lo

theorem findHash_some
    (hok : TableOk root t) {hi lo : ℕ} {q : Bytes}
    (hfind : findHash t hi lo = some q) :
    q ∈ t.paths ∧ hash64 (relpath root q) = (hi, lo) := by
  rw [findHash_eq hok] at hfind
  have hhash := List.find?_some hfind
  exact ⟨List.mem_of_find?_eq_some hfind, by simpa using hhash⟩

/-- A handle resolves to a path of the table it leaves. -/
theorem fhToPath_mem
    (hroot : root ≠ []) {t : Table} (hok : TableOk root t) {fh q : Bytes}
    (hres : (fhToPath fs root t fh).1 = some q) :
    q ∈ (fhToPath fs root t fh).2.paths := by
  by_cases hneeds : NeedsSearch t fh
  · rw [fhToPath_search hroot hneeds] at hres ⊢
    cases hfind : findHash t (be32At fh 12) (be32At fh 16) with
    | some path =>
        simp only [hfind, Option.some.injEq] at hres ⊢
        subst hres
        exact (findHash_some hok hfind).1
    | none =>
        simp only [hfind] at hres ⊢
        split_ifs at hres ⊢
        exact (findHash_some hok.rebuild.1 hres).1
  · rw [fhToPath_settled hneeds] at hres ⊢
    simp only at hres ⊢
    split_ifs at hres with hmagic
    unfold fastPath at hres
    cases hget : t.paths[be32At fh 0]? with
    | none => simp [hget] at hres
    | some path =>
        simp only [hget] at hres
        split_ifs at hres
        rw [← Option.some.inj hres]
        exact List.mem_of_getElem? hget

end Resolve

end GrandCross
