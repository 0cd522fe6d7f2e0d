import GrandCross.HandleTable

/-!
# Handles within one server lifetime

Runs of `fh_from_path`, `fh_to_path` and `rebuild` from an empty table.  The
index of a handle is a 32-bit word while the table is counted by a `long`:
as long as no handle is issued for an entry behind the first `2 ^ 32`,
handles are stable and injective; the entry behind them gets the index of the
first one.
-/

namespace GrandCross

open CText

inductive FhOp where
  | fromPath (path : Bytes)
  | toPath (fh : Bytes)
  | rebuild

/-- An operation with the file system as it stands at that moment. -/
structure FhCall where
  fs : FsView
  op : FhOp

def fhStep (root : Bytes) (t : Table) (call : FhCall) : Table :=
  match call.op with
  | .fromPath path => (fhFromPath root t path).2
  | .toPath fh => (fhToPath call.fs root t fh).2
  | .rebuild => rebuild call.fs root t

def fhRun (root : Bytes) (t : Table) (calls : List FhCall) : Table :=
  calls.foldl (fhStep root) t

/-- The handle `fh_from_path` hands out for a path. -/
def issue (root : Bytes) (t : Table) (path : Bytes) : Bytes :=
  (fhFromPath root t path).1

section Runs

variable {root : Bytes}

theorem TableOk.step
    {t : Table} (hok : TableOk root t) (call : FhCall) :
    TableOk root (fhStep root t call) ∧
      t.paths <+: (fhStep root t call).paths := by
  cases hop : call.op with
  | fromPath path =>
      simp only [fhStep, hop]
      exact ⟨hok.intern path, intern_grows path⟩
  | toPath fh =>
      simp only [fhStep, hop]
      exact hok.fhToPath fh
  | rebuild =>
      simp only [fhStep, hop]
      exact hok.rebuild

theorem TableOk.run
    {t : Table} (hok : TableOk root t) (calls : List FhCall) :
    TableOk root (fhRun root t calls) ∧
      t.paths <+: (fhRun root t calls).paths := by
  induction calls generalizing t with
  | nil => exact ⟨hok, List.prefix_rfl⟩
  | cons call calls ih =>
      have hstep := hok.step call
      have hrest := ih hstep.1
      exact ⟨hrest.1, hstep.2.trans hrest.2⟩

theorem fhRun_append (t : Table) (pre rest : List FhCall) :
    fhRun root t (pre ++ rest) = fhRun root (fhRun root t pre) rest :=
  List.foldl_append

/-- The index, the verifier and the hash pair of an issued handle. -/
theorem issue_eq
    {t : Table} (hok : TableOk root t) (path : Bytes) :
    issue root t path =
      handleBytes (t.paths.idxOf path) path (hash64 (relpath root path)).1
        (hash64 (relpath root path)).2 := by
  have hnew := hok.intern path
  have hget : (intern root t path).2.paths[t.paths.idxOf path]? = some path :=
    intern_getElem? path
  have hhi : (intern root t path).2.hi.getD (t.paths.idxOf path) 0 =
      (hash64 (relpath root path)).1 := by
    rw [hnew.hi_eq, List.getD_eq_getElem?_getD, List.getElem?_map, hget]
    rfl
  have hlo : (intern root t path).2.lo.getD (t.paths.idxOf path) 0 =
      (hash64 (relpath root path)).2 := by
    rw [hnew.lo_eq, List.getD_eq_getElem?_getD, List.getElem?_map, hget]
    rfl
  unfold issue fhFromPath
  simp only [intern_index, hhi, hlo]

theorem getElem?_of_grows
    {ps qs : List Bytes} (hgrows : ps <+: qs) {i : ℕ} {path : Bytes}
    (hget : ps[i]? = some path) : qs[i]? = some path := by
  obtain ⟨rest, rfl⟩ := hgrows
  rw [List.getElem?_append_left]
  · exact hget
  · exact (List.getElem?_eq_some_iff.mp hget).1

theorem idxOf_of_getElem?
    {ps : List Bytes} (hnodup : ps.Nodup) {i : ℕ} {path : Bytes}
    (hget : ps[i]? = some path) : ps.idxOf path = i := by
  obtain ⟨hbound, hval⟩ := List.getElem?_eq_some_iff.mp hget
  subst hval
  exact hnodup.idxOf_getElem i hbound

/-- A handle whose index fits its word resolves by the fast path. -/
theorem fhToPath_handleBytes
    {fs : FsView} {t : Table} {i : ℕ} {path : Bytes} (hi : i < 2 ^ 32)
    (hget : t.paths[i]? = some path) (h l : ℕ) :
    fhToPath fs root t (handleBytes i path h l) = (some path, t) := by
  have hfields := handleBytes_fields i path h l
  apply fhToPath_fast hfields.2.1
  unfold fastPath
  rw [hfields.1, Nat.mod_eq_of_lt hi, hget]
  simp [hfields.2.2.1]

end Runs

/-! ## The condition and the property -/

/-- `fh_from_path` is asked for a path among the first `2 ^ 32` entries, or
for a new one while fewer are there. -/
def FhFits (t : Table) : FhOp → Prop
  | .fromPath path => t.paths.idxOf path < 2 ^ 32
  | .toPath _ => True
  | .rebuild => True

def RunFits (root : Bytes) : Table → List FhCall → Prop
  | _, [] => True
  | t, call :: calls => FhFits t call.op ∧ RunFits root (fhStep root t call) calls

theorem RunFits.at_call
    {root : Bytes} {t : Table} {pre rest : List FhCall} {call : FhCall}
    (hfits : RunFits root t (pre ++ call :: rest)) :
    FhFits (fhRun root t pre) call.op := by
  induction pre generalizing t with
  | nil => exact hfits.1
  | cons first pre ih => exact ih hfits.2

/-- Stability and injectivity of the handles of a run. -/
structure HandlesStable (root : Bytes) (calls : List FhCall) : Prop where
  resolves : ∀ pre path fs rest,
    calls = pre ++ ⟨fs, .fromPath path⟩ :: rest →
      ∀ now, (fhToPath now root (fhRun root Table.empty calls)
        (issue root (fhRun root Table.empty pre) path)).1 = some path
  injective : ∀ pre path fs mid path' fs' rest,
    calls = pre ++ ⟨fs, .fromPath path⟩ ::
        (mid ++ ⟨fs', .fromPath path'⟩ :: rest) →
      (issue root (fhRun root Table.empty pre) path =
          issue root (fhRun root Table.empty
            (pre ++ ⟨fs, .fromPath path⟩ :: mid)) path' ↔
        path = path')
  unmoved : ∀ pre rest, calls = pre ++ rest →
    (fhRun root Table.empty pre).paths <+:
      (fhRun root Table.empty calls).paths
  unique : (fhRun root Table.empty calls).paths.Nodup
  hashes : ∀ (i : ℕ) (path : Bytes), (fhRun root Table.empty calls).paths[i]? = some path →
    ((fhRun root Table.empty calls).hi[i]?,
        (fhRun root Table.empty calls).lo[i]?) =
      (some (hash64 (relpath root path)).1,
        some (hash64 (relpath root path)).2)

section Stable

variable (root : Bytes)

theorem fhRun_ok (calls : List FhCall) :
    TableOk root (fhRun root Table.empty calls) :=
  ((tableOk_empty root).run calls).1

theorem fhRun_prefix (pre rest : List FhCall) :
    (fhRun root Table.empty pre).paths <+:
      (fhRun root Table.empty (pre ++ rest)).paths := by
  rw [fhRun_append]
  exact ((fhRun_ok root pre).run rest).2

/-- Where a path was interned, it stands in every later state. -/
theorem getElem?_after_fromPath
    (pre : List FhCall) (fs : FsView) (path : Bytes) (rest : List FhCall) :
    (fhRun root Table.empty (pre ++ ⟨fs, .fromPath path⟩ :: rest)).paths[
      (fhRun root Table.empty pre).paths.idxOf path]? = some path := by
  have hcall : (intern root (fhRun root Table.empty pre) path).2.paths[
      (fhRun root Table.empty pre).paths.idxOf path]? = some path :=
    intern_getElem? path
  have hlater := fhRun_prefix root (pre ++ [⟨fs, .fromPath path⟩]) rest
  rw [List.append_assoc, List.singleton_append] at hlater
  apply getElem?_of_grows hlater
  rw [fhRun_append]
  exact hcall

theorem handles_stable
    (calls : List FhCall) (hfits : RunFits root Table.empty calls) :
    HandlesStable root calls := by
  constructor
  · intro pre path fs rest hcalls now
    subst hcalls
    have hlt : (fhRun root Table.empty pre).paths.idxOf path < 2 ^ 32 :=
      hfits.at_call
    rw [issue_eq (fhRun_ok root pre),
      fhToPath_handleBytes hlt (getElem?_after_fromPath root pre fs path rest)]
  · intro pre path fs mid path' fs' rest hcalls
    subst hcalls
    have hfirst : (fhRun root Table.empty pre).paths.idxOf path < 2 ^ 32 :=
      hfits.at_call
    rw [← List.cons_append, ← List.append_assoc] at hfits
    have hsecond : (fhRun root Table.empty
        (pre ++ ⟨fs, .fromPath path⟩ :: mid)).paths.idxOf path' < 2 ^ 32 :=
      hfits.at_call
    have hget := getElem?_after_fromPath root pre fs path mid
    have hidx : (fhRun root Table.empty
        (pre ++ ⟨fs, .fromPath path⟩ :: mid)).paths.idxOf path =
          (fhRun root Table.empty pre).paths.idxOf path :=
      idxOf_of_getElem? (fhRun_ok root _).nodup hget
    rw [issue_eq (fhRun_ok root pre), issue_eq (fhRun_ok root _)]
    constructor
    · intro hsame
      have hword : (fhRun root Table.empty pre).paths.idxOf path % 2 ^ 32 =
          (fhRun root Table.empty
            (pre ++ ⟨fs, .fromPath path⟩ :: mid)).paths.idxOf path' % 2 ^ 32 := by
        rw [← (handleBytes_fields _ path _ _).1, hsame,
          (handleBytes_fields _ path' _ _).1]
      rw [Nat.mod_eq_of_lt hfirst, Nat.mod_eq_of_lt hsecond] at hword
      by_contra hne
      have hmem : path ∈ (fhRun root Table.empty
          (pre ++ ⟨fs, .fromPath path⟩ :: mid)).paths :=
        List.mem_of_getElem? hget
      rw [← hidx] at hword
      exact hne ((List.idxOf_inj hmem).mp hword)
    · intro hsame
      subst hsame
      rw [hidx]
  · intro pre rest hcalls
    subst hcalls
    exact fhRun_prefix root pre rest
  · exact (fhRun_ok root calls).nodup
  · intro i path hget
    rw [(fhRun_ok root calls).hi_eq, (fhRun_ok root calls).lo_eq]
    simp [hget]

end Stable

def noFs : FsView where
  lstat := fun _ => .error 2
  stat := fun _ => .error 2
  opendir := fun _ => .error 2
  readAt := fun _ _ _ => .error 2
  readlink := fun _ => .error 2
  statvfs := fun _ => .error 2

def fromCall (path : Bytes) : FhCall := ⟨noFs, .fromPath path⟩

theorem handles_stable_two :
    RunFits (ascii "/r") Table.empty
      [fromCall (ascii "/r"), ⟨noFs, .rebuild⟩, fromCall (ascii "/r/as")] ∧
    HandlesStable (ascii "/r")
      [fromCall (ascii "/r"), ⟨noFs, .rebuild⟩, fromCall (ascii "/r/as")] := by
  have hfits : RunFits (ascii "/r") Table.empty
      [fromCall (ascii "/r"), ⟨noFs, .rebuild⟩, fromCall (ascii "/r/as")] := by
    refine ⟨?_, trivial, ?_, trivial⟩
    · show List.idxOf _ _ < _
      decide
    · show List.idxOf _ _ < _
      decide
  exact ⟨hfits, handles_stable _ _ hfits⟩

/-! ## The entry behind the first `2 ^ 32` -/

theorem fhRun_fromCalls
    (root : Bytes) (ps : List Bytes) {t : Table}
    (hnodup : (t.paths ++ ps).Nodup) :
    (fhRun root t (ps.map fromCall)).paths = t.paths ++ ps := by
  induction ps generalizing t with
  | nil => simp [fhRun]
  | cons path ps ih =>
      have hnew : path ∉ t.paths := by
        intro hmem
        exact (List.nodup_append.mp hnodup).2.2 path hmem path (by simp) rfl
      have hpaths : (fhStep root t (fromCall path)).paths = t.paths ++ [path] :=
        intern_paths_of_not_mem hnew
      have hrest : ((fhStep root t (fromCall path)).paths ++ ps).Nodup := by
        rw [hpaths, List.append_assoc]
        exact hnodup
      simp only [List.map_cons, fhRun, List.foldl_cons]
      have hrun := ih hrest
      unfold fhRun at hrun
      rw [hrun, hpaths, List.append_assoc]
      rfl

/-- With `2 ^ 32` entries in the table, a path with the verifier of the first
entry gets a handle that resolves to the first entry. -/
theorem not_stable_of_wrap
    (root first last : Bytes) (fill : List Bytes)
    (hlen : fill.length + 1 = 2 ^ 32)
    (hnodup : (first :: fill ++ [last]).Nodup)
    (hsame : verifier last = verifier first) :
    ¬ HandlesStable root ((first :: fill ++ [last]).map fromCall) := by
  intro hstable
  have hparts := List.nodup_append.mp hnodup
  have hnew : last ∉ first :: fill := fun h => hparts.2.2 _ h _ (by simp) rfl
  have hne : first ≠ last := fun h => hnew (by simp [h])
  have hbefore : (fhRun root Table.empty ((first :: fill).map fromCall)).paths =
      first :: fill :=
    fhRun_fromCalls root (first :: fill) hparts.1
  have hafter : (fhRun root Table.empty
      ((first :: fill ++ [last]).map fromCall)).paths =
        first :: fill ++ [last] :=
    fhRun_fromCalls root _ hnodup
  have hidx : (first :: fill).idxOf last = 2 ^ 32 := by
    rw [List.idxOf_eq_length_iff.mpr hnew, List.length_cons, hlen]
  have hresolve := hstable.resolves ((first :: fill).map fromCall) last noFs []
    (by simp [fromCall]) noFs
  rw [issue_eq (fhRun_ok root _), hbefore, hidx] at hresolve
  have hfields := handleBytes_fields (2 ^ 32) last
    (hash64 (relpath root last)).1 (hash64 (relpath root last)).2
  have hfast : fastPath
      (fhRun root Table.empty ((first :: fill ++ [last]).map fromCall))
      (handleBytes (2 ^ 32) last (hash64 (relpath root last)).1
        (hash64 (relpath root last)).2) = some first := by
    unfold fastPath
    rw [hfields.1, hafter, hfields.2.2.1, Nat.mod_self, List.cons_append,
      List.getElem?_cons_zero]
    simp [hsame]
  rw [fhToPath_fast hfields.2.1 hfast] at hresolve
  exact hne (Option.some.inj hresolve)

def wrapFiller (n : ℕ) : Bytes := ascii "/r/" ++ decimal n

theorem wrapFiller_not_letter
    {n : ℕ} {rest : Bytes} {b : Byte} (hb : isDigit b = false) :
    wrapFiller n ≠ ascii "/r/" ++ b :: rest := by
  intro heq
  have hdec : decimal n = b :: rest := List.append_cancel_left heq
  have hmem : b ∈ decimal n := by simp [hdec]
  obtain ⟨d, hd, rfl⟩ := exists_digit_of_mem_decimal hmem
  simp [(digit_props d hd).1] at hb

theorem wrapFillers_nodup (n : ℕ) :
    (ascii "/r/as" :: (List.range n).map wrapFiller ++ [ascii "/r/c1"]).Nodup := by
  have hinj : Function.Injective wrapFiller := by
    intro k m h
    exact decimal_injective (List.append_cancel_left h)
  have hfill : ((List.range n).map wrapFiller).Nodup :=
    List.Nodup.map hinj List.nodup_range
  have hfirst : ∀ k, wrapFiller k ≠ ascii "/r/as" := fun k =>
    wrapFiller_not_letter rfl
  have hlast : ∀ k, wrapFiller k ≠ ascii "/r/c1" := fun k =>
    wrapFiller_not_letter rfl
  have hne : ascii "/r/as" ≠ ascii "/r/c1" := by decide
  rw [List.nodup_append]
  refine ⟨List.nodup_cons.mpr ⟨?_, hfill⟩, List.nodup_singleton _, ?_⟩
  · intro hmem
    obtain ⟨k, -, h⟩ := List.mem_map.mp hmem
    exact hfirst k h
  · intro a ha b hb
    rw [List.mem_singleton] at hb
    subst hb
    rcases List.mem_cons.mp ha with rfl | hmem
    · exact hne
    · obtain ⟨k, -, rfl⟩ := List.mem_map.mp hmem
      exact hlast k

/-- The last path of this run gets the handle index 0 of `/r/as`. -/
theorem handle_index_wraps :
    ¬ HandlesStable (ascii "/r")
      ((ascii "/r/as" :: (List.range (2 ^ 32 - 1)).map wrapFiller ++
        [ascii "/r/c1"]).map fromCall) := by
  apply not_stable_of_wrap
  · rw [List.length_map, List.length_range]
    norm_num
  · exact wrapFillers_nodup _
  · decide

end GrandCross
