import GrandCross.HandleRuns
import GrandCross.NfsTriples

/-!
# Paths below the export root

Every path the server interns is the root followed by components without
slashes; when the root is not `/`, the path below the root determines it.
This holds of the handle table in every state the server reaches.
-/

namespace GrandCross

open CText EarlyExit

def CompOk (c : Bytes) : Prop := c ≠ [] ∧ slash ∉ c

theorem NameOk.compOk {name : Bytes} (h : NameOk name) : CompOk name :=
  ⟨h.1, h.2.1⟩

/-- The components behind the root, each with its slash. -/
def slashed (comps : List Bytes) : Bytes := comps.flatMap fun c => slash :: c

def pathOf (root : Bytes) (comps : List Bytes) : Bytes := root ++ slashed comps

/-- The components without the first slash. -/
def relOf (comps : List Bytes) : Bytes := (slashed comps).drop 1

/-- The root followed by components that are all `ok`. -/
def Below (ok : Bytes → Prop) (root path : Bytes) : Prop :=
  ∃ comps, (∀ c ∈ comps, ok c) ∧ path = pathOf root comps

/-- The root followed by components. -/
def Under (root path : Bytes) : Prop :=
  ∃ comps, (∀ c ∈ comps, CompOk c) ∧ path = pathOf root comps

/-- An absolute path that is not `/` and has no trailing slash. -/
structure RootOk (root : Bytes) : Prop where
  absolute : root.head? = some slash
  tail : root.getLast? ≠ some slash

theorem RootOk.ne_nil {root : Bytes} (h : RootOk root) : root ≠ [] := by
  intro hnil
  have habs := h.absolute
  simp [hnil] at habs

theorem trimSlashes_last
    (s : Bytes) (hne : trimSlashes s ≠ [slash]) :
    (trimSlashes s).head? ≠ some slash := by
  induction s with
  | nil => simp [trimSlashes]
  | cons a s ih =>
      cases s with
      | nil =>
          simp only [trimSlashes] at hne ⊢
          intro h
          exact hne (by simpa using h)
      | cons b rest =>
          unfold trimSlashes at hne ⊢
          split_ifs at hne ⊢ with ha
          · exact ih hne
          · simpa using ha

theorem trimSlashes_ne_nil {s : Bytes} (hs : s ≠ []) : trimSlashes s ≠ [] := by
  induction s with
  | nil => exact hs
  | cons a s ih =>
      cases s with
      | nil => simp [trimSlashes]
      | cons b rest =>
          unfold trimSlashes
          split_ifs with ha
          · exact ih (by simp)
          · simp

/-- What `fh_set_root` makes of an absolute path, other than `/` itself. -/
theorem fhSetRoot_ok
    {abs : Bytes} (habs : abs.head? = some slash)
    (hne : fhSetRoot abs ≠ [slash]) : RootOk (fhSetRoot abs) := by
  have htake : (abs.take 1023).head? = some slash := by
    cases abs with
    | nil => simp at habs
    | cons a rest => simpa using habs
  have hnil : (abs.take 1023).reverse ≠ [] := by
    intro h
    rw [List.reverse_eq_nil_iff] at h
    simp [h] at htake
  constructor
  · obtain ⟨cut, hcut⟩ := trimSlashes_suffix (abs.take 1023).reverse
    have hwhole : abs.take 1023 = fhSetRoot abs ++ cut.reverse := by
      rw [← List.reverse_reverse (abs.take 1023), ← hcut, List.reverse_append]
      rfl
    have hroot : fhSetRoot abs ≠ [] := by
      unfold fhSetRoot
      intro h
      exact trimSlashes_ne_nil hnil (List.reverse_eq_nil_iff.mp h)
    rw [hwhole] at htake
    rw [List.head?_append_of_ne_nil _ hroot] at htake
    exact htake
  · unfold fhSetRoot at hne ⊢
    rw [List.getLast?_reverse]
    apply trimSlashes_last
    intro h
    exact hne (by rw [h]; rfl)

/-! ## Joining, cutting and stripping -/

@[simp] theorem slashed_nil : slashed [] = [] := rfl

@[simp] theorem slashed_cons (c : Bytes) (comps : List Bytes) :
    slashed (c :: comps) = slash :: (c ++ slashed comps) := rfl

theorem slashed_snoc (comps : List Bytes) (c : Bytes) :
    slashed (comps ++ [c]) = slashed comps ++ slash :: c := by
  simp [slashed]

theorem pathOf_snoc (root : Bytes) (comps : List Bytes) (c : Bytes) :
    pathOf root (comps ++ [c]) = pathOf root comps ++ slash :: c := by
  rw [pathOf, slashed_snoc, ← List.append_assoc]
  rfl

theorem cutLastSlash_snoc
    {s c : Bytes} (hs : s ≠ []) (hc : slash ∉ c) :
    cutLastSlash (s ++ slash :: c) = s := by
  have hrev : (s ++ slash :: c).reverse.dropWhile (· ≠ slash) =
      slash :: s.reverse := by
    have hall : ∀ b ∈ c.reverse, (decide (b ≠ slash)) = true := by
      intro b hb
      simp only [List.mem_reverse] at hb
      simp only [decide_eq_true_eq]
      exact fun h => hc (h ▸ hb)
    rw [List.reverse_append, List.reverse_cons, List.append_assoc,
      List.dropWhile_append_of_pos hall]
    simp
  unfold cutLastSlash
  rw [hrev]
  cases hcase : s.reverse with
  | nil => exact absurd (List.reverse_eq_nil_iff.mp hcase) hs
  | cons b rest =>
      simp only
      rw [← hcase, List.reverse_reverse]

section Root

variable {root : Bytes}

theorem below_root (ok : Bytes → Prop) (root : Bytes) : Below ok root root :=
  ⟨[], by simp, by simp [pathOf]⟩

theorem Below.snoc
    {ok : Bytes → Prop} {dir name : Bytes} (hdir : Below ok root dir) (hname : ok name) :
    Below ok root (dir ++ slash :: name) := by
  obtain ⟨comps, hcomps, rfl⟩ := hdir
  refine ⟨comps ++ [name], ?_, (pathOf_snoc root comps name).symm⟩
  intro c hc
  rcases List.mem_append.mp hc with h | h
  · exact hcomps c h
  · rw [List.mem_singleton] at h
    exact h ▸ hname

theorem Below.cut
    {ok : Bytes → Prop} (hok : ∀ c, ok c → slash ∉ c) (hroot : root ≠ []) {dir : Bytes}
    (hdir : Below ok root dir) (hne : dir ≠ root) : Below ok root (cutLastSlash dir) := by
  obtain ⟨comps, hcomps, rfl⟩ := hdir
  cases hcase : comps.reverse with
  | nil =>
      rw [List.reverse_eq_nil_iff.mp hcase] at hne
      simp [pathOf] at hne
  | cons c rest =>
      have hsplit : comps = rest.reverse ++ [c] := by
        rw [← List.reverse_reverse comps, hcase, List.reverse_cons]
      subst hsplit
      rw [pathOf_snoc, cutLastSlash_snoc _ (hok c (hcomps c (by simp)))]
      · exact ⟨rest.reverse, fun d hd => hcomps d (by simp_all), rfl⟩
      · simp [pathOf, hroot]

/-- `join_child` adds no component but a name that is no dot and no pair of
dots. -/
theorem joinChild_below
    {ok : Bytes → Prop} (hok : ∀ c, ok c → slash ∉ c) (hroot : root ≠ [])
    {dir name child : Bytes} (hdir : Below ok root dir)
    (hname : CompOk name → name ≠ [dot] → name ≠ [dot, dot] → ok name)
    (hjoin : joinChild root dir name pathMax = some child) : Below ok root child := by
  unfold joinChild at hjoin
  split_ifs at hjoin with hbad hdot hlong hdots heq hlong' hlong''
  · exact Option.some.inj hjoin ▸ hdir
  · exact Option.some.inj hjoin ▸ hdir
  · exact Option.some.inj hjoin ▸ hdir.cut hok hroot heq
  · rw [not_or] at hbad
    exact Option.some.inj hjoin ▸ hdir.snoc (hname hbad hdot hdots)

theorem under_root (root : Bytes) : Under root root := below_root CompOk root

/-- `join_child` never leaves the export. -/
theorem joinChild_under
    (hroot : root ≠ []) {dir name child : Bytes} (hdir : Under root dir)
    (hjoin : joinChild root dir name pathMax = some child) :
    Under root child :=
  joinChild_below (fun _ hc => hc.2) hroot hdir (fun hname _ _ => hname) hjoin

theorem pathOf_last
    (hroot : RootOk root) {comps : List Bytes} (hcomps : ∀ c ∈ comps, CompOk c) :
    (pathOf root comps).getLast? ≠ some slash := by
  cases hcase : comps.reverse with
  | nil =>
      rw [List.reverse_eq_nil_iff.mp hcase]
      simpa [pathOf] using hroot.tail
  | cons c rest =>
      have hsplit : comps = rest.reverse ++ [c] := by
        rw [← List.reverse_reverse comps, hcase, List.reverse_cons]
      subst hsplit
      have hc := hcomps c (by simp)
      rw [pathOf_snoc, List.getLast?_append_of_ne_nil _ (by simp)]
      intro h
      have hmem : slash ∈ c := by
        rw [List.getLast?_cons_of_ne_nil hc.1] at h
        exact List.mem_of_getLast? h
      exact hc.2 hmem

theorem walkChild_pathOf
    (hroot : RootOk root) {comps : List Bytes} (hcomps : ∀ c ∈ comps, CompOk c)
    (name : Bytes) :
    walkChild (pathOf root comps) name = pathOf root (comps ++ [name]) := by
  unfold walkChild
  rw [if_neg (pathOf_last hroot hcomps), pathOf_snoc]

theorem walkChild_below
    {ok : Bytes → Prop} (hok : ∀ c, ok c → CompOk c) (hroot : RootOk root)
    {dir name : Bytes} (hdir : Below ok root dir) (hname : ok name) :
    Below ok root (walkChild dir name) := by
  obtain ⟨comps, hcomps, rfl⟩ := hdir
  rw [walkChild_pathOf hroot fun c hc => hok c (hcomps c hc), pathOf_snoc]
  exact Below.snoc ⟨comps, hcomps, rfl⟩ hname

theorem walkChild_under
    (hroot : RootOk root) {dir name : Bytes} (hdir : Under root dir)
    (hname : NameOk name) : Under root (walkChild dir name) :=
  walkChild_below (fun _ hc => hc) hroot hdir hname.compOk

theorem relpath_pathOf
    (hroot : root ≠ []) {comps : List Bytes} (hcomps : ∀ c ∈ comps, CompOk c) :
    relpath root (pathOf root comps) = relOf comps := by
  have hpre : root <+: pathOf root comps := List.prefix_append _ _
  unfold relpath
  rw [if_pos ⟨hroot, hpre⟩, pathOf, List.drop_left]
  cases comps with
  | nil => rfl
  | cons c comps =>
      have hc := hcomps c (by simp)
      cases c with
      | nil => exact absurd rfl hc.1
      | cons b c =>
          have hb : b ≠ slash := fun h => hc.2 (by simp [h])
          simp [relOf, hb]

/-- The path below the root determines the components' text. -/
theorem slashed_of_relOf
    {comps comps' : List Bytes} (hcomps : ∀ c ∈ comps, CompOk c)
    (hcomps' : ∀ c ∈ comps', CompOk c) (hrel : relOf comps = relOf comps') :
    slashed comps = slashed comps' := by
  cases comps with
  | nil =>
      cases comps' with
      | nil => rfl
      | cons c' rest' =>
          have hc' := (hcomps' c' (by simp)).1
          simp [relOf, hc'] at hrel
  | cons c rest =>
      cases comps' with
      | nil =>
          have hc := (hcomps c (by simp)).1
          simp [relOf, hc] at hrel
      | cons c' rest' =>
          simp only [relOf, slashed_cons, List.drop_succ_cons, List.drop_zero] at hrel
          rw [slashed_cons, slashed_cons, hrel]

theorem Under.eq_of_relpath
    (hroot : root ≠ []) {p q : Bytes} (hp : Under root p) (hq : Under root q)
    (hrel : relpath root p = relpath root q) : p = q := by
  obtain ⟨comps, hcomps, rfl⟩ := hp
  obtain ⟨comps', hcomps', rfl⟩ := hq
  rw [relpath_pathOf hroot hcomps, relpath_pathOf hroot hcomps'] at hrel
  unfold pathOf
  rw [slashed_of_relOf hcomps hcomps' hrel]

end Root

end GrandCross
