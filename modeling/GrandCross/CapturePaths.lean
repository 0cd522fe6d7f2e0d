import GrandCross.Conf
import GrandCross.HostFs

/-!
# The capture files of a session

`session_init` joins the configured directory with four file names.  Each path
has a buffer of 256 bytes and is cut without notice, so a long directory leaves
less of the names than tells them apart.
-/

namespace GrandCross.Capture

open CText

/-! ## The code -/

def pathBuf : ℕ := 256

/-- `TMP_SEP`: of Windows and DOS, and of the others. -/
def tmpSep (backslashes : Bool) : Bytes :=
  if backslashes then [backslash] else [slash]

def isTmpSep (b : Byte) : Bool := b = slash ∨ b = backslash

/-- The directory with its separator in the buffer. -/
def tmpDir (backslashes : Bool) (dir : Bytes) : Bytes :=
  let dst := (gcdsStrlcpy dir pathBuf).1
  match dst.getLast? with
  | none => dst
  | some b =>
      if isTmpSep b then dst else (gcdsStrlcat dst (tmpSep backslashes) pathBuf).1

def joinTmp (backslashes : Bool) (dir name : Bytes) : Bytes :=
  (gcdsStrlcat (tmpDir backslashes dir) name pathBuf).1

/-- stdout and stderr of `RUN`, and stored ones. -/
structure Paths where
  outf : Bytes
  errf : Bytes
  rof : Bytes
  ref : Bytes

/-- The paths that `session_init` builds. -/
def sessionInit (backslashes : Bool) (tmpdir : Bytes) : Paths where
  outf := joinTmp backslashes tmpdir (ascii "gcds_out.tmp")
  errf := joinTmp backslashes tmpdir (ascii "gcds_err.tmp")
  rof := joinTmp backslashes tmpdir (ascii "gcds_ro.tmp")
  ref := joinTmp backslashes tmpdir (ascii "gcds_re.tmp")

/-- The directory that `main` takes from the configuration. -/
def configuredTmpdir (backslashes : Bool) (file : Bytes) (maxkv : ℕ) : Bytes :=
  (confGet (confLoad file maxkv) (ascii "tmpdir")).getD
    (if backslashes then ascii "." else ascii "/tmp")

/-! ## How much is left of a name -/

def Paths.Distinct (p : Paths) : Prop := [p.outf, p.errf, p.rof, p.ref].Nodup

/-- The bytes of the directory and of the separator behind it, if it needs
one. -/
def dirSize (dir : Bytes) : ℕ :=
  if dir = [] ∨ dir.getLast?.any isTmpSep then dir.length else dir.length + 1

def captureNames : List Bytes :=
  [ascii "gcds_out.tmp", ascii "gcds_err.tmp", ascii "gcds_ro.tmp", ascii "gcds_re.tmp"]

theorem joinTmp_eq (backslashes : Bool) (dir name : Bytes) :
    joinTmp backslashes dir name =
      tmpDir backslashes dir ++ name.take (255 - (tmpDir backslashes dir).length) :=
  gcdsStrlcat_fst _ name pathBuf

theorem tmpDir_eq (backslashes : Bool) (dir : Bytes) :
    tmpDir backslashes dir =
      if dir = [] ∨ (dir.take 255).getLast?.any isTmpSep then dir.take 255
      else dir.take 255 ++ (tmpSep backslashes).take (255 - (dir.take 255).length) := by
  have hcopy : (gcdsStrlcpy dir pathBuf).1 = dir.take 255 := rfl
  have hempty : (dir.take 255).getLast? = none ↔ dir = [] := by
    simp [List.take_eq_nil_iff]
  simp only [tmpDir, hcopy, gcdsStrlcat_fst]
  cases hlast : (dir.take 255).getLast? with
  | none => rw [if_pos (Or.inl (hempty.mp hlast))]
  | some b =>
      have hne : dir ≠ [] := fun hnil => by
        rw [hempty.mpr hnil] at hlast
        cases hlast
      simp [hne, pathBuf]

/-- The directory and its separator take what the buffer has of their size. -/
theorem tmpDir_length (backslashes : Bool) (dir : Bytes) :
    (tmpDir backslashes dir).length = min 255 (dirSize dir) := by
  have hsep : (tmpSep backslashes).length = 1 := by cases backslashes <;> rfl
  rw [tmpDir_eq]
  unfold dirSize
  by_cases hlong : 255 < dir.length
  · have htake : (dir.take 255).length = 255 := by rw [List.length_take]; omega
    split_ifs
    all_goals
      simp only [List.length_append, htake, Nat.sub_self, List.take_zero, List.length_nil]
      omega
  · rw [List.take_of_length_le (by omega)]
    split_ifs
    · omega
    · rw [List.length_append, List.length_take, hsep]
      omega

/-- With seven bytes of them the names differ, with six two do not. -/
theorem names_take_nodup_iff (k : ℕ) :
    (captureNames.map (List.take k)).Nodup ↔ 7 ≤ k := by
  constructor
  · intro hnodup
    by_contra hshort
    have hlow : k ∈ List.range 7 := List.mem_range.mpr (by omega)
    have hall : ∀ k ∈ List.range 7, ¬ (captureNames.map (List.take k)).Nodup := by decide
    exact hall k hlow hnodup
  · intro hlong
    have hseven : (captureNames.map (List.take 7)).Nodup := by decide
    have hcut : captureNames.map (List.take 7) =
        (captureNames.map (List.take k)).map (List.take 7) := by
      rw [List.map_map]
      refine List.map_congr_left fun name _ => ?_
      rw [Function.comp_apply, List.take_take, min_eq_left hlong]
    rw [hcut] at hseven
    exact List.Nodup.of_map _ hseven

/-- The four paths differ exactly when the directory and its separator take
at most 248 bytes. -/
theorem capturePaths_distinct_iff (backslashes : Bool) (tmpdir : Bytes) :
    (sessionInit backslashes tmpdir).Distinct ↔ dirSize tmpdir ≤ 248 := by
  have hpaths : (sessionInit backslashes tmpdir).Distinct ↔
      (captureNames.map (joinTmp backslashes tmpdir)).Nodup := Iff.rfl
  have hjoin : captureNames.map (joinTmp backslashes tmpdir) =
      (captureNames.map
        (List.take (255 - (tmpDir backslashes tmpdir).length))).map
          (tmpDir backslashes tmpdir ++ ·) := by
    rw [List.map_map]
    exact List.map_congr_left fun name _ => joinTmp_eq backslashes tmpdir name
  rw [hpaths, hjoin, List.nodup_map_iff (List.append_right_injective _),
    names_take_nodup_iff, tmpDir_length]
  omega

instance (p : Paths) : Decidable p.Distinct :=
  inferInstanceAs (Decidable [p.outf, p.errf, p.rof, p.ref].Nodup)

/-- The defaults are short enough. -/
example : ∀ backslashes,
    (sessionInit backslashes (configuredTmpdir backslashes [] confEntMax)).Distinct := by
  decide

def longDir : Bytes := slash :: List.replicate 248 97

/-- It can be configured, and one file takes stdout and stderr. -/
theorem capturePaths_coincide :
    configuredTmpdir false (ascii "tmpdir = " ++ longDir ++ [lf]) confEntMax = longDir ∧
      (sessionInit false longDir).outf = longDir ++ ascii "/gcds_" ∧
      (sessionInit false longDir).errf = longDir ++ ascii "/gcds_" ∧
      ¬ (sessionInit false longDir).Distinct := by
  refine ⟨by decide +kernel, by decide +kernel, by decide +kernel, by decide +kernel⟩

end GrandCross.Capture
