import GrandCross.ExecDos
import GrandCross.Runs

/-!
# The words of a DOS command

`split_args` cuts its copy of the command line in place and keeps pointers
into it.  A pointer behind which there is a NUL already has its final string,
whatever the scan still does; at most one word, the last, is open.
-/

namespace GrandCross.Dos

open CText
open Runs

/-! ## Strings in the buffer -/

/-- The strings at these places have ended. -/
def Closed (done : Bytes) (argv : List ℕ) : Prop :=
  ∀ i ∈ argv, nul ∈ done.drop i

/-- A word begins at this place and goes on to the end. -/
structure OpenWord (done : Bytes) (i : ℕ) : Prop where
  start : i < done.length
  clean : ∀ b ∈ done.drop i, b ≠ nul ∧ isBlank b = false

theorem drop_of_closed
    {done : Bytes} {i : ℕ} (hnul : nul ∈ done.drop i) (x : Bytes) :
    (done ++ x).drop i = done.drop i ++ x := by
  apply List.drop_append_of_le_length
  by_contra hlong
  rw [List.drop_eq_nil_of_le (by omega)] at hnul
  exact List.not_mem_nil hnul

theorem Closed.append
    {done : Bytes} {argv : List ℕ} (h : Closed done argv) (x : Bytes) :
    Closed (done ++ x) argv := by
  intro i hi
  rw [drop_of_closed (h i hi)]
  exact List.mem_append_left _ (h i hi)

theorem strings_append
    {done : Bytes} {argv : List ℕ} (h : Closed done argv) (x : Bytes) :
    strings (done ++ x) argv = strings done argv := by
  apply List.map_congr_left
  intro i hi
  rw [drop_of_closed (h i hi), cstr_append_of_nul (h i hi)]

theorem OpenWord.append
    {done : Bytes} {i : ℕ} (h : OpenWord done i) {b : Byte} (hnul : b ≠ nul)
    (hblank : isBlank b = false) : OpenWord (done ++ [b]) i := by
  refine ⟨by rw [List.length_append]; exact Nat.lt_add_right _ h.start, ?_⟩
  intro c hc
  rw [List.drop_append_of_le_length h.start.le] at hc
  rcases List.mem_append.mp hc with hc | hc
  · exact h.clean c hc
  · rw [List.mem_singleton.mp hc]
    exact ⟨hnul, hblank⟩

theorem OpenWord.single
    (done : Bytes) {b : Byte} (hnul : b ≠ nul) (hblank : isBlank b = false) :
    OpenWord (done ++ [b]) done.length := by
  refine ⟨by simp, ?_⟩
  intro c hc
  rw [List.drop_left, List.mem_singleton] at hc
  rw [hc]
  exact ⟨hnul, hblank⟩

theorem OpenWord.runs
    {done : Bytes} {i : ℕ} (h : OpenWord done i) :
    runs isBlank (done.drop i) = [done.drop i] := by
  apply runs_of_clean
  · rw [Ne, List.drop_eq_nil_iff, not_le]
    exact h.start
  · intro b hb
    exact (h.clean b hb).2

theorem OpenWord.string
    {done : Bytes} {i : ℕ} (h : OpenWord done i) : cstr (done.drop i) = done.drop i :=
  cstr_eq_self fun hnul => (h.clean nul hnul).1 rfl

theorem OpenWord.close
    {done : Bytes} {i : ℕ} {argv : List ℕ} (h : OpenWord done i)
    (hclosed : Closed done argv) :
    Closed (done ++ [nul]) (argv ++ [i]) ∧
      strings (done ++ [nul]) (argv ++ [i]) = strings done argv ++ [done.drop i] := by
  have hdrop : (done ++ [nul]).drop i = done.drop i ++ [nul] :=
    List.drop_append_of_le_length h.start.le
  constructor
  · intro j hj
    rcases List.mem_append.mp hj with hj | hj
    · exact hclosed.append [nul] j hj
    · rw [List.mem_singleton.mp hj, hdrop]
      exact List.mem_append_right _ (List.mem_singleton_self nul)
  · have hlast : cstr (done.drop i ++ [nul]) = done.drop i := by
      unfold cstr
      rw [List.takeWhile_append_of_pos]
      · simp
      · intro b hb
        simpa using (h.clean b hb).1
    have hfront := strings_append hclosed [nul]
    unfold strings at hfront ⊢
    rw [List.map_append, hfront, List.map_singleton, hdrop, hlast]

/-! ## The scan -/

section Steps

variable {b : Byte} (hnul : b ≠ nul) (fuel : ℕ) (done rest : Bytes) (argv : List ℕ)

include hnul

theorem splitScan_blank (hblank : isBlank b = true) (inWord : Bool) :
    splitScan (fuel + 1) done.length inWord (done ++ b :: rest) argv =
      splitScan fuel (done ++ [nul]).length false ((done ++ [nul]) ++ rest) argv := by
  have hget : (done ++ b :: rest)[done.length]? = some b := by simp
  have hset : (done ++ b :: rest).set done.length nul = (done ++ [nul]) ++ rest := by simp
  rw [splitScan, hget]
  simp only [hnul, hblank, if_false, if_true]
  rw [hset, List.length_append, List.length_singleton]

theorem splitScan_inside (hblank : isBlank b = false) :
    splitScan (fuel + 1) done.length true (done ++ b :: rest) argv =
      splitScan fuel (done ++ [b]).length true ((done ++ [b]) ++ rest) argv := by
  have hget : (done ++ b :: rest)[done.length]? = some b := by simp
  rw [splitScan, hget]
  simp only [hnul, hblank, Bool.false_eq_true, if_false, if_true]
  rw [List.append_assoc, List.length_append, List.length_singleton]
  rfl

theorem splitScan_start (hblank : isBlank b = false) (hroom : argv.length < dosArgvMax) :
    splitScan (fuel + 1) done.length false (done ++ b :: rest) argv =
      splitScan fuel (done ++ [b]).length true ((done ++ [b]) ++ rest)
        (argv ++ [done.length]) := by
  have hget : (done ++ b :: rest)[done.length]? = some b := by simp
  rw [splitScan, hget]
  simp only [hnul, hblank, Bool.false_eq_true, if_false]
  rw [if_neg (not_le.mpr hroom), List.append_assoc, List.length_append,
    List.length_singleton]
  rfl

theorem splitScan_full (hblank : isBlank b = false) (hfull : dosArgvMax ≤ argv.length) :
    splitScan (fuel + 1) done.length false (done ++ b :: rest) argv =
      (done ++ b :: rest, argv) := by
  have hget : (done ++ b :: rest)[done.length]? = some b := by simp
  rw [splitScan, hget]
  simp only [hnul, hblank, Bool.false_eq_true, if_false]
  rw [if_pos hfull]

end Steps

/-- Between words the rest gives its own words; in a word, the open word goes
on into the rest.  At most `dosArgvMax` of them fit. -/
theorem splitScan_words
    (rest : Bytes) (hnul : nul ∉ rest) :
    (∀ done argv, Closed done argv → argv.length ≤ dosArgvMax →
      strings (splitScan rest.length done.length false (done ++ rest) argv).1
          (splitScan rest.length done.length false (done ++ rest) argv).2 =
        strings done argv ++
          (runs isBlank rest).take (dosArgvMax - argv.length)) ∧
    ∀ done argv i, Closed done argv → OpenWord done i → argv.length < dosArgvMax →
      strings (splitScan rest.length done.length true (done ++ rest) (argv ++ [i])).1
          (splitScan rest.length done.length true (done ++ rest) (argv ++ [i])).2 =
        strings done argv ++
          (runs isBlank (done.drop i ++ rest)).take (dosArgvMax - argv.length) := by
  induction rest with
  | nil =>
      constructor
      · intro done argv hclosed hroom
        simp [splitScan]
      · intro done argv i hclosed hopen hroom
        have hone : [done.drop i].take (dosArgvMax - argv.length) = [done.drop i] :=
          List.take_of_length_le (by rw [List.length_singleton]; omega)
        rw [List.append_nil, List.append_nil, hopen.runs, hone]
        simp [splitScan, strings, hopen.string]
  | cons b rest ih =>
      rw [List.mem_cons, not_or] at hnul
      have hb : b ≠ nul := Ne.symm hnul.1
      obtain ⟨ihbetween, ihword⟩ := ih hnul.2
      constructor
      · intro done argv hclosed hroom
        rw [List.length_cons]
        cases hblank : isBlank b with
        | true =>
            rw [splitScan_blank hb _ _ _ _ hblank,
              ihbetween _ _ (hclosed.append [nul]) hroom, strings_append hclosed,
              runs_cons_sep hblank]
        | false =>
            by_cases hfull : dosArgvMax ≤ argv.length
            · have hnone : dosArgvMax - argv.length = 0 := by omega
              rw [splitScan_full hb _ _ _ _ hblank hfull, hnone, List.take_zero,
                List.append_nil]
              exact strings_append hclosed (b :: rest)
            · rw [splitScan_start hb _ _ _ _ hblank (not_le.mp hfull),
                ihword _ _ _ (hclosed.append [b]) (OpenWord.single done hb hblank)
                  (not_le.mp hfull), strings_append hclosed, List.drop_left]
              rfl
      · intro done argv i hclosed hopen hroom
        rw [List.length_cons]
        cases hblank : isBlank b with
        | true =>
            -- The blank closes the word, which takes one of the places.
            obtain ⟨hclosed', hstrings⟩ := hopen.close hclosed
            have hcount : (argv ++ [i]).length = argv.length + 1 := by simp
            have hwords : runs isBlank (done.drop i ++ b :: rest) =
                done.drop i :: runs isBlank rest := by
              rw [runs_append_sep _ hblank, hopen.runs]
              rfl
            have htake : dosArgvMax - argv.length =
                dosArgvMax - (argv ++ [i]).length + 1 := by omega
            rw [splitScan_blank hb _ _ _ _ hblank,
              ihbetween _ _ hclosed' (by omega), hstrings, hwords, htake,
              List.take_succ_cons, List.append_assoc]
            rfl
        | false =>
            have hdrop : (done ++ [b]).drop i ++ rest = done.drop i ++ b :: rest := by
              rw [List.drop_append_of_le_length hopen.start.le, List.append_assoc]
              rfl
            rw [splitScan_inside hb _ _ _ _ hblank,
              ihword _ _ _ (hclosed.append [b]) (hopen.append hb hblank) hroom,
              strings_append hclosed, hdrop]

/-- The words of the line in their order, as many as fit. -/
theorem splitArgs_eq
    {cmdline : Bytes} (hsize : cmdline.length < lineMax) (hnul : nul ∉ cmdline) :
    splitArgs cmdline = (runs isBlank cmdline).take dosArgvMax := by
  have hcopy : (gcdsStrlcpy cmdline lineMax).1 = cmdline :=
    List.take_of_length_le (by omega)
  have hscan := (splitScan_words cmdline hnul).1 [] []
    (fun i hi => absurd hi List.not_mem_nil) (Nat.zero_le _)
  simp only [splitArgs, hcopy]
  exact hscan

theorem splitArgs_whole_iff
    {cmdline : Bytes} (hsize : cmdline.length < lineMax) (hnul : nul ∉ cmdline) :
    splitArgs cmdline = runs isBlank cmdline ↔
      (runs isBlank cmdline).length ≤ dosArgvMax := by
  rw [splitArgs_eq hsize hnul]
  exact List.take_eq_self_iff _

/-! ## The direct spawn -/

/-- Without operators and with a word in the line, there is one direct spawn,
of what `split_args` has made. -/
theorem mem_spawned_iff
    {sys : System} (hout : sys.openOut = true) (herr : sys.openErr = true)
    {cmdline : Bytes} (hmeta : hasShellMeta cmdline = false)
    (hword : splitArgs cmdline ≠ []) (env : Environ) (table : List EnvEntry)
    (argv : List Bytes) :
    Spawn.vp argv (setEnv env table) ∈ (runCommand sys env table cmdline).spawned ↔
      argv = splitArgs cmdline := by
  have hpos : 1 ≤ (splitArgs cmdline).length := List.length_pos_of_ne_nil hword
  have hdirect (inner : Environ) :
      (spawnDirect sys inner cmdline).2 = [.vp (splitArgs cmdline) inner] := by
    unfold spawnDirect
    rw [if_pos ⟨hmeta, hpos⟩]
  simp only [runCommand, hout, herr, Bool.true_eq_false, or_self, if_false]
  rw [hdirect, List.mem_append, List.mem_singleton]
  constructor
  · rintro (heq | hshell)
    · exact (Spawn.vp.inj heq).1
    · split_ifs at hshell <;> simp at hshell
  · rintro rfl
    exact Or.inl rfl

/-- The program gets the whole command exactly when the line has at most
`dosArgvMax` words. -/
theorem direct_spawn_whole_iff
    {cmdline : Bytes} (hsize : cmdline.length ≤ 1023) (hnul : nul ∉ cmdline)
    (hmeta : hasShellMeta cmdline = false) :
    (splitArgs cmdline = runs isBlank cmdline ↔
      (runs isBlank cmdline).length ≤ dosArgvMax) ∧
    ∀ (sys : System) (env : Environ) (table : List EnvEntry),
      sys.openOut = true → sys.openErr = true → runs isBlank cmdline ≠ [] →
      (Spawn.vp (runs isBlank cmdline) (setEnv env table) ∈
          (runCommand sys env table cmdline).spawned ↔
        (runs isBlank cmdline).length ≤ dosArgvMax) := by
  have hfits : cmdline.length < lineMax := Nat.lt_succ_of_le hsize
  have hwhole := splitArgs_whole_iff hfits hnul
  refine ⟨hwhole, ?_⟩
  intro sys env table hout herr hne
  have hword : splitArgs cmdline ≠ [] := by
    rw [splitArgs_eq hfits hnul, Ne, List.take_eq_nil_iff, not_or]
    exact ⟨by decide, hne⟩
  rw [mem_spawned_iff hout herr hmeta hword, eq_comm]
  exact hwhole

theorem direct_spawn_whole_blanks :
    splitArgs (ascii "  wcl\t-q  hello.c ") = runs isBlank (ascii "  wcl\t-q  hello.c ") :=
  (direct_spawn_whole_iff (by decide) (by decide) (by decide)).1.mpr (by decide +kernel)

def longLine : Bytes := ascii "wcl" ++ (List.replicate 32 (ascii " a.c")).flatten

/-- The last file is missing. -/
theorem direct_spawn_drops_word :
    longLine.length ≤ 1023 ∧ nul ∉ longLine ∧ hasShellMeta longLine = false ∧
      splitArgs longLine ≠ runs isBlank longLine := by
  refine ⟨by decide +kernel, by decide +kernel, by decide +kernel, ?_⟩
  rw [Ne, splitArgs_whole_iff (by decide +kernel) (by decide +kernel)]
  decide +kernel

end GrandCross.Dos
