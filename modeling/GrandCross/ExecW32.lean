import GrandCross.CmdQuotes
import GrandCross.EnvScript

/-!
# The command line of a Windows command

`exec_w32.c` sets the session's variables and runs the command line in one
string for cmd.exe.  Of the appends only the last one is checked; a string that
is returned is whole all the same.
-/

namespace GrandCross

open CText
open CmdQuotes

/-- `CMDBUF_MAX` of `exec_w32.c`, and `WCMD_MAX` of `live_w32.c`. -/
def cmdbufMax : ℕ := 16384

/-- The loop of `build_wcmd`. -/
def buildSets (size : ℕ) : Bytes → List EnvEntry → Option Bytes
  | dst, [] => some dst
  | dst, e :: env =>
      if e.val.contains quoteMark then none
      else
        let dst := (gcdsStrlcat dst (ascii "set \"") size).1
        let dst := (gcdsStrlcat dst e.name size).1
        let dst := (gcdsStrlcat dst (ascii "=") size).1
        let dst := (gcdsStrlcat dst e.val size).1
        buildSets size (gcdsStrlcat dst (ascii "\" && ") size).1 env

def buildWcmd (size : ℕ) (cmdline : Bytes) (env : List EnvEntry) : Option Bytes :=
  match buildSets size [] env with
  | none => none
  | some dst =>
      let dst := (gcdsStrlcat dst (ascii "( ") size).1
      let dst := (gcdsStrlcat dst cmdline size).1
      let closed := gcdsStrlcat dst (ascii " )") size
      if size ≤ closed.2 then none else some closed.1

/-- What `run_command` gives to `system`. -/
def runCommandText (cmdline : Bytes) (env : List EnvEntry) (outf errf : Bytes) :
    Option Bytes :=
  if outf.contains quoteMark || errf.contains quoteMark then none
  else
    match buildWcmd cmdbufMax cmdline env with
    | none => none
    | some dst =>
        let dst := (gcdsStrlcat dst (ascii " > \"") cmdbufMax).1
        let dst := (gcdsStrlcat dst outf cmdbufMax).1
        let dst := (gcdsStrlcat dst (ascii "\" 2> \"") cmdbufMax).1
        let dst := (gcdsStrlcat dst errf cmdbufMax).1
        let closed := gcdsStrlcat dst (ascii "\"") cmdbufMax
        if cmdbufMax ≤ closed.2 then none else some closed.1

/-- `run_command`, with `system` as the interpreter's answer to a string. -/
def runCommandW32 (system : Bytes → ℤ) (cmdline : Bytes) (env : List EnvEntry)
    (outf errf : Bytes) : ℤ :=
  match runCommandText cmdline env outf errf with
  | none => -1
  | some text =>
      let rc := system text
      if rc < 0 then -1 else if 255 < rc then 255 else rc

/-! ## Appends to a full buffer -/

/-- An append to what fits of a string is what fits of the longer string. -/
theorem gcdsStrlcat_take (x s : Bytes) (size : ℕ) :
    (gcdsStrlcat (x.take (size - 1)) s size).1 = (x ++ s).take (size - 1) := by
  rw [gcdsStrlcat_fst, List.take_append, List.length_take]
  by_cases hshort : x.length ≤ size - 1
  · rw [Nat.min_eq_right hshort]
  · have hnone : size - 1 - min (size - 1) x.length = 0 := by omega
    have hnone' : size - 1 - x.length = 0 := by omega
    rw [hnone, hnone']

/-- The check of the last append decides whether the whole string fits. -/
theorem gcdsStrlcat_last
    (x : Bytes) {s : Bytes} {size : ℕ} (hs : s ≠ []) :
    (if size ≤ (gcdsStrlcat (x.take (size - 1)) s size).2 then none
      else some ((x ++ s).take (size - 1))) =
      if (x ++ s).length < size then some (x ++ s) else none := by
  have hpos := List.length_pos_of_ne_nil hs
  have hlen : (gcdsStrlcat (x.take (size - 1)) s size).2 =
      min (size - 1) x.length + s.length := by
    rw [gcdsStrlcat, List.length_take]
  rw [hlen, List.length_append]
  by_cases hfits : x.length + s.length < size
  · rw [if_neg (by omega), if_pos hfits, List.take_of_length_le (by
      rw [List.length_append]
      omega)]
  · rw [if_pos (by omega), if_neg hfits]

/-! ## The string -/

def setText (e : EnvEntry) : Bytes :=
  ascii "set \"" ++ e.name ++ ascii "=" ++ e.val ++ ascii "\" && "

def wcmdText (env : List EnvEntry) (cmdline : Bytes) : Bytes :=
  env.flatMap setText ++ ascii "( " ++ cmdline ++ ascii " )"

def redirText (outf errf : Bytes) : Bytes :=
  ascii " > \"" ++ outf ++ ascii "\" 2> \"" ++ errf ++ ascii "\""

/-- Some value has a quote in it. -/
def anyQuote (env : List EnvEntry) : Bool := env.any fun e => e.val.contains quoteMark

theorem buildSets_eq (size : ℕ) (x : Bytes) (env : List EnvEntry) :
    buildSets size (x.take (size - 1)) env =
      if anyQuote env then none else some ((x ++ env.flatMap setText).take (size - 1)) := by
  induction env generalizing x with
  | nil => simp [buildSets, anyQuote]
  | cons e env ih =>
      unfold buildSets
      by_cases hquote : e.val.contains quoteMark = true
      · rw [if_pos hquote, if_pos (by simp only [anyQuote, List.any_cons, hquote, Bool.true_or])]
      · have hany : anyQuote (e :: env) = anyQuote env := by
          simp only [anyQuote, List.any_cons, Bool.not_eq_true] at hquote ⊢
          rw [hquote, Bool.false_or]
        rw [if_neg hquote, hany]
        simp only [gcdsStrlcat_take]
        rw [ih]
        simp [setText]

/-- `build_wcmd` returns the whole string or nothing, for any buffer. -/
theorem buildWcmd_eq (size : ℕ) (cmdline : Bytes) (env : List EnvEntry) :
    buildWcmd size cmdline env =
      if anyQuote env = false ∧ (wcmdText env cmdline).length < size then
        some (wcmdText env cmdline)
      else none := by
  have hstart : ([] : Bytes) = ([] : Bytes).take (size - 1) := (List.take_nil).symm
  unfold buildWcmd
  rw [hstart, buildSets_eq, List.nil_append]
  cases hany : anyQuote env with
  | true => simp
  | false =>
      simp only [gcdsStrlcat_take, Bool.false_eq_true, if_false, true_and]
      have hclose : ascii " )" ≠ [] := by decide
      exact gcdsStrlcat_last (env.flatMap setText ++ ascii "( " ++ cmdline) hclose

theorem runCommandText_eq (cmdline : Bytes) (env : List EnvEntry) (outf errf : Bytes) :
    runCommandText cmdline env outf errf =
      if anyQuote env = false ∧ quoteMark ∉ outf ∧ quoteMark ∉ errf ∧
          (wcmdText env cmdline ++ redirText outf errf).length < cmdbufMax then
        some (wcmdText env cmdline ++ redirText outf errf)
      else none := by
  unfold runCommandText
  by_cases hpaths : quoteMark ∈ outf ∨ quoteMark ∈ errf
  · rw [if_pos (by simpa using hpaths), if_neg (by tauto)]
  · obtain ⟨hout, herr⟩ := not_or.mp hpaths
    rw [if_neg (by simpa using hpaths), buildWcmd_eq]
    by_cases hbuilt : anyQuote env = false ∧ (wcmdText env cmdline).length < cmdbufMax
    · have hwhole : wcmdText env cmdline = (wcmdText env cmdline).take (cmdbufMax - 1) :=
        (List.take_of_length_le (by omega)).symm
      rw [if_pos hbuilt]
      dsimp only
      rw [hwhole]
      simp only [gcdsStrlcat_take]
      have hclose : ascii "\"" ≠ [] := by decide
      rw [← hwhole, gcdsStrlcat_last _ hclose]
      have hassoc : wcmdText env cmdline ++ ascii " > \"" ++ outf ++ ascii "\" 2> \"" ++
          errf ++ ascii "\"" = wcmdText env cmdline ++ redirText outf errf := by
        simp [redirText]
      rw [hassoc]
      simp only [hbuilt.1, hout, herr, not_false_eq_true, true_and]
    · rw [if_neg hbuilt, if_neg]
      rintro ⟨hany, -, -, hlen⟩
      rw [List.length_append] at hlen
      exact hbuilt ⟨hany, by omega⟩

/-! ## A session's table fits -/

theorem setText_length
    {e : EnvEntry} (hname : e.name.length < envnMax) (hval : e.val.length < envvMax) :
    (setText e).length ≤ 265 := by
  have hset : (ascii "set \"").length = 5 := rfl
  have hequals : (ascii "=").length = 1 := rfl
  have hand : (ascii "\" && ").length = 5 := rfl
  unfold envnMax at hname
  unfold envvMax at hval
  simp only [setText, List.length_append]
  omega

theorem setTexts_length
    {env : List EnvEntry}
    (henv : ∀ e ∈ env, e.name.length < envnMax ∧ e.val.length < envvMax) :
    (env.flatMap setText).length ≤ env.length * 265 := by
  induction env with
  | nil => simp
  | cons e env ih =>
      obtain ⟨⟨hname, hval⟩, henv⟩ := List.forall_mem_cons.mp henv
      have hfirst := setText_length hname hval
      have hrest := ih henv
      rw [List.flatMap_cons, List.length_append, List.length_cons, Nat.succ_mul]
      omega

theorem wcmd_fits
    {size : ℕ} {env : List EnvEntry} {cmdline outf errf : Bytes} (hsize : size ≤ 32)
    (henv : SessionEnv size env) (hcmd : cmdline.length ≤ 1023) (hout : outf.length ≤ 255)
    (herr : errf.length ≤ 255) :
    (wcmdText env cmdline ++ redirText outf errf).length < cmdbufMax := by
  obtain ⟨hlen, hbounds⟩ := henv.bounds
  have hsets := setTexts_length hbounds
  have htable : env.length * 265 ≤ 32 * 265 := Nat.mul_le_mul_right _ (hlen.trans hsize)
  have hopen : (ascii "( ").length = 2 := rfl
  have hclose : (ascii " )").length = 2 := rfl
  have hto : (ascii " > \"").length = 4 := rfl
  have hand : (ascii "\" 2> \"").length = 6 := rfl
  have hend : (ascii "\"").length = 1 := rfl
  unfold cmdbufMax
  simp only [wcmdText, redirText, List.length_append]
  omega

/-! ## What the interpreter reads -/

theorem envName_noQuote {name : Bytes} (h : envNameOk name = true) : quoteMark ∉ name := by
  intro hmem
  cases name with
  | nil => exact absurd hmem List.not_mem_nil
  | cons b s =>
      simp only [envNameOk, Bool.and_eq_true, List.all_eq_true] at h
      rcases List.mem_cons.mp hmem with hb | hs
      · rw [← hb] at h
        exact absurd h.1 (by decide)
      · exact absurd (h.2 quoteMark hs) (by decide)

/-- A variable is set by one word in quotes. -/
theorem skeleton_setText
    {e : EnvEntry} (hname : quoteMark ∉ e.name) (hval : quoteMark ∉ e.val) :
    Mode.plain.after (setText e) = .plain ∧
      skeleton .plain (setText e) = ascii "set  && " := by
  have hsplit : setText e =
      ascii "set " ++
        (quoteMark :: ((e.name ++ ascii "=" ++ e.val) ++ [quoteMark]) ++ ascii " && ") := by
    have hset : ascii "set \"" = ascii "set " ++ [quoteMark] := rfl
    have hand : ascii "\" && " = quoteMark :: ascii " && " := rfl
    rw [setText, hset, hand]
    simp
  have hword : quoteMark ∉ e.name ++ ascii "=" ++ e.val := by
    simp only [List.mem_append, not_or]
    exact ⟨⟨hname, by decide⟩, hval⟩
  have hset : Mode.plain.after (ascii "set ") = .plain ∧
      skeleton .plain (ascii "set ") = ascii "set " := plain_text (by decide +kernel)
  have hand : Mode.plain.after (ascii " && ") = .plain ∧
      skeleton .plain (ascii " && ") = ascii " && " := plain_text (by decide +kernel)
  obtain ⟨hafter, hskel⟩ := quoted_string hword
  rw [hsplit]
  constructor
  · rw [Mode.after_append, Mode.after_append, hset.1, hafter, hand.1]
  · rw [skeleton_append, skeleton_append, hset.1, hafter, hset.2, hskel, hand.2]
    rfl

theorem skeleton_setTexts
    {env : List EnvEntry} (henv : ∀ e ∈ env, quoteMark ∉ e.name ∧ quoteMark ∉ e.val) :
    Mode.plain.after (env.flatMap setText) = .plain ∧
      skeleton .plain (env.flatMap setText) = env.flatMap fun _ => ascii "set  && " := by
  induction env with
  | nil => exact ⟨rfl, rfl⟩
  | cons e env ih =>
      obtain ⟨⟨hname, hval⟩, henv⟩ := List.forall_mem_cons.mp henv
      obtain ⟨hafter, hskel⟩ := skeleton_setText hname hval
      obtain ⟨hafters, hskels⟩ := ih henv
      constructor
      · rw [List.flatMap_cons, Mode.after_append, hafter, hafters]
      · rw [List.flatMap_cons, skeleton_append, hafter, hskel, hskels]
        rfl

/-- Behind a command line that ends outside of quotes the group is closed and
both streams are redirected; behind an open quote the paths are read as more of
the command. -/
theorem skeleton_behind
    {outf errf : Bytes} (hout : quoteMark ∉ outf) (herr : quoteMark ∉ errf) :
    skeleton .plain (ascii " )" ++ redirText outf errf) = ascii " ) >  2> " ∧
      skeleton .escaped (ascii " )" ++ redirText outf errf) = ascii ") >  2> " ∧
      (caret ∉ outf → caret ∉ errf →
        skeleton .quoted (ascii " )" ++ redirText outf errf) = outf ++ errf) := by
  have hsplit : ascii " )" ++ redirText outf errf =
      ascii " ) > " ++ (quoteMark :: (outf ++ [quoteMark]) ++
        (ascii " 2> " ++ quoteMark :: (errf ++ [quoteMark]))) := by
    have hto : ascii " > \"" = ascii " > " ++ [quoteMark] := rfl
    have hand : ascii "\" 2> \"" = quoteMark :: (ascii " 2> " ++ [quoteMark]) := rfl
    have hend : ascii "\"" = [quoteMark] := rfl
    have hfront : ascii " ) > " = ascii " )" ++ ascii " > " := rfl
    rw [redirText, hto, hand, hend, hfront]
    simp
  have hto : Mode.plain.after (ascii " ) > ") = .plain ∧
      skeleton .plain (ascii " ) > ") = ascii " ) > " := plain_text (by decide +kernel)
  have hand : Mode.plain.after (ascii " 2> ") = .plain ∧
      skeleton .plain (ascii " 2> ") = ascii " 2> " := plain_text (by decide +kernel)
  obtain ⟨houtAfter, houtSkel⟩ := quoted_string hout
  obtain ⟨herrAfter, herrSkel⟩ := quoted_string herr
  have hrest : skeleton .plain (quoteMark :: (outf ++ [quoteMark]) ++
      (ascii " 2> " ++ quoteMark :: (errf ++ [quoteMark]))) = ascii " 2> " := by
    rw [skeleton_append, houtAfter, houtSkel, skeleton_append, hand.1, hand.2, herrSkel]
    rfl
  rw [hsplit]
  refine ⟨?_, ?_, ?_⟩
  · rw [skeleton_append, hto.1, hto.2, hrest]
    rfl
  · have hafter : Mode.escaped.after (ascii " ) > ") = .plain := by decide
    have hskel : skeleton .escaped (ascii " ) > ") = ascii ") > " := by decide
    rw [skeleton_append, hafter, hskel, hrest]
    rfl
  · intro hcout hcerr
    -- The quote in front of each path closes, and the one behind it opens.
    have hplain : ∀ s : Bytes, quoteMark ∉ s → caret ∉ s →
        Mode.quoted.after (quoteMark :: (s ++ [quoteMark])) = .quoted ∧
          skeleton .quoted (quoteMark :: (s ++ [quoteMark])) = s := by
      intro s hquote hcaret
      have hs : ∀ b ∈ s, b ≠ quoteMark ∧ b ≠ caret := fun b hb =>
        ⟨fun h => hquote (h ▸ hb), fun h => hcaret (h ▸ hb)⟩
      obtain ⟨hafter, hskel⟩ := plain_text hs
      have hclose : Mode.quoted.next quoteMark = .plain := rfl
      have hopen : Mode.plain.after [quoteMark] = .quoted := rfl
      have hmark : skeleton .plain [quoteMark] = [] := rfl
      constructor
      · rw [Mode.after_cons, hclose, Mode.after_append, hafter, hopen]
      · rw [skeleton, hclose, if_neg (by decide), skeleton_append, hskel, hafter, hmark,
          List.append_nil]
    obtain ⟨houtAfter', houtSkel'⟩ := hplain outf hout hcout
    obtain ⟨-, herrSkel'⟩ := hplain errf herr hcerr
    have hnoTo : quoteMark ∉ ascii " ) > " := by decide
    have hnoAnd : quoteMark ∉ ascii " 2> " := by decide
    rw [skeleton_append, after_quoted hnoTo, skeleton_quoted hnoTo, skeleton_append,
      houtAfter', houtSkel', skeleton_append, after_quoted hnoAnd, skeleton_quoted hnoAnd,
      herrSkel', List.nil_append, List.nil_append]

/-- The syntax of the string behind the command line, by how the command line
ends. -/
def behind (outf errf : Bytes) : Mode → Bytes
  | .plain => ascii " ) >  2> "
  | .escaped => ascii ") >  2> "
  | .quoted => outf ++ errf

/-- `run_command` runs the whole string or nothing, and nothing exactly where a
quote is in a value or a path; in the string no byte of a name, a value or a
path is syntax, as long as the command line closes its quotes. -/
theorem run_command_w32_exact
    {size : ℕ} {env : List EnvEntry} {cmdline outf errf : Bytes} (hsize : size ≤ 32)
    (henv : SessionEnv size env) (hcmd : cmdline.length ≤ 1023) (hout : outf.length ≤ 255)
    (herr : errf.length ≤ 255) :
    (∀ system : Bytes → ℤ, runCommandW32 system cmdline env outf errf =
      if anyQuote env = true ∨ quoteMark ∈ outf ∨ quoteMark ∈ errf then -1
      else max (-1) (min 255 (system (wcmdText env cmdline ++ redirText outf errf)))) ∧
    (anyQuote env = false → quoteMark ∉ outf → quoteMark ∉ errf →
      (Mode.plain.after cmdline = .quoted → caret ∉ outf ∧ caret ∉ errf) →
      skeleton .plain (wcmdText env cmdline ++ redirText outf errf) =
        (env.flatMap fun _ => ascii "set  && ") ++ ascii "( " ++ skeleton .plain cmdline ++
          behind outf errf (Mode.plain.after cmdline)) := by
  have hfits := wcmd_fits hsize henv hcmd hout herr
  constructor
  · intro system
    unfold runCommandW32
    rw [runCommandText_eq]
    by_cases hquote : anyQuote env = true ∨ quoteMark ∈ outf ∨ quoteMark ∈ errf
    · rw [if_pos hquote, if_neg]
      simp only [not_and]
      intro hany hnout hnerr
      simp [hany, hnout, hnerr] at hquote
    · simp only [not_or, Bool.not_eq_true] at hquote
      have hnone : ¬ (anyQuote env = true ∨ quoteMark ∈ outf ∨ quoteMark ∈ errf) := by
        simp [hquote]
      rw [if_neg hnone, if_pos ⟨hquote.1, hquote.2.1, hquote.2.2, hfits⟩]
      dsimp only
      generalize system (wcmdText env cmdline ++ redirText outf errf) = rc
      split_ifs <;> omega
  · intro hany hnout hnerr hcaret
    have hnames := henv.forall_mem (P := fun e => quoteMark ∉ e.name)
      fun name val hname _ _ => envName_noQuote hname
    have hentries : ∀ e ∈ env, quoteMark ∉ e.name ∧ quoteMark ∉ e.val := by
      intro e he
      refine ⟨hnames e he, fun hmem => ?_⟩
      have hall : anyQuote env = true := List.any_eq_true.mpr ⟨e, he, by simpa using hmem⟩
      rw [hany] at hall
      exact absurd hall (by decide)
    obtain ⟨hafter, hskel⟩ := skeleton_setTexts hentries
    have hopen : Mode.plain.after (ascii "( ") = .plain ∧
        skeleton .plain (ascii "( ") = ascii "( " := plain_text (by decide +kernel)
    have hbehind : skeleton (Mode.plain.after cmdline) (ascii " )" ++ redirText outf errf) =
        behind outf errf (Mode.plain.after cmdline) := by
      obtain ⟨hplain, hescaped, hquoted⟩ := skeleton_behind hnout hnerr
      cases hmode : Mode.plain.after cmdline with
      | plain => exact hplain
      | escaped => exact hescaped
      | quoted => exact hquoted (hcaret hmode).1 (hcaret hmode).2
    have hassoc : wcmdText env cmdline ++ redirText outf errf =
        env.flatMap setText ++
          (ascii "( " ++ (cmdline ++ (ascii " )" ++ redirText outf errf))) := by
      simp [wcmdText]
    rw [hassoc, skeleton_append, hafter, hskel, skeleton_append, hopen.1, hopen.2,
      skeleton_append, hbehind]
    simp

/-- An ampersand in a value, and one in the command line. -/
theorem run_command_w32_exact_ampersand :
    skeleton .plain (wcmdText [⟨ascii "V", ascii "a & b"⟩] (ascii "dir & echo \"&\"") ++
      redirText (ascii "o") (ascii "e")) =
      ascii "set  && ( dir & echo  ) >  2> " := by
  have henv : SessionEnv 32 [⟨ascii "V", ascii "a & b"⟩] :=
    SessionEnv.set SessionEnv.empty (by decide : envNameOk (ascii "V") = true)
      (by decide) (by decide : (ascii "a & b").length < envvMax) (by decide)
  have hcmd : (ascii "dir & echo \"&\"").length ≤ 1023 := by decide
  exact (run_command_w32_exact (le_refl 32) henv hcmd (by decide) (by decide)).2
    (by decide) (by decide) (by decide) (by decide)

end GrandCross
