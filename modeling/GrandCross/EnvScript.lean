import GrandCross.SessionRun
import GrandCross.ShellWord

/-!
# The script of a command

`build_script` in `exec_psx.c` writes the session's environment and the
command line into one subshell.  Only its last two appends are checked, but a
buffer that was ever full stays full, so a script that is returned is whole.
-/

namespace GrandCross

open CText

/-! ## Tables of a session -/

/-- The tables that `ENV` commands build in a session. -/
inductive SessionEnv (max : ℕ) : List EnvEntry → Prop where
  | empty : SessionEnv max []
  | set {env env' : List EnvEntry} {name val : Bytes} (henv : SessionEnv max env)
      (hname : envNameOk name = true) (hn : name.length < envnMax)
      (hv : val.length < envvMax) (hset : envSet max env name val = some env') :
      SessionEnv max env'

/-- What holds of every entry that `ENV` accepts holds of the table. -/
theorem SessionEnv.forall_mem
    {max : ℕ} {env : List EnvEntry} (h : SessionEnv max env) {P : EnvEntry → Prop}
    (hentry : ∀ name val, envNameOk name = true → name.length < envnMax →
      val.length < envvMax → P ⟨name, val⟩) : ∀ e ∈ env, P e := by
  induction h with
  | empty => simp
  | @set env env' name val henv hname hn hv hset ih =>
      intro e he
      simp only [envSet] at hset
      split_ifs at hset with hnew hfull
      · obtain rfl := Option.some.inj hset
        rcases List.mem_append.mp he with he | he
        · exact ih e he
        · obtain rfl := List.mem_singleton.mp he
          exact hentry name val hname hn hv
      · obtain rfl := Option.some.inj hset
        rcases List.mem_or_eq_of_mem_set he with he | rfl
        · exact ih e he
        · exact hentry name val hname hn hv

theorem SessionEnv.length_le
    {max : ℕ} {env : List EnvEntry} (h : SessionEnv max env) : env.length ≤ max := by
  induction h with
  | empty => exact Nat.zero_le _
  | @set env env' name val henv hname hn hv hset ih =>
      simp only [envSet] at hset
      split_ifs at hset with hnew hfull
      · obtain rfl := Option.some.inj hset
        rw [List.length_append, List.length_singleton]
        omega
      · obtain rfl := Option.some.inj hset
        rw [List.length_set]
        exact ih

theorem SessionEnv.bounds
    {max : ℕ} {env : List EnvEntry} (h : SessionEnv max env) :
    env.length ≤ max ∧ ∀ e ∈ env, e.name.length < envnMax ∧ e.val.length < envvMax :=
  ⟨h.length_le, h.forall_mem fun _ _ _ hn hv => ⟨hn, hv⟩⟩

/-! ## The script -/

def exportText (e : EnvEntry) : Bytes :=
  ascii "export " ++ e.name ++ ascii "=" ++ ShellWord.quoteWord e.val ++ ascii "; "

def exportTexts (env : List EnvEntry) : Bytes := env.flatMap exportText

def scriptText (env : List EnvEntry) (cmdline : Bytes) : Bytes :=
  ascii "( " ++ exportTexts env ++ cmdline ++ ascii " )"

/-- An append either fits or leaves the buffer full. -/
theorem gcdsStrlcat_cases (dst src : Bytes) (size : ℕ) :
    (gcdsStrlcat dst src size).1 = dst ++ src ∨
      size ≤ (gcdsStrlcat dst src size).1.length + 1 := by
  rw [gcdsStrlcat_fst]
  by_cases hfits : src.length ≤ size - 1 - dst.length
  · exact Or.inl (by rw [List.take_of_length_le hfits])
  · right
    rw [List.length_append, List.length_take]
    omega

theorem gcdsStrlcat_length_ge (dst src : Bytes) (size : ℕ) :
    dst.length ≤ (gcdsStrlcat dst src size).1.length := by
  rw [gcdsStrlcat_fst, List.length_append]
  omega

theorem gcdsStrlcat_room
    {dst src : Bytes} {size : ℕ} (h : dst.length + src.length < size) :
    (gcdsStrlcat dst src size).1 = dst ++ src := by
  rw [gcdsStrlcat_fits h]

/-! ## Quoting -/

theorem catQuotedLoop_eq
    {size : ℕ} {dst src out : Bytes} (h : catQuotedLoop size dst src = some out) :
    out = dst ++ (src.flatMap ShellWord.quoteByte ++ [quote]) := by
  induction src generalizing dst with
  | nil =>
      simp only [catQuotedLoop] at h
      split_ifs at h
      exact (Option.some.inj h).symm
  | cons b src ih =>
      simp only [catQuotedLoop] at h
      split_ifs at h with hb hfour hone
      · have hbyte : ShellWord.quoteByte b = [quote, backslash, quote, quote] := if_pos hb
        rw [ih h, List.flatMap_cons, hbyte]
        simp
      · have hbyte : ShellWord.quoteByte b = [b] := if_neg hb
        rw [ih h, List.flatMap_cons, hbyte]
        simp

/-- What is appended is the quoted word. -/
theorem catQuoted_eq
    {size : ℕ} {dst src out : Bytes} (h : catQuoted dst size src = some out) :
    out = dst ++ ShellWord.quoteWord src := by
  unfold catQuoted at h
  split_ifs at h
  rw [catQuotedLoop_eq h, List.append_assoc]
  rfl

theorem catQuotedLoop_some
    {size : ℕ} {dst : Bytes} (src : Bytes) (h : dst.length + 4 * src.length + 1 < size) :
    ∃ out, catQuotedLoop size dst src = some out := by
  induction src generalizing dst with
  | nil =>
      simp only [catQuotedLoop, List.length_nil] at h ⊢
      rw [if_neg (by omega)]
      exact ⟨_, rfl⟩
  | cons b src ih =>
      rw [List.length_cons] at h
      simp only [catQuotedLoop]
      split_ifs with hb hfour hone
      · omega
      · apply ih
        simp only [List.length_append, List.length_cons, List.length_nil]
        omega
      · omega
      · apply ih
        simp only [List.length_append, List.length_cons, List.length_nil]
        omega

theorem catQuoted_some
    {size : ℕ} {dst : Bytes} (src : Bytes) (h : dst.length + 4 * src.length + 2 < size) :
    catQuoted dst size src = some (dst ++ ShellWord.quoteWord src) := by
  obtain ⟨out, hout⟩ : ∃ out, catQuoted dst size src = some out := by
    unfold catQuoted
    rw [if_neg (by omega)]
    apply catQuotedLoop_some
    rw [List.length_append, List.length_singleton]
    omega
  rw [hout, catQuoted_eq hout]

/-! ## Nothing is truncated -/

/-- Appends that leave room behind them were whole. -/
theorem gcdsStrlcat_whole
    {dst src : Bytes} {size : ℕ} (h : (gcdsStrlcat dst src size).1.length + 1 < size) :
    (gcdsStrlcat dst src size).1 = dst ++ src := by
  rcases gcdsStrlcat_cases dst src size with hfits | hfull
  · exact hfits
  · omega

/-- The text in front of the quoted value of an entry. -/
def exportHead (dst : Bytes) (e : EnvEntry) (size : ℕ) : Bytes :=
  (gcdsStrlcat (gcdsStrlcat (gcdsStrlcat dst (ascii "export ") size).1 e.name size).1
    (ascii "=") size).1

theorem exportHead_length_ge (dst : Bytes) (e : EnvEntry) (size : ℕ) :
    dst.length ≤ (exportHead dst e size).length :=
  ((gcdsStrlcat_length_ge dst (ascii "export ") size).trans
    (gcdsStrlcat_length_ge _ e.name size)).trans
    (gcdsStrlcat_length_ge _ (ascii "=") size)

theorem exportHead_whole
    {dst : Bytes} {e : EnvEntry} {size : ℕ} (h : (exportHead dst e size).length + 1 < size) :
    exportHead dst e size = dst ++ (ascii "export " ++ e.name ++ ascii "=") := by
  have hname := gcdsStrlcat_length_ge
    (gcdsStrlcat (gcdsStrlcat dst (ascii "export ") size).1 e.name size).1 (ascii "=") size
  have hword := gcdsStrlcat_length_ge
    (gcdsStrlcat dst (ascii "export ") size).1 e.name size
  unfold exportHead at h ⊢
  rw [gcdsStrlcat_whole h, gcdsStrlcat_whole (by omega), gcdsStrlcat_whole (by omega)]
  simp

theorem buildExports_cons (size : ℕ) (dst : Bytes) (e : EnvEntry) (env : List EnvEntry) :
    buildExports size dst (e :: env) =
      (catQuoted (exportHead dst e size) size e.val).bind fun out =>
        buildExports size (gcdsStrlcat out (ascii "; ") size).1 env := by
  rw [buildExports, exportHead]
  cases catQuoted (gcdsStrlcat (gcdsStrlcat (gcdsStrlcat dst (ascii "export ") size).1
    e.name size).1 (ascii "=") size).1 size e.val <;> rfl

theorem buildExports_length_ge
    {size : ℕ} {dst out : Bytes} {env : List EnvEntry}
    (h : buildExports size dst env = some out) : dst.length ≤ out.length := by
  induction env generalizing dst with
  | nil =>
      obtain rfl := Option.some.inj h
      exact le_refl _
  | cons e env ih =>
      rw [buildExports_cons] at h
      obtain ⟨mid, hmid, hrest⟩ := Option.bind_eq_some_iff.mp h
      have hhead := exportHead_length_ge dst e size
      have hquoted := congrArg List.length (catQuoted_eq hmid)
      have hsemi := gcdsStrlcat_length_ge mid (ascii "; ") size
      have hlast := ih hrest
      rw [List.length_append] at hquoted
      omega

/-- Exports that leave room behind them are whole. -/
theorem buildExports_whole
    {size : ℕ} {dst out : Bytes} {env : List EnvEntry}
    (h : buildExports size dst env = some out) (hroom : out.length + 1 < size) :
    out = dst ++ exportTexts env := by
  induction env generalizing dst with
  | nil =>
      obtain rfl := Option.some.inj h
      simp [exportTexts]
  | cons e env ih =>
      rw [buildExports_cons] at h
      obtain ⟨mid, hmid, hrest⟩ := Option.bind_eq_some_iff.mp h
      have hsemi := buildExports_length_ge hrest
      have hmidlen := gcdsStrlcat_length_ge mid (ascii "; ") size
      have hquoted := catQuoted_eq hmid
      have hlen := congrArg List.length hquoted
      rw [List.length_append] at hlen
      rw [ih hrest, gcdsStrlcat_whole (by omega), hquoted, exportHead_whole (by omega)]
      simp [exportTexts, exportText]

theorem buildScript_whole
    {size : ℕ} {cmdline out : Bytes} {env : List EnvEntry}
    (h : buildScript size cmdline env = some out) : out = scriptText env cmdline := by
  simp only [buildScript] at h
  split at h
  · simp at h
  · rename_i dst hdst
    split_ifs at h with hcmd hclose
    obtain rfl := Option.some.inj h
    have hclosed : (gcdsStrlcat dst cmdline size).1.length + 2 < size :=
      Nat.lt_of_not_le hclose
    have hcmdlen := gcdsStrlcat_length_ge dst cmdline size
    have hopen := buildExports_length_ge hdst
    rw [gcdsStrlcat_room hclosed, gcdsStrlcat_whole (by omega),
      buildExports_whole hdst (by omega), gcdsStrlcat_whole (by omega)]
    rfl

/-! ## The buffer is large enough -/

def exportMax : ℕ := 7 + 63 + 1 + (4 * 191 + 2) + 2

theorem exportText_length
    {e : EnvEntry} (hname : e.name.length < envnMax) (hval : e.val.length < envvMax) :
    (exportText e).length ≤ exportMax := by
  have hquote := ShellWord.quoteWord_length e.val
  have hexport : (ascii "export ").length = 7 := rfl
  have hequals : (ascii "=").length = 1 := rfl
  have hsemi : (ascii "; ").length = 2 := rfl
  unfold envnMax at hname
  unfold envvMax at hval
  simp only [exportText, List.length_append, exportMax]
  omega

theorem exportHead_room
    {dst : Bytes} {e : EnvEntry} {size : ℕ}
    (h : dst.length + 7 + e.name.length + 1 < size) :
    exportHead dst e size = dst ++ (ascii "export " ++ e.name ++ ascii "=") := by
  have hexport : (ascii "export ").length = 7 := rfl
  have hequals : (ascii "=").length = 1 := rfl
  have hword : (gcdsStrlcat dst (ascii "export ") size).1 = dst ++ ascii "export " :=
    gcdsStrlcat_room (by omega)
  have hname : (gcdsStrlcat (dst ++ ascii "export ") e.name size).1 =
      dst ++ ascii "export " ++ e.name :=
    gcdsStrlcat_room (by
      rw [List.length_append]
      omega)
  rw [exportHead, hword, hname, gcdsStrlcat_room (by
    simp only [List.length_append]
    omega)]
  simp

theorem buildExports_some
    {size : ℕ} {dst : Bytes} {env : List EnvEntry}
    (henv : ∀ e ∈ env, e.name.length < envnMax ∧ e.val.length < envvMax)
    (hroom : dst.length + env.length * exportMax < size) :
    buildExports size dst env = some (dst ++ exportTexts env) := by
  induction env generalizing dst with
  | nil => simp [buildExports, exportTexts]
  | cons e env ih =>
      obtain ⟨⟨hname, hval⟩, henv⟩ := List.forall_mem_cons.mp henv
      have htext := exportText_length hname hval
      have hmax : exportMax = 839 := rfl
      have hquote := ShellWord.quoteWord_length e.val
      unfold envnMax at hname
      unfold envvMax at hval
      rw [List.length_cons, Nat.succ_mul] at hroom
      have hhead : exportHead dst e size =
          dst ++ (ascii "export " ++ e.name ++ ascii "=") := exportHead_room (by omega)
      have hheadlen : (exportHead dst e size).length = dst.length + 8 + e.name.length := by
        have hexport : (ascii "export ").length = 7 := rfl
        have hequals : (ascii "=").length = 1 := rfl
        rw [hhead]
        simp only [List.length_append]
        omega
      have hquoted : catQuoted (exportHead dst e size) size e.val =
          some (exportHead dst e size ++ ShellWord.quoteWord e.val) :=
        catQuoted_some e.val (by omega)
      have hsemi : (gcdsStrlcat (exportHead dst e size ++ ShellWord.quoteWord e.val)
          (ascii "; ") size).1 = dst ++ exportText e := by
        have htwo : (ascii "; ").length = 2 := rfl
        rw [gcdsStrlcat_room (by
          rw [List.length_append]
          omega), hhead]
        simp [exportText]
      rw [buildExports_cons, hquoted, Option.bind_some, hsemi, ih henv (by
        rw [List.length_append]
        omega)]
      simp [exportTexts]

theorem exportTexts_length
    {env : List EnvEntry}
    (henv : ∀ e ∈ env, e.name.length < envnMax ∧ e.val.length < envvMax) :
    (exportTexts env).length ≤ env.length * exportMax := by
  induction env with
  | nil => simp [exportTexts]
  | cons e env ih =>
      obtain ⟨⟨hname, hval⟩, henv⟩ := List.forall_mem_cons.mp henv
      have hfirst := exportText_length hname hval
      have hrest := ih henv
      unfold exportTexts at hrest ⊢
      rw [List.flatMap_cons, List.length_append, List.length_cons, Nat.succ_mul]
      omega

theorem buildScript_room
    {env : List EnvEntry} {cmdline : Bytes} (hlen : env.length ≤ 32)
    (henv : ∀ e ∈ env, e.name.length < envnMax ∧ e.val.length < envvMax)
    (hcmd : cmdline.length ≤ 1023) :
    buildScript scriptMax cmdline env = some (scriptText env cmdline) := by
  have hsize : scriptMax = 32768 := rfl
  have hmax : exportMax = 839 := rfl
  have htable : env.length * exportMax ≤ 32 * exportMax := Nat.mul_le_mul_right _ hlen
  have htexts := exportTexts_length henv
  have htwo : (ascii "( ").length = 2 := rfl
  have hend : (ascii " )").length = 2 := rfl
  have hopen : (gcdsStrlcat [] (ascii "( ") scriptMax).1 = ascii "( " :=
    gcdsStrlcat_room (by simp only [List.length_nil]; omega)
  have hfront : (ascii "( " ++ exportTexts env).length ≤ 2 + env.length * exportMax := by
    rw [List.length_append]
    omega
  have hwith : (gcdsStrlcat (ascii "( " ++ exportTexts env) cmdline scriptMax).1 =
      ascii "( " ++ exportTexts env ++ cmdline := gcdsStrlcat_room (by omega)
  simp only [buildScript]
  rw [hopen, buildExports_some henv (by omega)]
  simp only
  rw [if_neg, hwith, if_neg, gcdsStrlcat_room]
  · rfl
  · simp only [List.length_append] at hfront ⊢
    omega
  · simp only [gcdsStrlcat, List.length_append] at hfront ⊢
    omega
  · simp only [gcdsStrlcat]
    omega

/-- The script of a session's table and a command line is exact, each value is
one word of it, and no buffer size lets a truncated script through. -/
theorem buildScript_exact
    {max : ℕ} {env : List EnvEntry} {cmdline : Bytes} (hmax : max ≤ 32)
    (henv : SessionEnv max env) (hcmd : cmdline.length ≤ 1023) :
    buildScript scriptMax cmdline env = some (scriptText env cmdline) ∧
      (∀ e ∈ env, ∀ rest, ShellWord.AtEnd rest →
        ShellWord.lexWord (ShellWord.quoteWord e.val ++ rest) = some (e.val, rest)) ∧
      ∀ (size : ℕ) (cmdline : Bytes) (env : List EnvEntry) (out : Bytes),
        buildScript size cmdline env = some out → out = scriptText env cmdline := by
  obtain ⟨hlen, hbounds⟩ := henv.bounds
  refine ⟨buildScript_room (hlen.trans hmax) hbounds hcmd, ?_, ?_⟩
  · intro e _ rest hrest
    exact ShellWord.lexWord_quoteWord e.val hrest
  · intro size cmdline env out hout
    exact buildScript_whole hout

/-- A value with quotes and a blank in it. -/
theorem buildScript_exact_quote :
    buildScript scriptMax (ascii "make") [⟨ascii "V", ascii "a'b c"⟩] =
        some (ascii "( export V='a'\\''b c'; make )") ∧
      ShellWord.lexWord (ShellWord.quoteWord (ascii "a'b c") ++ ascii "; make )") =
        some (ascii "a'b c", ascii "; make )") := by
  have henv : SessionEnv 32 [⟨ascii "V", ascii "a'b c"⟩] :=
    SessionEnv.set SessionEnv.empty (by decide : envNameOk (ascii "V") = true)
      (by decide) (by decide : (ascii "a'b c").length < envvMax) (by decide)
  have hcmd : (ascii "make").length ≤ 1023 := by decide
  obtain ⟨hscript, hwords, -⟩ := buildScript_exact (le_refl 32) henv hcmd
  refine ⟨hscript, hwords _ (List.mem_singleton_self _) (ascii "; make )") ?_⟩
  rintro b ⟨⟩
  rfl

end GrandCross
