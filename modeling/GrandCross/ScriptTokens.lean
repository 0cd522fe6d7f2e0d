import GrandCross.EnvScript
import GrandCross.ShellTokens

/-!
# What the shell reads of a script

The script of a command is the command line between the exports and a closing
parenthesis.  The exports leave the lexer where it starts, so the command line
is read as it would be alone; the parenthesis is read as an operator unless the
command line ends inside a comment.
-/

namespace GrandCross

open CText
open ShellTokens

theorem SessionEnv.names
    {max : ℕ} {env : List EnvEntry} (h : SessionEnv max env) :
    ∀ e ∈ env, envNameOk e.name = true :=
  h.forall_mem fun _ _ hname _ _ => hname

/-! ## The exports -/

def exportTokens (e : EnvEntry) : List Token :=
  [.word (ascii "export"), .word (e.name ++ ascii "=" ++ ShellWord.quoteWord e.val),
    .op (ascii ";")]

theorem isPlain_nameByte {b : Byte} (hb : (isAlphaUnderscore b || isDigit b) = true) :
    isPlain b = true := by
  have hall : ∀ b : Byte, (isAlphaUnderscore b || isDigit b) = true → isPlain b = true :=
    forall_byte (by decide +kernel)
  exact hall b hb

theorem envName_plain {name : Bytes} (hname : envNameOk name = true) :
    ∃ b rest, name = b :: rest ∧ ∀ c ∈ name, isPlain c = true := by
  cases name with
  | nil => simp [envNameOk] at hname
  | cons b rest =>
      simp only [envNameOk, Bool.and_eq_true, List.all_eq_true] at hname
      refine ⟨b, rest, rfl, ?_⟩
      intro c hc
      rcases List.mem_cons.mp hc with rfl | hc
      · exact isPlain_nameByte (by simp [hname.1])
      · exact isPlain_nameByte (hname.2 c hc)

theorem start_plain {b : Byte} (hb : isPlain b = true) (ts : List Token) :
    (State.start.behind ts).step b = ⟨ts, .word [b], [], .word⟩ := by
  simp only [isPlain, Bool.not_eq_true', Bool.or_eq_false_iff, decide_eq_false_iff_not] at hb
  simp [State.step, State.behind, State.start, State.plain, State.outer, Part.extends,
    State.push, State.flush, Part.tokens, hb]

/-- The export of an entry is three tokens, and the lexer is where it started. -/
theorem run_exportText {e : EnvEntry} (hname : envNameOk e.name = true) :
    State.start.run (exportText e) = State.start.behind (exportTokens e) := by
  obtain ⟨b, rest, heq, hplain⟩ := envName_plain hname
  have hexport : State.start.run (ascii "export ") =
      State.start.behind [.word (ascii "export")] := by decide +kernel
  have hequals : ∀ c ∈ ascii "=", isPlain c = true := by decide +kernel
  have hword : (State.start.behind [.word (ascii "export")]).run (e.name ++ ascii "=") =
      ⟨[.word (ascii "export")], .word (e.name ++ ascii "="), [], .word⟩ := by
    have hb : isPlain b = true := hplain b (by simp [heq])
    have hrest : ∀ c ∈ rest ++ ascii "=", isPlain c = true := by
      intro c hc
      rcases List.mem_append.mp hc with hc | hc
      · exact hplain c (by simp [heq, hc])
      · exact hequals c hc
    rw [heq]
    show ((State.start.behind _).step b).run (rest ++ ascii "=") = _
    rw [start_plain hb, run_plain rfl rfl rfl hrest]
    simp
  have hopen : (⟨[.word (ascii "export")], .word (e.name ++ ascii "="), [], .word⟩ :
      State).step ShellWord.quote =
        ⟨[.word (ascii "export")], .word (e.name ++ ascii "=" ++ [ShellWord.quote]), [],
          .single⟩ := rfl
  have hquoted := @run_quoted
    ⟨[.word (ascii "export")], .word (e.name ++ ascii "=" ++ [ShellWord.quote]), [], .single⟩
    _ rfl rfl rfl e.val
  have hsplit : exportText e = ascii "export " ++ ((e.name ++ ascii "=") ++
      (ShellWord.quote :: (e.val.flatMap ShellWord.quoteByte ++ [ShellWord.quote]) ++
        ascii "; ")) := by
    simp [exportText, ShellWord.quoteWord]
  rw [hsplit, run_append, hexport, run_append, hword, run_append]
  show ((State.step _ ShellWord.quote).run _).run (ascii "; ") = _
  rw [hopen, hquoted, run_semicolon rfl rfl rfl]
  simp [State.behind, State.start, exportTokens, ShellWord.quoteWord]

theorem run_exportTexts
    {env : List EnvEntry} (hnames : ∀ e ∈ env, envNameOk e.name = true) :
    State.start.run (exportTexts env) = State.start.behind (env.flatMap exportTokens) := by
  induction env with
  | nil => rfl
  | cons e env ih =>
      obtain ⟨hname, hnames⟩ := List.forall_mem_cons.mp hnames
      have hcons : exportTexts (e :: env) = exportText e ++ exportTexts env := rfl
      rw [hcons, run_append, run_exportText hname, run_behind, ih hnames]
      simp [State.behind]

/-! ## The whole script -/

/-- The command's tokens between the exports and the parentheses. -/
def scriptTokens (env : List EnvEntry) (cmd : List Token) : List Token :=
  .op (ascii "(") :: env.flatMap exportTokens ++ cmd ++ [.op (ascii ")")]

/-- The lexer is where it started when it comes to the command. -/
theorem run_scriptHead
    {env : List EnvEntry} (hnames : ∀ e ∈ env, envNameOk e.name = true) :
    State.start.run (ascii "( " ++ exportTexts env) =
      State.start.behind (.op (ascii "(") :: env.flatMap exportTokens) := by
  have hopen : State.start.run (ascii "( ") = State.start.behind [.op (ascii "(")] := by
    decide +kernel
  rw [run_append, hopen, run_behind, run_exportTexts hnames]
  simp [State.behind]

/-- The wrapper leaves a whole command as it is exactly when the command does
not end inside a comment, which would take the closing parenthesis. -/
theorem script_tokens_iff
    {size max : ℕ} {env : List EnvEntry} {cmd script : Bytes} (henv : SessionEnv max env)
    (hscript : buildScript size cmd env = some script) (hcmd : ShellTokens.Complete cmd) :
    lex script = scriptTokens env (lex cmd) ↔ ¬ EndsInComment cmd := by
  obtain ⟨hinside, hmode⟩ := hcmd
  have hhead := run_scriptHead henv.names
  have hclose : ascii " )" = [sp, closeParen] := by decide
  have hlex : lex script =
      (.op (ascii "(") :: env.flatMap exportTokens) ++
        ((State.start.run cmd).run [sp, closeParen]).finish := by
    rw [buildScript_whole hscript, scriptText, List.append_assoc, lex_append hhead, lex,
      run_append, hclose]
  rw [hlex]
  constructor
  · intro heq hcomment
    have hlost : (State.start.run cmd).run [sp, closeParen] = State.start.run cmd :=
      run_comment hinside hcomment (by decide)
    rw [hlost] at heq
    have hlen := congrArg List.length heq
    simp [scriptTokens, lex] at hlen
  · intro hcomment
    have hopen : (State.start.run cmd).mode = .fresh ∨ (State.start.run cmd).mode = .word ∨
        (State.start.run cmd).mode = .dollar := by
      unfold EndsInComment at hcomment
      cases hm : (State.start.run cmd).mode <;> simp_all
    rw [run_close hinside hopen]
    simp [scriptTokens, lex, ascii, closeParen]

/-- A command in double quotes with a number sign that starts no comment. -/
theorem script_tokens_quoted :
    lex (ascii "( export V='x'; cc \"a # b\" c#1 )") =
      scriptTokens [⟨ascii "V", ascii "x"⟩] (lex (ascii "cc \"a # b\" c#1")) := by
  have henv : SessionEnv 32 [⟨ascii "V", ascii "x"⟩] :=
    SessionEnv.set SessionEnv.empty (by decide : envNameOk (ascii "V") = true)
      (by decide) (by decide : (ascii "x").length < envvMax) (by decide)
  have hscript : buildScript 100 (ascii "cc \"a # b\" c#1") [⟨ascii "V", ascii "x"⟩] =
      some (ascii "( export V='x'; cc \"a # b\" c#1 )") := by decide +kernel
  exact (script_tokens_iff henv hscript (by decide +kernel)).mpr (by decide +kernel)

/-- The closing parenthesis of this script is part of the comment. -/
theorem script_loses_paren :
    ShellTokens.Complete (ascii "make # all") ∧
      ∃ script, buildScript scriptMax (ascii "make # all") [] = some script ∧
        lex script ≠ scriptTokens [] (lex (ascii "make # all")) := by
  refine ⟨by decide +kernel, ascii "( make # all )", by decide +kernel, by decide +kernel⟩

end GrandCross
