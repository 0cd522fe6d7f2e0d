import GrandCross.Fidelity
import GrandCross.PutSync
import GrandCross.ReplyGrammar
import GrandCross.RuniFrames

/-!
# Replies in lockstep

A client that waits for each reply before it sends the next command.  Every
command then gets exactly one reply of its own shape, so the bytes of a
session come apart into its replies in one way only.
-/

namespace GrandCross

open CText
open Transfer
open Codes

/-! ## The answer to one line -/

/-- What a command line leads to: a reply and the next command, the end of
the session, an upload, or a running command. -/
inductive Outcome (cfg : Cfg) (base : Bytes) (verb : Verb) (arg : Option Bytes)
    (d : Daemon) : Prop where
  | said (w : Bytes) (env : List EnvEntry) (hw : w ∈ replyWords verb.shape)
      (hsent : d.chan.sent = base ++ w) (hsteady : d.chan.Steady)
      (hctl : d.ctl = .session true env [])
  | ended (w : Bytes) (hends : verb = .quit ∨ verb = .runa ∧ arg.isSome)
      (hw : w ∈ replyWords verb.shape) (hsent : d.chan.sent = base ++ w)
      (hover : d.ctl.inSession = false)
  | uploads (env : List EnvEntry) (path : Bytes) (hverb : verb = .put)
      (hsent : d.chan.sent = base ++ (ascii "OK" ++ [lf])) (hsteady : d.chan.Steady)
      (hctl : d.ctl = .putHdr env ⟨path, 0⟩ [])
  | runs (l : Live) (child : Child)
      (hverb : verb = .run ∧ l.mode = .run ∨ verb = .runi ∧ l.mode = .runi)
      (hctl : d.ctl = .live l) (h : Pumping cfg base child d l)

section

variable {cfg : Cfg} {d : Daemon} {o : Answers} {env : List EnvEntry}

theorem outcome_reply
    (hd : d.chan.Steady) {verb : Verb} {arg : Option Bytes} {msg : Bytes}
    (hmsg : msg ++ [lf] ∈ replyWords verb.shape) :
    Outcome cfg d.chan.sent verb arg (reply cfg o d env msg) := by
  obtain ⟨c, hsent, hsteady, _, hreply⟩ := reply_steady cfg o hd env msg
  rw [hreply]
  exact .said _ env hmsg hsent hsteady rfl

theorem outcome_err
    (hd : d.chan.Steady) (verb : Verb) (arg : Option Bytes) (text : Bytes)
    (hclean : LineClean text) {msg : Bytes} (hmsg : msg = ascii "ERR " ++ text) :
    Outcome cfg d.chan.sent verb arg (reply cfg o d env msg) := by
  apply outcome_reply hd
  rw [hmsg]
  exact mem_errLines verb.shape hclean

theorem outcome_end
    (hd : d.chan.Steady) {verb : Verb} {arg : Option Bytes} {msg : Bytes}
    (hends : verb = .quit ∨ verb = .runa ∧ arg.isSome)
    (hmsg : msg ++ [lf] ∈ replyWords verb.shape) :
    Outcome cfg d.chan.sent verb arg
      (sessionReturn cfg o { d with chan := (lioPutLine d.chan msg).2 }) := by
  refine .ended _ hends hmsg ?_ (sessionReturn_not_inSession cfg o _)
  rw [sessionReturn_chan]
  exact (wrote_lioPutLine hd msg).sent

theorem outcome_liveExec
    (hd : d.chan.Steady) {verb : Verb} {mode : LiveMode} (cmd : Bytes)
    (hverb : verb = .run ∧ mode = .run ∨ verb = .runi ∧ mode = .runi)
    (arg : Option Bytes) :
    Outcome cfg d.chan.sent verb arg (liveExec cfg o d mode env cmd) := by
  have hmode : mode ≠ .job := by
    rcases hverb with ⟨_, rfl⟩ | ⟨_, rfl⟩ <;> decide
  unfold liveExec
  cases buildScript scriptMax cmd env with
  | none => exact outcome_err hd verb arg (ascii "500 exec failed") (by decide) (by decide)
  | some script =>
      cases o.child with
      | none =>
          exact outcome_err hd verb arg (ascii "500 exec failed") (by decide) (by decide)
      | some child =>
          exact .runs _ child hverb rfl ((pumping_start hd hmode).withCtl _)

theorem outcome_doRun
    (hcv : cfg.cv = none) (hd : d.chan.Steady) (arg : Option Bytes) :
    Outcome cfg d.chan.sent .run arg (doRun cfg o d env arg) := by
  cases arg with
  | none => exact outcome_err hd _ _ (ascii "400 missing command") (by decide) (by decide)
  | some cmd =>
      have hd' : (acceptRun d .run cmd env).chan.Steady := hd
      unfold doRun
      dsimp only
      split_ifs
      · exact outcome_liveExec hd' cmd (.inl ⟨rfl, rfl⟩) _
      · cases hchild : o.child with
        | none =>
            simp only [runBlocking, hchild]
            exact outcome_err
              (d := unlink cfg (unlink cfg (acceptRun d .run cmd env) cfg.outf) cfg.errf)
              hd' _ _ (ascii "500 exec failed") (by decide) (by decide)
        | some child =>
            obtain ⟨fs, hsent, hctl, hsteady, _⟩ := runBlocking_sent hcv hchild hd' env
            exact .said _ env (encodeStream_mem fs _) hsent hsteady hctl

theorem outcome_doResult
    (hcv : cfg.cv = none) (hd : d.chan.Steady) (arg : Option Bytes) :
    Outcome cfg d.chan.sent .result arg (doResult cfg o d env arg) := by
  unfold doResult
  split_ifs
  · exact outcome_err hd _ _ (ascii "404 no such result") (by decide) (by decide)
  · have hd' : ((d.note (.fopen cfg.rof)).note (.fopen cfg.ref)).chan.Steady := hd
    obtain ⟨fs, c, hsent, hc, hreply, _⟩ := replyCapture_plain hcv o hd'
      ((d.note (.fopen cfg.rof)).note (.fopen cfg.ref)) env cfg.rof cfg.ref
      ((d.note (.fopen cfg.rof)).note (.fopen cfg.ref)).res.code
    dsimp only
    rw [hreply]
    exact .said _ env (encodeStream_mem fs _) hsent hc rfl

theorem outcome_doRuni
    (hd : d.chan.Steady) (arg : Option Bytes) :
    Outcome cfg d.chan.sent .runi arg (doRuni cfg o d env arg) := by
  unfold doRuni
  split_ifs
  · cases arg with
    | none => exact outcome_err hd _ _ (ascii "400 missing command") (by decide) (by decide)
    | some cmd =>
        have hd' : (acceptRun d .runi cmd env).chan.Steady := hd
        exact outcome_liveExec hd' cmd (.inr ⟨rfl, rfl⟩) _
  · exact outcome_err hd _ _ (ascii "501 not supported") (by decide) (by decide)

theorem outcome_doPut
    (hd : d.chan.Steady) (arg : Option Bytes) :
    Outcome cfg d.chan.sent .put arg (doPut cfg o d env arg) := by
  have hmissing : Outcome cfg d.chan.sent .put arg
      (reply cfg o d env (ascii "ERR 400 missing path")) :=
    outcome_err hd _ _ (ascii "400 missing path") (by decide) (by decide)
  unfold doPut
  split
  · exact hmissing
  · exact hmissing
  · next b p =>
      split_ifs
      · have hline := wrote_lioPutLine hd (ascii "OK")
        have hok : (lioPutLine (openTrunc cfg d true (b :: p)).chan (ascii "OK")).1 =
            true := hline.ok
        dsimp only
        rw [if_pos hok]
        exact .uploads env (b :: p) rfl hline.sent hline.steady rfl
      · exact outcome_err hd _ _ (ascii "404 cannot create") (by decide) (by decide)

theorem outcome_doGet
    (hd : d.chan.Steady) (arg : Option Bytes) :
    Outcome cfg d.chan.sent .get arg (doGet cfg o d env arg) := by
  have hmissing : Outcome cfg d.chan.sent .get arg
      (reply cfg o d env (ascii "ERR 400 missing path")) :=
    outcome_err hd _ _ (ascii "400 missing path") (by decide) (by decide)
  unfold doGet
  split
  · exact hmissing
  · exact hmissing
  · next b p =>
      split
      · exact outcome_err hd _ _ (ascii "404 no such file") (by decide) (by decide)
      · next content _ =>
          have hline := wrote_lioPutLine hd (ascii "OK")
          have hok : (lioPutLine (d.note (.fopen (b :: p))).chan (ascii "OK")).1 =
              true := hline.ok
          dsimp only
          rw [if_pos hok]
          have hpieces := freads_chanChunk cfg
            (lioPutLine d.chan (ascii "OK")).2.kind o.fread content
          obtain ⟨hsend, hsent, hsteady, _⟩ :=
            (sendData_emits cfg _ hpieces).on _ hline.steady rfl
          have hsend' : (sendData cfg
              (freads (chanChunk (lioPutLine (d.note (.fopen (b :: p))).chan
                (ascii "OK")).2) o.fread content)
              (lioPutLine (d.note (.fopen (b :: p))).chan (ascii "OK")).2).1 = true :=
            hsend
          rw [if_pos hsend']
          obtain ⟨c, hc, hcsteady, _, hreply⟩ := reply_steady cfg o
            (d := { d.note (.fopen (b :: p)) with
              chan := (sendData cfg
                (freads (chanChunk (lioPutLine d.chan (ascii "OK")).2) o.fread content)
                (lioPutLine d.chan (ascii "OK")).2).2 }) hsteady env (ascii "D 0")
          refine .said _ env (encodeData_mem fun piece hpiece => (hpieces piece hpiece).1)
            ?_ ?_ ?_
          · refine (congrArg (fun d => d.chan.sent) hreply).trans ?_
            dsimp only
            rw [hc]
            refine (congrArg (· ++ _) (hsent.trans (congrArg (· ++ _) hline.sent))).trans ?_
            simp only [List.append_assoc]
          · exact (congrArg (fun d => d.chan.Steady) hreply).mpr hcsteady
          · exact congrArg Daemon.ctl hreply

theorem outcome_doEnv
    (hd : d.chan.Steady) (arg : Option Bytes) :
    Outcome cfg d.chan.sent .env arg (doEnv cfg o d env arg) := by
  unfold doEnv
  split
  · split_ifs
    · split
      · exact outcome_err hd _ _ (ascii "431 too many env") (by decide) (by decide)
      · exact outcome_reply hd (mem_okLines ⟨List.not_mem_nil, List.not_mem_nil⟩)
    · exact outcome_err hd _ _ (ascii "431 env too long") (by decide) (by decide)
  · exact outcome_err hd _ _ (ascii "400 bad env") (by decide) (by decide)

theorem outcome_doCwd
    (hd : d.chan.Steady) (arg : Option Bytes) :
    Outcome cfg d.chan.sent .cwd arg (doCwd cfg o d env arg) := by
  unfold doCwd
  split
  · next path dir _ =>
      have hd' : ({ d with cwd := dir, log := d.log ++ [.chdir path dir] } : Daemon).chan.Steady :=
        hd
      exact outcome_reply hd' (mem_okLines ⟨List.not_mem_nil, List.not_mem_nil⟩)
  · exact outcome_err hd _ _ (ascii "404 no such directory") (by decide) (by decide)

theorem statLine_mem (r : Res) : statLine r ++ [lf] ∈ replyWords .line := by
  unfold statLine
  split_ifs
  · have hclean : LineClean (ascii " result " ++ decimal r.jobid) :=
      LineClean.append (by decide) (lineClean_decimal _)
    have hmem := mem_okLines hclean
    rw [← List.append_assoc] at hmem
    exact hmem
  · exact mem_okLines (show LineClean (ascii " idle") by decide)

theorem outcome_doRuna
    (hd : d.chan.Steady) (arg : Option Bytes) :
    Outcome cfg d.chan.sent .runa arg (doRuna cfg o d env arg) := by
  cases arg with
  | none => exact outcome_err hd _ _ (ascii "400 missing command") (by decide) (by decide)
  | some cmd =>
      have hd' : (acceptRuna d cmd env).chan.Steady := hd
      have hclean : LineClean (sp :: decimal (nextJobid d.lastJob)) :=
        lineClean_cons (by decide) (by decide) (lineClean_decimal _)
      exact outcome_end hd' (.inr ⟨rfl, rfl⟩) (mem_okLines hclean)

/-- Every command line has one of the four outcomes. -/
theorem outcome_sessionCmd
    (hcv : cfg.cv = none) (hd : d.chan.Steady) (verb : Verb) (arg : Option Bytes) :
    Outcome cfg d.chan.sent verb arg (sessionCmd cfg o d env verb arg) := by
  cases verb with
  | ping => exact outcome_reply hd (mem_okLines ⟨List.not_mem_nil, List.not_mem_nil⟩)
  | stat => exact outcome_reply hd (statLine_mem d.res)
  | cwd => exact outcome_doCwd hd arg
  | env => exact outcome_doEnv hd arg
  | run => exact outcome_doRun hcv hd arg
  | runa => exact outcome_doRuna hd arg
  | result => exact outcome_doResult hcv hd arg
  | runi => exact outcome_doRuni hd arg
  | put => exact outcome_doPut hd arg
  | get => exact outcome_doGet hd arg
  | quit => exact outcome_end hd (.inl rfl) (mem_okLines ⟨List.not_mem_nil, List.not_mem_nil⟩)
  | unknown =>
      exact outcome_err hd _ _ (ascii "500 unknown command") (by decide) (by decide)

end

/-! ## Exchanges -/

/-- A command line with all that the client and the operating system do until
the reply is complete. -/
structure Exchange where
  line : Bytes
  answers : Answers
  frames : List (Bytes × Answers)
  last : Answers
  turns : List Turn

def Exchange.verb (x : Exchange) : Verb := verbOf (cutAt sp x.line).1

def Exchange.arg (x : Exchange) : Option Bytes := (cutAt sp x.line).2

def Exchange.mode (x : Exchange) : LiveMode := if x.verb = .runi then .runi else .run

/-- A line that fits, an upload in well-formed frames that is neither capped
nor fails, and turns with well-formed client frames. -/
structure Exchange.Ok (cfg : Cfg) (x : Exchange) : Prop where
  clean : LineClean x.line
  nul : nul ∉ x.line
  fits : x.line.length < lineMax
  frames : ∀ f ∈ x.frames, 1 ≤ f.1.length ∧ f.1.length ≤ cfg.build.frameMax
  accepted : putRefusal cfg 0 x.frames = none
  closes : x.last.fclose = true
  turns : ∀ t ∈ x.turns, t.Ok cfg x.mode

def Exchange.Ends (x : Exchange) : Prop := x.verb = .quit ∨ x.verb = .runa ∧ x.arg.isSome

def exchange (cfg : Cfg) (d : Daemon) (x : Exchange) : Daemon :=
  let d := feed cfg x.answers d (x.line ++ [lf])
  if d.ctl.inPut then (putOver cfg d (putInputs x.frames x.last)).1
  else if d.ctl.inSession then playTurns cfg d x.turns
  else d

def Ctl.executing (c : Ctl) : Bool := c.inSession && c.supervises

structure Exchanged (cfg : Cfg) (d : Daemon) (x : Exchange) (w : Bytes) : Prop where
  reply : w ∈ replyWords x.verb.shape
  sent : (exchange cfg d x).chan.sent = d.chan.sent ++ w
  next : (∃ env, (exchange cfg d x).ctl = .session true env []) ∧
      (exchange cfg d x).chan.Steady ∨
    x.Ends ∧ (exchange cfg d x).ctl.inSession = false

section

variable {cfg : Cfg} {d : Daemon} {env : List EnvEntry} {x : Exchange}

theorem feed_exchange
    (hcv : cfg.cv = none) (hctl : d.ctl = .session true env [])
    (hd : d.chan.Steady) (hx : x.Ok cfg) :
    Outcome cfg d.chan.sent x.verb x.arg (feed cfg x.answers d (x.line ++ [lf])) := by
  have htext : sessionText cfg x.line = x.line := by
    simp only [sessionText, hcv]
    exact cstr_eq_self hx.nul
  rw [feed_session_line cfg x.answers hctl hx.clean hx.fits]
  simp only [sessionLine, htext, if_true]
  have hd' : ({ d with ctl := .session true env x.line } : Daemon).chan.Steady := hd
  exact outcome_sessionCmd hcv hd' x.verb x.arg

/-- The request line of an upload is followed by its frames; the reply tells
how many bytes they held. -/
theorem exchange_of_putHdr
    (hx : x.Ok cfg) {env' : List EnvEntry} {path : Bytes}
    (hctl : (feed cfg x.answers d (x.line ++ [lf])).ctl = .putHdr env' ⟨path, 0⟩ []) :
    ∃ d' total, d'.chan = (feed cfg x.answers d (x.line ++ [lf])).chan ∧
      exchange cfg d x = reply cfg x.last d' env' (ascii "OK " ++ decimal total) := by
  let d₁ := feed cfg x.answers d (x.line ++ [lf])
  have hd₁ : d₁ = { d₁ with ctl := .putHdr env' ⟨path, 0⟩ [] } := by rw [← hctl]
  obtain ⟨d', hchan, -, -, hover⟩ := putOver_accepted cfg d₁ env' ⟨path, 0⟩ x.frames
    hx.frames hx.accepted hx.closes rfl rfl
  rw [← hd₁] at hover
  have hin : d₁.ctl.inPut = true := by
    rw [hctl]
    rfl
  refine ⟨d', 0 + ((x.frames.map Prod.fst).flatten).length, hchan, ?_⟩
  simp only [exchange]
  rw [if_pos hin, hover]

/-- The request line of a supervised run is followed by the turns of the
watching loop. -/
theorem exchange_of_live
    {l : Live} {base : Bytes} {child : Child}
    (hctl : (feed cfg x.answers d (x.line ++ [lf])).ctl = .live l)
    (h : Pumping cfg base child (feed cfg x.answers d (x.line ++ [lf])) l) :
    exchange cfg d x = playTurns cfg (feed cfg x.answers d (x.line ++ [lf])) x.turns := by
  have hput : ¬ (feed cfg x.answers d (x.line ++ [lf])).ctl.inPut = true := by
    rw [hctl]
    simp [Ctl.inPut]
  have hopen : (feed cfg x.answers d (x.line ++ [lf])).ctl.inSession = true := by
    rw [hctl]
    simp [Ctl.inSession, Ctl.phase, Live.phase, h.mode]
  simp only [exchange]
  rw [if_neg hput, if_pos hopen]

theorem exchange_answered
    (hcv : cfg.cv = none) (hctl : d.ctl = .session true env [])
    (hd : d.chan.Steady) (hx : x.Ok cfg)
    (hdone : (exchange cfg d x).ctl.executing = false) :
    ∃ w, Exchanged cfg d x w := by
  have hline := feed_exchange hcv hctl hd hx
  cases hline with
  | said w env' hw hsent hsteady hctl' =>
      have hsame : exchange cfg d x = feed cfg x.answers d (x.line ++ [lf]) := by
        unfold exchange
        cases x.turns with
        | nil => simp [hctl', Ctl.inPut, playTurns]
        | cons t turns => simp [hctl', Ctl.inPut, playTurns, Ctl.supervises]
      refine ⟨w, hw, ?_, .inl ⟨⟨env', ?_⟩, ?_⟩⟩
      · rw [hsame, hsent]
      · rw [hsame, hctl']
      · rw [hsame]
        exact hsteady
  | ended w hends hw hsent hover =>
      have hput := not_inPut_of_not_inSession hover
      have hsame : exchange cfg d x = feed cfg x.answers d (x.line ++ [lf]) := by
        simp [exchange, hput, hover]
      refine ⟨w, hw, ?_, .inr ⟨hends, ?_⟩⟩
      · rw [hsame, hsent]
      · rw [hsame, hover]
  | uploads env' path hverb hsent hsteady hctl' =>
      obtain ⟨d', total, hchan, hsame⟩ := exchange_of_putHdr hx hctl'
      have hsteady' : d'.chan.Steady := by
        rw [hchan]
        exact hsteady
      obtain ⟨c, hc, hcsteady, _, hreply⟩ :=
        reply_steady cfg x.last hsteady' env' (ascii "OK " ++ decimal total)
      have hw := total_mem total
      have hshape : x.verb.shape = .upload := by
        rw [hverb]
        rfl
      rw [← hshape] at hw
      refine ⟨_, hw, ?_, .inl ⟨⟨env', ?_⟩, ?_⟩⟩
      · rw [hsame, hreply]
        simp only [hc, hchan]
        rw [hsent]
        simp only [List.append_assoc]
      · rw [hsame, hreply]
      · rw [hsame, hreply]
        exact hcsteady
  | runs l child hverb hctl' h =>
      have hmode : l.mode = x.mode := by
        unfold Exchange.mode
        rcases hverb with ⟨hverb, hmode⟩ | ⟨hverb, hmode⟩ <;> simp [hverb, hmode]
      have hsame := exchange_of_live hctl' h
      have hturned := playTurns_turned hcv hx.turns
        (.watching l hctl' rfl hmode h : Turned cfg d.chan.sent child l.env x.mode
          (feed cfg x.answers d (x.line ++ [lf])))
      rw [hsame] at hdone
      have hshape : x.verb.shape = .stream := by
        rcases hverb with ⟨hverb, _⟩ | ⟨hverb, _⟩ <;> rw [hverb] <;> rfl
      cases hturned with
      | watching l' hctl'' _ _ h' =>
          rw [hctl''] at hdone
          simp [Ctl.executing, Ctl.supervises, Ctl.inSession, Ctl.phase, Live.phase,
            h'.mode] at hdone
      | whole hwhole =>
          obtain ⟨fs, hsent, _⟩ := hwhole.sent
          have hw := encodeStream_mem fs child.status.code
          rw [← hshape] at hw
          refine ⟨_, hw, ?_, .inl ⟨⟨l.env, ?_⟩, ?_⟩⟩
          · rw [hsame, hsent]
          · rw [hsame, hwhole.ctl]
          · rw [hsame]
            exact hwhole.steady

end

/-! ## Whole sessions -/

def exchangeAll (cfg : Cfg) (d : Daemon) (xs : List Exchange) : Daemon :=
  xs.foldl (exchange cfg) d

/-- A client in lockstep: well-formed exchanges, each complete before the
next, and none behind the end of the session. -/
def Lockstep (cfg : Cfg) : Daemon → List Exchange → Prop
  | _, [] => True
  | d, x :: xs =>
      x.Ok cfg ∧ (exchange cfg d x).ctl.executing = false ∧ (xs ≠ [] → ¬ x.Ends) ∧
        Lockstep cfg (exchange cfg d x) xs

theorem lockstep_replies
    {cfg : Cfg} (hcv : cfg.cv = none) {d : Daemon} {env : List EnvEntry}
    (hctl : d.ctl = .session true env []) (hd : d.chan.Steady) {xs : List Exchange}
    (h : Lockstep cfg d xs) :
    ∃ ws, List.Forall₂ (fun x w => w ∈ replyWords x.verb.shape) xs ws ∧
      (exchangeAll cfg d xs).chan.sent = d.chan.sent ++ ws.flatten ∧
      ((exchangeAll cfg d xs).ctl.inSession = false → ∃ x ∈ xs.getLast?, x.Ends) := by
  induction xs generalizing d env with
  | nil =>
      refine ⟨[], .nil, by simp [exchangeAll], ?_⟩
      intro hover
      have hopen : d.ctl.inSession = true := by
        rw [hctl]
        rfl
      rw [exchangeAll, List.foldl_nil, hopen] at hover
      cases hover
  | cons x xs ih =>
      obtain ⟨hx, hdone, hends, hrest⟩ := h
      obtain ⟨w, hw⟩ := exchange_answered hcv hctl hd hx hdone
      have hstep : exchangeAll cfg d (x :: xs) =
          exchangeAll cfg (exchange cfg d x) xs := rfl
      rcases hw.next with ⟨⟨env', hctl'⟩, hsteady⟩ | ⟨hend, hover⟩
      · obtain ⟨ws, hws, hsent, hlast⟩ := ih hctl' hsteady hrest
        refine ⟨w :: ws, .cons hw.reply hws, ?_, ?_⟩
        · rw [hstep, hsent, hw.sent, List.flatten_cons, List.append_assoc]
        · intro hover
          rw [hstep] at hover
          obtain ⟨y, hy, hyends⟩ := hlast hover
          cases xs with
          | nil => simp at hy
          | cons x' xs => exact ⟨y, by simpa using hy, hyends⟩
      · have hnil : xs = [] := by
          by_contra hne
          exact hends hne hend
        subst hnil
        exact ⟨[w], .cons hw.reply .nil, by simpa [exchangeAll] using hw.sent,
          fun _ => ⟨x, by simp, hend⟩⟩

/-- Behind the OK of AUTH, what the daemon sends to a client in lockstep is
one complete reply per command line, in order and in one way only, and the
session is over only behind a QUIT or an accepted RUNA. -/
theorem lockstep_parses
    (cfg : Cfg) (hcv : cfg.cv = none) (d : Daemon) (env : List EnvEntry)
    (hctl : d.ctl = .session true env []) (hd : d.chan.Steady) (xs : List Exchange)
    (h : Lockstep cfg d xs) :
    (∃! ws, List.Forall₂ (fun x w => w ∈ replyWords (Exchange.verb x).shape) xs ws ∧
      (exchangeAll cfg d xs).chan.sent = d.chan.sent ++ ws.flatten) ∧
    ((exchangeAll cfg d xs).ctl.inSession = false → ∃ x ∈ xs.getLast?, x.Ends) := by
  obtain ⟨ws, hws, hsent, hlast⟩ := lockstep_replies hcv hctl hd h
  refine ⟨⟨ws, ⟨hws, hsent⟩, ?_⟩, hlast⟩
  rintro vs ⟨hvs, hsent'⟩
  rw [hsent] at hsent'
  exact flatten_unique (fun x : Exchange => prefixFree_replyWords x.verb.shape) hvs hws
    (List.append_cancel_left hsent').symm

/-! ## A session -/

def tmpCfg : Cfg := posixCfg (ascii "/tmp")

def loggedIn : Daemon :=
  run tmpCfg (Daemon.init tmpCfg [] (ascii "/") fun _ => none)
    (newPeer :: rxAll {} (ascii "AUTH t" ++ [lf]))

def askStat : Exchange := ⟨ascii "STAT", {}, [], {}, []⟩

def upload : Exchange := ⟨ascii "PUT f", {}, [(ascii "ab", {})], {}, []⟩

/-- The client sends one frame of input; three passes then empty the pipes. -/
def interactive : Exchange where
  line := ascii "RUNI cat"
  answers := { child := some twoStreams }
  frames := []
  last := {}
  turns :=
    [⟨{ sess := true, out := some 0 }, {}, [], some (.input (ascii "hi"))⟩,
      ⟨{ out := some 0, err := some 0 }, {}, [], none⟩,
      ⟨{ err := some 0 }, {}, [], none⟩]

def leave : Exchange := ⟨ascii "QUIT", {}, [], {}, []⟩

theorem exchange_ok_plain
    (cfg : Cfg) {x : Exchange} (hclean : LineClean x.line) (hnul : nul ∉ x.line)
    (hfits : x.line.length < lineMax) (hframes : x.frames = [])
    (hturns : x.turns = []) (hlast : x.last.fclose = true) : x.Ok cfg :=
  ⟨hclean, hnul, hfits, by simp [hframes], by simp [hframes, putRefusal], hlast,
    by simp [hturns]⟩

theorem lockstep_session :
    Lockstep tmpCfg loggedIn [askStat, upload, interactive, leave] ∧
      (∃! ws, List.Forall₂ (fun x w => w ∈ replyWords (Exchange.verb x).shape)
          [askStat, upload, interactive, leave] ws ∧
        (exchangeAll tmpCfg loggedIn [askStat, upload, interactive, leave]).chan.sent =
          loggedIn.chan.sent ++ ws.flatten) := by
  have hstat : askStat.Ok tmpCfg :=
    exchange_ok_plain _ (by decide) (by decide) (by decide) rfl rfl rfl
  have hleave : leave.Ok tmpCfg :=
    exchange_ok_plain _ (by decide) (by decide) (by decide) rfl rfl rfl
  have hupload : upload.Ok tmpCfg :=
    ⟨by decide, by decide, by decide, by decide, by decide, rfl, by simp [upload]⟩
  have hinteractive : interactive.Ok tmpCfg := by
    refine ⟨by decide, by decide, by decide, by simp [interactive], by decide, rfl, ?_⟩
    have hmode : interactive.mode = .runi := by decide
    intro t ht
    rw [hmode]
    simp only [interactive, List.mem_cons, List.not_mem_nil, or_false] at ht
    rcases ht with rfl | rfl | rfl
    · exact ⟨rfl, fun h => absurd rfl h, by simp [ClientFrame.Ok]; decide⟩
    · exact ⟨rfl, fun _ => rfl, by simp⟩
    · exact ⟨rfl, fun _ => rfl, by simp⟩
  have hlockstep : Lockstep tmpCfg loggedIn [askStat, upload, interactive, leave] :=
    ⟨hstat, by decide +kernel, fun _ => by unfold Exchange.Ends; decide,
      hupload, by decide +kernel, fun _ => by unfold Exchange.Ends; decide,
      hinteractive, by decide +kernel, fun _ => by unfold Exchange.Ends; decide,
      hleave, by decide +kernel, fun h => absurd rfl h, trivial⟩
  exact ⟨hlockstep, (lockstep_parses tmpCfg rfl loggedIn [] (by decide +kernel)
    (by decide +kernel) _ hlockstep).1⟩

end GrandCross
