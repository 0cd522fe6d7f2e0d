import GrandCross.CwdMap
import GrandCross.EnvScript
import GrandCross.Fidelity
import GrandCross.Handshake
import GrandCross.IxClient
import GrandCross.OutputGrows
import GrandCross.PathBack

/-!
# A run of gcds

`main` of the client behind its arguments, from the opening of the connection
to the exit code, and the daemon that it talks to.  A plain RUN is followed
through the greeting, AUTH, CWD and the output up to the X line.
-/

namespace GrandCross

open CText
open Transfer

/-! ## The code -/

/-- How `rc_open` looks a host up: by `serial` if it is set, else by `addr`. -/
def peerConf (kv : List GcdsKv) (host : Bytes) : Option HostConf :=
  let token := confGet kv (rcKey host (ascii "token"))
  if (confGet kv (rcKey host (ascii "serial"))).getD [] ≠ [] then some ⟨.ser, token⟩
  else (confGet kv (rcKey host (ascii "addr"))).map fun _ => ⟨.tcp, token⟩

/-- What the client finds: its directory, the connection and the later ones of
`poll_result`, the turns of `ix_client`, and its two outputs. -/
structure GcdsWorld where
  getcwd : Option Bytes
  dial : Dial
  polls : List Dial
  turns : List IxTurn
  fd1 : Sink
  fd2 : Sink

/-- How it ends: no code while it still waits, and the first connection if one
was opened. -/
structure GcdsEnd where
  code : Option ℤ
  link : Option Link
  fd1 : Sink
  fd2 : Sink

/-- `EX_FAIL`. -/
def exFail : ℤ := 125

def exitCode (code : ℤ) : ℤ := if code < 0 then exFail else code

def GcdsWorld.fails (w : GcdsWorld) (link : Option Link) : GcdsEnd :=
  ⟨some exFail, link, w.fd1, w.fd2⟩

/-- `rc_mapback`. -/
def rcMapback (kv : List GcdsKv) (host : Bytes) : MapBack :=
  ⟨fun line => pmBackLine kv host line mbLine, [], []⟩

/-- The working directory is set where it is mapped; `false` to give up. -/
def gcdsCwd (cwd : PmResult) (link : Link) : Bool × Link :=
  match cwd with
  | .overflow => (false, link)
  | .unmapped => (true, link)
  | .mapped rcwd =>
      match rcCmd link (requestLine (ascii "CWD ") rcwd) with
      | (some reply, link) => (reply = ascii "OK", link)
      | (none, link) => (false, link)

def gcdsRuna (conf : HostConf) (w : GcdsWorld) (mb : Option MapBack) (cmd : Bytes)
    (link : Link) : GcdsEnd :=
  match rcCmd link (requestLine (ascii "RUNA ") cmd) with
  | (some reply, link) =>
      if gcdsStarts reply (ascii "OK ") then
        let r := pollResult conf (atol (reply.drop 3)) w.fd1 w.fd2 mb w.polls
        ⟨r.1.map exitCode, some link, r.2.fd1, r.2.fd2⟩
      else w.fails (some link)
  | (none, link) => w.fails (some link)

def gcdsRuni (w : GcdsWorld) (mb : Option MapBack) (cmd : Bytes) (link : Link) : GcdsEnd :=
  let r := ixClient link.chan ⟨link.inp, w.fd1, w.fd2, mb⟩ cmd w.turns
  ⟨r.1.map exitCode, some ⟨r.2.chan, r.2.rc.inp⟩, r.2.rc.fd1, r.2.rc.fd2⟩

def gcdsPlain (w : GcdsWorld) (mb : Option MapBack) (cmd : Bytes) (link : Link) : GcdsEnd :=
  let put := lioPutLine link.chan (requestLine (ascii "RUN ") cmd)
  if put.1 then
    let r := rcStream ⟨link.inp, w.fd1, w.fd2, mb⟩
    ⟨some (exitCode r.1), some ⟨put.2, r.2.inp⟩, r.2.fd1, r.2.fd2⟩
  else w.fails (some ⟨put.2, link.inp⟩)

/-- `main` behind AUTH. -/
def gcdsCommand (conf : HostConf) (kv : List GcdsKv) (host : Bytes) (o : ClientOpts)
    (cmd : Bytes) (w : GcdsWorld) (greet : Greet) (link : Link) : GcdsEnd :=
  match gcdsCwd (pmCwd kv host w.getcwd confValMax) link with
  | (false, link) => w.fails (some link)
  | (true, link) =>
      let mb := if o.mapback then some (rcMapback kv host) else none
      if o.ix then
        if greet.capIx then gcdsRuni w mb cmd link else w.fails (some link)
      else if greet.capAsync || o.async then gcdsRuna conf w mb cmd link
      else gcdsPlain w mb cmd link

/-- `main` from `rc_open` on, for a command. -/
def gcdsRun (kv : List GcdsKv) (host : Bytes) (o : ClientOpts) (cmd : Bytes)
    (w : GcdsWorld) : GcdsEnd :=
  match peerConf kv host with
  | none => w.fails none
  | some conf =>
    match rcOpen conf w.dial with
    | none => w.fails none
    | some (link, greet) =>
      match rcAuth conf link with
      | (false, link) => w.fails (some link)
      | (true, link) => gcdsCommand conf kv host o cmd w greet link

/-! ## The daemon -/

/-- Between two commands of an authenticated session. -/
structure AtCommand (cfg : Cfg) (d : Daemon) : Prop where
  ctl : d.ctl = .session true [] []
  steady : d.chan.Steady
  pending : d.job.pending = false
  kind : d.chan.kind = cfg.kind

section

variable {cfg : Cfg} {d : Daemon}

/-- A line of printable text that fits the buffer is read as it is. -/
theorem AtCommand.hears
    (h : AtCommand cfg d) (hcv : cfg.cv = none) (o : Answers) {verb arg : Bytes}
    (hverb : LineClean verb ∧ nul ∉ verb ∧ sp ∉ verb) (harg : LineClean arg) (hnul : nul ∉ arg)
    (hfits : verb.length + 1 + arg.length < lineMax) :
    feed cfg o d (requestLine (verb ++ [sp]) arg ++ [lf]) =
      sessionCmd cfg o { d with ctl := .session true [] (verb ++ sp :: arg) } []
        (verbOf verb) (some arg) := by
  have hline : LineClean (verb ++ sp :: arg) := by
    have hblank : LineClean [sp] := by decide
    exact hverb.1.append (hblank.append harg)
  have hsize : (verb ++ sp :: arg).length < lineMax := by
    rw [List.length_append, List.length_cons]
    omega
  have hnone : nul ∉ verb ++ sp :: arg := by
    simp only [List.mem_append, List.mem_cons, not_or]
    exact ⟨hverb.2.1, by decide, hnul⟩
  have htext : sessionText cfg (verb ++ sp :: arg) = verb ++ sp :: arg := by
    unfold sessionText
    rw [hcv]
    exact cstr_eq_self hnone
  rw [requestLine_fits hfits, feed_session_line cfg o h.ctl hline hsize]
  unfold sessionLine
  dsimp only
  rw [htext, cutAt_append_cons hverb.2.2 arg]
  rfl

/-- CWD sets the directory, or says that there is none. -/
theorem AtCommand.hearsCwd
    (h : AtCommand cfg d) (hcv : cfg.cv = none) (o : Answers) {p : Bytes} (hp : LineClean p)
    (hnul : nul ∉ p) (hfits : p.length < confValMax) :
    ∃ c : Chan, c.Steady ∧ c.kind = d.chan.kind ∧
      c.sent = d.chan.sent ++
        ((if o.chdir.isSome then ascii "OK" else ascii "ERR 404 no such directory") ++ [lf]) ∧
      feed cfg o d (requestLine (ascii "CWD ") p ++ [lf]) =
        { d with
          ctl := .session true [] []
          chan := c
          cwd := o.chdir.getD d.cwd
          log := d.log ++ (o.chdir.map (Obs.chdir p)).toList } := by
  have hverb : LineClean (ascii "CWD") ∧ nul ∉ ascii "CWD" ∧ sp ∉ ascii "CWD" := by decide
  have hline : ascii "CWD " = ascii "CWD" ++ [sp] := by decide
  have hcwd : verbOf (ascii "CWD") = .cwd := by decide
  have hthree : (ascii "CWD").length = 3 := rfl
  unfold confValMax at hfits
  rw [hline, h.hears hcv o hverb hp hnul (by unfold lineMax; omega), hcwd]
  simp only [sessionCmd]
  have hsteady := h.steady
  cases hdir : o.chdir with
  | none =>
      obtain ⟨c, hsent, hc, hkind, hreply⟩ := reply_steady cfg o
        (d := { d with ctl := .session true [] (ascii "CWD" ++ sp :: p) }) hsteady []
        (ascii "ERR 404 no such directory")
      refine ⟨c, hc, hkind, hsent, ?_⟩
      simp only [doCwd, hdir]
      rw [hreply]
      simp
  | some dir =>
      obtain ⟨c, hsent, hc, hkind, hreply⟩ := reply_steady cfg o
        (d := { d with
          ctl := .session true [] (ascii "CWD" ++ sp :: p)
          cwd := dir
          log := d.log ++ [.chdir p dir] }) hsteady [] (ascii "OK")
      refine ⟨c, hc, hkind, hsent, ?_⟩
      simp only [doCwd, hdir]
      rw [hreply]
      simp

/-- An accepted command is in the log for good. -/
theorem AtCommand.logged
    (h : AtCommand cfg d) (mode : LiveMode) (line cmd : Bytes) {d' : Daemon}
    (hran : ∀ s₀, Inside cfg s₀ (acceptRun { d with ctl := .session true [] line } mode cmd [])
      (.session true) → Inv cfg s₀ d') (evs : List Ev) :
    ∃ rest, (run cfg d' evs).log = d.log ++ .run mode cmd [] :: rest := by
  let accepted : Daemon := acceptRun { d with ctl := .session true [] line } mode cmd []
  let s₀ : Origin := ⟨accepted.log, accepted.view (.session true), fun _ => True⟩
  have hinside : Inside cfg s₀ accepted (.session true) :=
    ⟨⟨[], by simp [s₀], rfl, by simp⟩, h.pending, h.kind⟩
  obtain ⟨rest, hlog, -, -⟩ := ((hran s₀ hinside).run (fun _ => trivial) evs).inside.traced
  refine ⟨rest, ?_⟩
  rw [hlog]
  simp [s₀, accepted, acceptRun]

theorem execOver_run (cfg : Cfg) (d : Daemon) (evs : List Ev) :
    ∃ evs', execOver cfg d evs = run cfg d evs' := by
  induction evs generalizing d with
  | nil => exact ⟨[], rfl⟩
  | cons ev evs ih =>
      unfold execOver
      split_ifs
      · obtain ⟨evs', hevs⟩ := ih (step cfg d ev)
        exact ⟨ev :: evs', hevs⟩
      · exact ⟨[], rfl⟩

theorem Grows.select {c : Chan} (h : Grows c d) (sel : Sel) (o : Answers) :
    Grows c (step cfg d (.select sel o)) := by
  simp only [step]
  split
  · rename_i l _
    unfold liveSelect
    split
    · split_ifs
      · exact h
      · exact h.livePass o l sel
      · exact h.livePass o l sel
    · exact h.livePass o l sel
  · exact h

theorem Grows.execOver {c : Chan} (h : Grows c d) (evs : List Ev) :
    Grows c (execOver cfg d evs) := by
  induction evs generalizing d with
  | nil => exact h
  | cons ev evs ih =>
      unfold GrandCross.execOver
      split_ifs with hover
      · apply ih
        cases ev with
        | accept peer plan o =>
            cases hctl : d.ctl with
            | accept => rw [hctl] at hover; exact absurd hover (by decide)
            | _ =>
                simp only [step, hctl]
                exact h
        | rx b o => exact h.rx o b
        | hup o => exact h.hup o
        | select sel o => exact h.select sel o
      · exact h

theorem Grows.feed {c : Chan} (h : Grows c d) (o : Answers) (bytes : Bytes) :
    Grows c (feed cfg o d bytes) := by
  induction bytes generalizing d with
  | nil => exact h
  | cons b bytes ih => exact ih (h.rx o b)

theorem execOver_idle (hidle : d.ctl.supervises = false) (evs : List Ev) :
    execOver cfg d evs = d := by
  cases evs with
  | nil => rfl
  | cons ev evs => rw [execOver, if_neg (by rw [hidle]; exact Bool.false_ne_true)]

/-- A command that cannot be started. -/
theorem doRun_unstarted
    (cfg : Cfg) (hd : d.chan.Steady) {o : Answers} (hchild : o.child = none) (cmd : Bytes) :
    (doRun cfg o d [] (some cmd)).ctl = .session true [] [] ∧
      (doRun cfg o d [] (some cmd)).chan.sent =
        d.chan.sent ++ (ascii "ERR 500 exec failed" ++ [lf]) := by
  have hsteady : (acceptRun d .run cmd []).chan.Steady := hd
  simp only [doRun]
  split_ifs
  · obtain ⟨c, hsent, -, -, hreply⟩ := reply_steady cfg o hsteady []
      (ascii "ERR 500 exec failed")
    have hanswer : liveExec cfg o (acceptRun d .run cmd []) .run [] cmd =
        reply cfg o (acceptRun d .run cmd []) [] (ascii "ERR 500 exec failed") := by
      unfold liveExec
      rw [hchild]
      split <;> rfl
    rw [hanswer, hreply]
    exact ⟨rfl, hsent⟩
  · obtain ⟨c, hsent, -, -, hreply⟩ := reply_steady cfg o
      (d := unlink cfg (unlink cfg (acceptRun d .run cmd []) cfg.outf) cfg.errf) hsteady []
      (ascii "ERR 500 exec failed")
    unfold runBlocking
    rw [hchild]
    dsimp only
    rw [hreply]
    exact ⟨rfl, hsent⟩

/-- A command of a build that streams: its output, once the loop that watches
it has ended. -/
theorem doRun_streams
    (hd : d.chan.Steady) (hcv : cfg.cv = none) (hmaxout : cfg.maxout = 0)
    (hlive : cfg.build.live = true) {o : Answers} {child : Child}
    (hchild : o.child = some child) {cmd : Bytes} (hcmd : cmd.length ≤ 1023) {evs : List Ev}
    (hevs : ∀ ev ∈ evs, ev.Silent)
    (hover : (execOver cfg (doRun cfg o d [] (some cmd)) evs).ctl.supervises = false) :
    Delivers d.chan.sent (execOver cfg (doRun cfg o d [] (some cmd)) evs).chan child := by
  have hscript : buildScript scriptMax cmd [] = some (scriptText [] cmd) :=
    buildScript_room (by simp) (by simp) hcmd
  have hsteady : (acceptRun d .run cmd []).chan.Steady := hd
  have hstart : doRun cfg o d [] (some cmd) =
      { acceptRun d .run cmd [] with ctl := .live (Live.start .run [] 0 child) } := by
    simp only [doRun, hlive, if_true]
    unfold liveExec
    rw [hscript, hchild]
  have hwatching : Silent cfg d.chan.sent child [] (doRun cfg o d [] (some cmd)) := by
    rw [hstart]
    exact .watching _ rfl rfl ((pumping_start hsteady (by decide)).withCtl _)
  rcases execOver_silent hcv hevs hwatching with
    ⟨l, hctl, -, -⟩ | ⟨l, sel, cs, hctl, -, -, -⟩ | hanswered
  · rw [hctl] at hover
    exact absurd hover (by simp [Ctl.supervises])
  · rw [hctl] at hover
    exact absurd hover (by simp [Ctl.supervises])
  · exact hanswered.delivers hmaxout

/-- A captured command: its output, when the two files are apart. -/
theorem doRun_captures
    (hd : d.chan.Steady) (hcv : cfg.cv = none) (hmaxout : cfg.maxout = 0)
    (hlive : cfg.build.live = false) {o : Answers} {child : Child}
    (hchild : o.child = some child) (cmd : Bytes)
    (hfiles : Apart cfg d.cwd cfg.outf cfg.errf ∨ child.out = child.err) (evs : List Ev) :
    Delivers d.chan.sent (execOver cfg (doRun cfg o d [] (some cmd)) evs).chan child := by
  have hsteady : (acceptRun d .run cmd []).chan.Steady := hd
  obtain ⟨fs, hsent, hctl, -, hpayload⟩ := runBlocking_sent hcv hchild hsteady []
  have hrun : doRun cfg o d [] (some cmd) = runBlocking cfg o (acceptRun d .run cmd []) [] := by
    simp only [doRun, hlive, Bool.false_eq_true, if_false]
  have hidle : (doRun cfg o d [] (some cmd)).ctl.supervises = false := by
    rw [hrun, hctl]
    rfl
  have hbase : (doRun cfg o d [] (some cmd)).chan.sent =
      d.chan.sent ++ encodeStream fs child.status.code := by
    rw [hrun]
    exact hsent
  rw [execOver_idle hidle, delivers_iff hbase, hpayload hmaxout, hpayload hmaxout]
  exact (fileText_eq_iff ..).mpr hfiles

end

/-! ## Both ends -/

/-- What the client sends on the first connection. -/
def GcdsEnd.sent (r : GcdsEnd) : Option Bytes := r.link.map fun link => link.chan.sent

/-- Nothing has been run, and the client says so. -/
structure Declined (sent : Bytes) (log : List Obs) (d' : Daemon) (w : GcdsWorld)
    (r : GcdsEnd) : Prop where
  sent : r.sent = some sent
  logged : d'.log = log
  code : r.code = some exFail
  fd1 : r.fd1 = w.fd1
  fd2 : r.fd2 = w.fd2

/-- The command has been run in `dir` behind `log`; the client ends with its
code and has written its output. -/
structure Ran (cfg : Cfg) (o : Answers) (cmd : Bytes) (d' : Daemon) (w : GcdsWorld)
    (sent : Bytes) (log : List Obs) (dir : Bytes) (r : GcdsEnd) : Prop where
  sent : r.sent = some sent
  logged : ∃ rest, d'.log = log ++ .run .run cmd [] :: rest
  unstarted : o.child = none → r.code = some exFail ∧ r.fd1 = w.fd1 ∧ r.fd2 = w.fd2
  delivered : ∀ child, o.child = some child → d'.ctl.supervises = false →
    cfg.build.live = true ∨ Apart cfg dir cfg.outf cfg.errf ∨ child.out = child.err →
      r.code = some (child.status.code : ℤ) ∧ r.fd1.taken = w.fd1.taken ++ child.out ∧
        r.fd2.taken = w.fd2.taken ++ child.err

/-- The client's part of a RUN, over the answer of the daemon. -/
theorem gcdsPlain_sent
    (w : GcdsWorld) (cmd : Bytes) {sent pending : Bytes} {link : Link}
    (h : Opened link sent pending) :
    (gcdsPlain w none cmd link).sent =
        some (sent ++ (requestLine (ascii "RUN ") cmd ++ [lf])) ∧
      (gcdsPlain w none cmd link).code =
        some (exitCode (rcStream ⟨link.inp, w.fd1, w.fd2, none⟩).1) ∧
      (gcdsPlain w none cmd link).fd1 = (rcStream ⟨link.inp, w.fd1, w.fd2, none⟩).2.fd1 ∧
      (gcdsPlain w none cmd link).fd2 = (rcStream ⟨link.inp, w.fd1, w.fd2, none⟩).2.fd2 := by
  have hput := wrote_lioPutLine h.chan (requestLine (ascii "RUN ") cmd)
  unfold gcdsPlain
  rw [if_pos hput.ok, GcdsEnd.sent]
  exact ⟨by rw [Option.map_some, hput.sent, h.sent], rfl, rfl, rfl⟩

/-- A line that is no frame. -/
theorem rcOutFrame_refused
    {rc : Rc} (hrc : rc.Steady) (hmb : rc.mb = none)
    (hpending : rc.inp.pending = ascii "ERR 500 exec failed" ++ [lf]) :
    ∃ inp, lioGetLine lineMax rc.inp = (.ok (ascii "ERR 500 exec failed"), inp) ∧
      rcOutFrame { rc with inp := inp } (cstr (ascii "ERR 500 exec failed")) =
        (some (-1), { rc with inp := inp }) := by
  have hclean : LineClean (ascii "ERR 500 exec failed") := by decide
  have hsize : (ascii "ERR 500 exec failed").length < lineMax := by decide
  obtain ⟨inp, -, -, hget⟩ := lioGetLine_clean lineMax hrc.inp hpending hclean hsize
  have hline : cstr (ascii "ERR 500 exec failed") = ascii "ERR 500 exec failed" := by decide
  have hflush : mbFlush { rc with inp := inp } = { rc with inp := inp } := by
    unfold mbFlush
    rw [hmb]
  have hframe : rcOutFrame { rc with inp := inp } (ascii "ERR 500 exec failed") =
      (some (-1), mbFlush { rc with inp := inp }) := rfl
  exact ⟨inp, hget, by rw [hline, hframe, hflush]⟩

theorem rcStream_refused
    {rc : Rc} (hrc : rc.Steady) (hmb : rc.mb = none)
    (hpending : rc.inp.pending = ascii "ERR 500 exec failed" ++ [lf]) :
    (rcStream rc).1 = -1 ∧ (rcStream rc).2.fd1 = rc.fd1 ∧ (rcStream rc).2.fd2 = rc.fd2 := by
  obtain ⟨inp, hget, hframe⟩ := rcOutFrame_refused hrc hmb hpending
  unfold rcStream rcStreamLoop
  rw [hget]
  dsimp only
  rw [hframe]
  exact ⟨rfl, rfl, rfl⟩

/-- From the RUN line on: `request` has been sent, and the daemon goes through
`serve`. -/
def RunsOn (cfg : Cfg) (o : Answers) (serve : Daemon → Daemon) (request : Bytes) (d' : Daemon)
    (run : Link → GcdsEnd) (done : Bytes → List Obs → Bytes → GcdsEnd → Prop) : Prop :=
  ∀ d link sent pending, AtCommand cfg d → Opened link sent pending →
    d' = serve (feed cfg o d (request ++ [lf])) → d'.chan.sent = d.chan.sent ++ pending →
      done (sent ++ (request ++ [lf])) d.log d.cwd (run link)

section

variable {cfg : Cfg} {w : GcdsWorld} {o : Answers} {evs : List Ev}

theorem gcdsPlain_ran
    {d : Daemon} (hd : d.chan.Steady) (hcv : cfg.cv = none) (hmaxout : cfg.maxout = 0)
    (hevs : ∀ ev ∈ evs, ev.Silent) (hfd1 : w.fd1.Steady) (hfd2 : w.fd2.Steady)
    {cmd : Bytes} (hcmd : cmd.length ≤ 1023) {log : List Obs}
    (hlogged : ∃ rest, (execOver cfg (doRun cfg o d [] (some cmd)) evs).log =
      log ++ .run .run cmd [] :: rest)
    {link : Link} {sent pending : Bytes} (hopened : Opened link sent pending)
    (hpending : (execOver cfg (doRun cfg o d [] (some cmd)) evs).chan.sent =
      d.chan.sent ++ pending) :
    Ran cfg o cmd (execOver cfg (doRun cfg o d [] (some cmd)) evs) w
      (sent ++ (requestLine (ascii "RUN ") cmd ++ [lf])) log d.cwd
      (gcdsPlain w none cmd link) := by
  obtain ⟨hsent, hcode, hout, herr⟩ := gcdsPlain_sent w cmd hopened
  have hrc : Rc.Steady ⟨link.inp, w.fd1, w.fd2, none⟩ := ⟨hopened.inp, hfd1, hfd2⟩
  refine ⟨hsent, hlogged, ?_, ?_⟩
  · intro hchild
    obtain ⟨hctl, hanswer⟩ := doRun_unstarted cfg hd hchild cmd
    rw [execOver_idle (by rw [hctl]; rfl), hanswer] at hpending
    have hline : pending = ascii "ERR 500 exec failed" ++ [lf] :=
      (List.append_cancel_left hpending).symm
    obtain ⟨hminus, hkept1, hkept2⟩ := rcStream_refused hrc rfl (hopened.pending.trans hline)
    rw [hcode, hout, herr, hminus]
    exact ⟨rfl, hkept1, hkept2⟩
  · intro child hchild hover hfiles
    have hdelivers : Delivers d.chan.sent
        (execOver cfg (doRun cfg o d [] (some cmd)) evs).chan child := by
      cases hlive : cfg.build.live with
      | true => exact doRun_streams hd hcv hmaxout hlive hchild hcmd hevs hover
      | false =>
          rcases hfiles with hstreams | hfiles
          · rw [hlive] at hstreams
            exact absurd hstreams Bool.false_ne_true
          · exact doRun_captures hd hcv hmaxout hlive hchild cmd hfiles evs
    obtain ⟨bytes, hbytes, hreads⟩ := hdelivers
    have hsame : bytes = pending := List.append_cancel_left (hbytes.symm.trans hpending)
    have hall : link.inp.pending = bytes ++ [] := by
      rw [List.append_nil, hsame, hopened.pending]
    obtain ⟨rc', hstream, -, hfst, hsnd⟩ :=
      hreads ⟨link.inp, w.fd1, w.fd2, none⟩ [] hrc rfl hall
    rw [hcode, hout, herr, hstream]
    refine ⟨?_, hfst, hsnd⟩
    rw [exitCode, if_neg (by omega)]

theorem gcdsPlain_runs
    (hcv : cfg.cv = none) (hmaxout : cfg.maxout = 0) (hevs : ∀ ev ∈ evs, ev.Silent)
    (hfd1 : w.fd1.Steady) (hfd2 : w.fd2.Steady) {cmd : Bytes} (hcmd : LineClean cmd)
    (hnul : nul ∉ cmd) (hfits : cmd.length < lineMax - 8) (d' : Daemon) :
    RunsOn cfg o (execOver cfg · evs) (requestLine (ascii "RUN ") cmd) d'
      (gcdsPlain w none cmd) (Ran cfg o cmd d' w) := by
  intro d link sent pending h hopened hd' hpending
  have hverb : LineClean (ascii "RUN") ∧ nul ∉ ascii "RUN" ∧ sp ∉ ascii "RUN" := by decide
  have hline : ascii "RUN " = ascii "RUN" ++ [sp] := by decide
  have hrun : verbOf (ascii "RUN") = .run := by decide
  have hthree : (ascii "RUN").length = 3 := rfl
  have hmax : lineMax = 1024 := rfl
  have hheard : feed cfg o d (requestLine (ascii "RUN ") cmd ++ [lf]) =
      doRun cfg o { d with ctl := .session true [] (ascii "RUN" ++ sp :: cmd) } []
        (some cmd) := by
    rw [hline, h.hears hcv o hverb hcmd hnul (by omega), hrun]
    rfl
  dsimp only at hd'
  rw [hheard] at hd'
  subst hd'
  have hsteady : ({ d with ctl := .session true [] (ascii "RUN" ++ sp :: cmd) } :
      Daemon).chan.Steady := h.steady
  have hran : ∀ s₀, Inside cfg s₀ (acceptRun
      { d with ctl := .session true [] (ascii "RUN" ++ sp :: cmd) } .run cmd [])
      (.session true) → Inv cfg s₀ (doRun cfg o
        { d with ctl := .session true [] (ascii "RUN" ++ sp :: cmd) } [] (some cmd)) := by
    intro s₀ hinside
    simp only [doRun]
    split_ifs
    · exact hinside.inv_liveExec o (by decide) [] cmd
    · exact hinside.inv_runBlocking o []
  obtain ⟨evs', hrest⟩ := execOver_run cfg
    (doRun cfg o { d with ctl := .session true [] (ascii "RUN" ++ sp :: cmd) } []
      (some cmd)) evs
  have hlogged := h.logged .run (ascii "RUN" ++ sp :: cmd) cmd hran evs'
  rw [← hrest] at hlogged
  exact gcdsPlain_ran hsteady hcv hmaxout hevs hfd1 hfd2 (by omega) hlogged hopened hpending

end

/-- The lines behind AUTH: the request is sent when the directory has been
set. -/
def commandLines (o : Answers) (cwd : PmResult) (request : Bytes) : List Bytes :=
  match cwd with
  | .overflow => []
  | .unmapped => [request]
  | .mapped p =>
      requestLine (ascii "CWD ") p :: if o.chdir.isSome then [request] else []

def sessionLines (cfg : Cfg) (o : Answers) (t : Bytes) (cwd : PmResult) (request : Bytes) :
    List Bytes :=
  authLine t :: if stripCr t = cfg.token then commandLines o cwd request else []

def lineText (lines : List Bytes) : Bytes := lines.flatMap (· ++ [lf])

/-- Where the daemon, at `dir`, runs the command, if it does. -/
def commandDir (o : Answers) (dir : Bytes) : PmResult → Option Bytes
  | .overflow => none
  | .unmapped => some dir
  | .mapped _ => o.chdir

def sessionDir (cfg : Cfg) (o : Answers) (t dir : Bytes) (cwd : PmResult) : Option Bytes :=
  if stripCr t = cfg.token then commandDir o dir cwd else none

def cwdLog (o : Answers) : PmResult → List Obs
  | .mapped p => (o.chdir.map (Obs.chdir p)).toList
  | _ => []

/-- What the daemon does up to the command. -/
def sessionLog (cfg : Cfg) (o : Answers) (t : Bytes) (cwd : PmResult) : List Obs :=
  .sessionStart :: if stripCr t = cfg.token then .auth :: cwdLog o cwd else [.sessionEnd]

/-- What the client does when the directory has been set. -/
def gcdsBehind (cwd : PmResult) (w : GcdsWorld) (run : Link → GcdsEnd) (link : Link) :
    GcdsEnd :=
  match gcdsCwd cwd link with
  | (false, link) => w.fails (some link)
  | (true, link) => run link

theorem pmCwd_length
    {kv : List GcdsKv} {host p : Bytes} {getcwd : Option Bytes} {size : ℕ}
    (h : pmCwd kv host getcwd size = .mapped p) : p.length < size := by
  unfold pmCwd at h
  split at h
  · cases h
  · split at h
    · cases h
    · dsimp only at h
      rw [pmBuild_eq] at h
      split_ifs at h with hfits
      · simp only [PmResult.mapped.injEq] at h
        rw [← h]
        exact hfits

/-- A daemon that goes on behind the lines it has been sent: only where a
command is watched, and it adds to its answer. -/
structure GoesOn (serve : Daemon → Daemon) : Prop where
  idle : ∀ d, d.ctl.supervises = false → serve d = d
  grows : ∀ {c d}, Grows c d → Grows c (serve d)

section

variable {cfg : Cfg} {d : Daemon} {w : GcdsWorld} {o : Answers} {serve : Daemon → Daemon}
  {request : Bytes} {d' : Daemon} {run : Link → GcdsEnd}
  {done : Bytes → List Obs → Bytes → GcdsEnd → Prop}

theorem goesOn_execOver (cfg : Cfg) (evs : List Ev) : GoesOn (execOver cfg · evs) :=
  ⟨fun _ h => execOver_idle h evs, fun h => h.execOver evs⟩

/-- Between two commands there is nothing to watch. -/
theorem AtCommand.idle (h : AtCommand cfg d) : d.ctl.supervises = false := by
  rw [h.ctl]
  rfl

/-- How `main` goes on behind AUTH, where the daemon is at `d`. -/
theorem AtCommand.behind
    (h : AtCommand cfg d) (hcv : cfg.cv = none) (hserve : GoesOn serve)
    (hrun : RunsOn cfg o serve request d' run done)
    {cwd : PmResult} (hcwd : ∀ p, cwd = .mapped p →
      LineClean p ∧ nul ∉ p ∧ p.length < confValMax)
    {link : Link} {sent pending : Bytes} (hopened : Opened link sent pending)
    (hd' : d' = serve (feed cfg o d (lineText (commandLines o cwd request))))
    (hpending : d'.chan.sent = d.chan.sent ++ pending) :
    match commandDir o d.cwd cwd with
    | none =>
        Declined (sent ++ lineText (commandLines o cwd request)) (d.log ++ cwdLog o cwd) d' w
          (gcdsBehind cwd w run link)
    | some dir =>
        done (sent ++ lineText (commandLines o cwd request)) (d.log ++ cwdLog o cwd) dir
          (gcdsBehind cwd w run link) := by
  cases cwd with
  | overflow =>
      have hsame : d' = d := hd'.trans (hserve.idle d h.idle)
      refine ⟨?_, ?_, rfl, rfl, rfl⟩
      · rw [← hopened.sent]
        simp [gcdsBehind, gcdsCwd, GcdsWorld.fails, commandLines, lineText, GcdsEnd.sent]
      · rw [hsame]
        simp [cwdLog]
  | unmapped =>
      have hline : lineText (commandLines o .unmapped request) = request ++ [lf] := by
        simp [commandLines, lineText]
      have hlog : d.log ++ cwdLog o .unmapped = d.log := List.append_nil _
      dsimp only [commandDir]
      rw [hline] at hd' ⊢
      rw [hlog]
      exact hrun d link sent pending h hopened hd' hpending
  | mapped p =>
      obtain ⟨hclean, hnone, hshort⟩ := hcwd p rfl
      obtain ⟨c, hc, hkind, hsent, hset⟩ := h.hearsCwd hcv o hclean hnone hshort
      have hcommand : AtCommand cfg (feed cfg o d (requestLine (ascii "CWD ") p ++ [lf])) := by
        rw [hset]
        exact ⟨rfl, hc, h.pending, hkind.trans h.kind⟩
      have hcut : ∀ reply rest : Bytes,
          (if o.chdir.isSome then ascii "OK" else ascii "ERR 404 no such directory") = reply →
          d'.chan.sent = c.sent ++ rest → Opened link sent (reply ++ lf :: rest) := by
        intro reply rest hreply hrest
        have hall : pending = reply ++ lf :: rest := by
          rw [hpending, hsent, hreply, List.append_assoc] at hrest
          rw [List.append_cancel_left hrest]
          simp
        exact hall ▸ hopened
      dsimp only [commandDir]
      cases hdir : o.chdir with
      | none =>
          have hline : lineText (commandLines o (.mapped p) request) =
              requestLine (ascii "CWD ") p ++ [lf] := by
            simp [commandLines, lineText, hdir]
          rw [hline, hserve.idle _ hcommand.idle, hset] at hd'
          have hreply := hcut (ascii "ERR 404 no such directory") [] (by simp [hdir])
            (by rw [hd', List.append_nil])
          obtain ⟨link', hcmd, hafter⟩ := rcCmd_reply hreply (by decide) (by decide)
            (by decide) (requestLine (ascii "CWD ") p)
          have hend : gcdsBehind (.mapped p) w run link = w.fails (some link') := by
            unfold gcdsBehind gcdsCwd
            dsimp only
            rw [hcmd]
            rfl
          rw [hend, hline, ← hafter.sent]
          refine ⟨rfl, ?_, rfl, rfl, rfl⟩
          rw [hd']
          rfl
      | some dir =>
          have hline : lineText (commandLines o (.mapped p) request) =
              (requestLine (ascii "CWD ") p ++ [lf]) ++ (request ++ [lf]) := by
            simp [commandLines, lineText, hdir]
          rw [hline, feed_append] at hd'
          have hgrows : Grows c d' := by
            rw [hd']
            refine hserve.grows (Grows.feed ?_ o _)
            rw [hset]
            exact List.prefix_refl _
          obtain ⟨rest, hrest⟩ := hgrows
          have hreply := hcut (ascii "OK") rest (by simp [hdir]) hrest.symm
          obtain ⟨link', hcmd, hafter⟩ := rcCmd_reply hreply (by decide) (by decide)
            (by decide) (requestLine (ascii "CWD ") p)
          have hend : gcdsBehind (.mapped p) w run link = run link' := by
            unfold gcdsBehind gcdsCwd
            dsimp only
            rw [hcmd]
            rfl
          have hdone := hrun _ _ _ _ hcommand hafter hd' (by rw [hset]; exact hrest.symm)
          rw [hset, hdir] at hdone
          rw [hend, hline, ← List.append_assoc]
          dsimp only [cwdLog]
          rw [hdir]
          exact hdone

end

theorem sessionRun_eq
    (cfg : Cfg) (o : Answers) {d : Daemon} (hsteady : d.chan.Steady) :
    sessionRun cfg o d =
      { d with
        ctl := .session false [] []
        chan := (lioPutLine d.chan (greeting cfg)).2
        job := { d.job with pending := false }
        log := d.log ++ [.sessionStart] } := by
  simp only [sessionRun, (wrote_lioPutLine hsteady (greeting cfg)).ok, if_true]

/-- A client that finds the greeting and the answer to AUTH. -/
theorem login_opened
    {cfg : Cfg} (hgreets : cfg.Greets) (t : Bytes) {wplan rplan : List (Option ℕ)}
    (hw : none ∉ wplan) (hr : none ∉ rplan) {reply rest : Bytes} (hclean : LineClean reply)
    (hnul : nul ∉ reply) (hsize : reply.length < lineMax) {dial : Dial}
    (hdial : dial = some (wplan, ⟨rplan, greeting cfg ++ lf :: (reply ++ lf :: rest)⟩)) :
    ∃ link₀ link, rcOpen ⟨.tcp, some t⟩ dial = some (link₀, cfg.view) ∧
      rcAuth ⟨.tcp, some t⟩ link₀ = (decide (reply = ascii "OK"), link) ∧
      Opened link (authLine t ++ [lf]) rest := by
  let conf : HostConf := ⟨.tcp, some t⟩
  let inp : Source := ⟨rplan, greeting cfg ++ lf :: (reply ++ lf :: rest)⟩
  have hquiet : ∀ line ∈ ([] : List Bytes), NoiseLine line := by simp
  have htcp : conf.kind = .tcp → ([] : List Bytes) = [] := fun _ => rfl
  have hinp : inp.Steady := hr
  have hpending : inp.pending =
      noiseText [] ++ (greeting cfg ++ lf :: (reply ++ lf :: rest)) := rfl
  obtain ⟨link₀, hopen, hopened⟩ := rcOpen_greets hgreets hquiet htcp hw hinp hpending
  have htoken : conf.token = some t := rfl
  obtain ⟨hauth, hafter⟩ := rcAuth_reply htoken hopened hclean hnul hsize
  refine ⟨link₀, (rcAuth conf link₀).2, ?_, ?_, hafter⟩
  · rw [hdial]
    exact hopen
  · rw [← hauth]

theorem gcdsRun_opened
    {cfg : Cfg} (hgreets : cfg.Greets) {kv : List GcdsKv} {host t : Bytes}
    (hconf : peerConf kv host = some ⟨.tcp, some t⟩) (opts : ClientOpts) (cmd : Bytes)
    {w : GcdsWorld} {wplan rplan : List (Option ℕ)} (hw : none ∉ wplan) (hr : none ∉ rplan)
    {reply rest : Bytes} (hclean : LineClean reply) (hnul : nul ∉ reply)
    (hsize : reply.length < lineMax)
    (hdial : w.dial = some (wplan, ⟨rplan, greeting cfg ++ lf :: (reply ++ lf :: rest)⟩)) :
    ∃ link, Opened link (authLine t ++ [lf]) rest ∧
      gcdsRun kv host opts cmd w =
        if reply = ascii "OK" then
          gcdsCommand ⟨.tcp, some t⟩ kv host opts cmd w cfg.view link
        else w.fails (some link) := by
  obtain ⟨link₀, link, hopen, hauth, hopened⟩ :=
    login_opened hgreets t hw hr hclean hnul hsize hdial
  refine ⟨link, hopened, ?_⟩
  unfold gcdsRun
  rw [hconf]
  dsimp only
  rw [hopen]
  dsimp only
  rw [hauth]
  by_cases hok : reply = ascii "OK"
  · simp [hok]
  · simp [hok]

section

variable {cfg : Cfg} {d : Daemon} {peer t : Bytes} {plan : List (Option ℕ)}

/-- The daemon behind the AUTH line of an accepted peer. -/
theorem accept_auth
    (hctl : d.ctl = .accept) (hpeer : cfg.peerOk peer = true) (hplan : none ∉ plan)
    (o : Answers) (ht : lf ∉ t) (hshort : t.length < confValMax)
    (hplain : sessionText cfg (ascii "AUTH " ++ stripCr t) = ascii "AUTH " ++ stripCr t) :
    feed cfg o (step cfg d (.accept peer plan o)) (authLine t ++ [lf]) =
      let greeted := (lioPutLine ⟨.tcp, ⟨plan, []⟩⟩ (greeting cfg)).2
      if stripCr t = cfg.token then
        { d with
          ctl := .session true [] []
          chan := (lioPutLine greeted (ascii "OK")).2
          job := { d.job with pending := false }
          log := d.log ++ [.sessionStart, .auth] }
      else
        { d with
          ctl := idleCtl cfg
          chan := (lioPutLine greeted (ascii "ERR 401 auth failed")).2
          job := { d.job with pending := false }
          log := d.log ++ [.sessionStart, .sessionEnd] } := by
  have hsteady : ({ d with chan := ⟨.tcp, ⟨plan, []⟩⟩ } : Daemon).chan.Steady := hplan
  have hstep : step cfg d (.accept peer plan o) =
      sessionRun cfg o { d with chan := ⟨.tcp, ⟨plan, []⟩⟩ } := by
    simp only [step, hctl, hpeer, if_true]
  have hauth := (sessionRun_steady cfg o hsteady).1.hearsAuth o ht hshort hplain
  rw [hstep, hauth, sessionRun_eq cfg o hsteady]
  split_ifs <;> simp

theorem greeted_sent (cfg : Cfg) (hplan : none ∉ plan) (reply : Bytes) :
    (lioPutLine (lioPutLine ⟨.tcp, ⟨plan, []⟩⟩ (greeting cfg)).2 reply).2.Steady ∧
      (lioPutLine (lioPutLine ⟨.tcp, ⟨plan, []⟩⟩ (greeting cfg)).2 reply).2.kind = .tcp ∧
      (lioPutLine (lioPutLine ⟨.tcp, ⟨plan, []⟩⟩ (greeting cfg)).2 reply).2.sent =
        greeting cfg ++ lf :: (reply ++ [lf]) := by
  have hsteady : (⟨.tcp, ⟨plan, []⟩⟩ : Chan).Steady := hplan
  have hgreet := wrote_lioPutLine hsteady (greeting cfg)
  have hreply := wrote_lioPutLine hgreet.steady reply
  refine ⟨hreply.steady, hreply.kind.trans hgreet.kind, ?_⟩
  rw [hreply.sent, hgreet.sent]
  simp [Chan.sent]

theorem sessionText_auth (hcv : cfg.cv = none) (ht : nul ∉ t) :
    sessionText cfg (ascii "AUTH " ++ stripCr t) = ascii "AUTH " ++ stripCr t := by
  have hnone : nul ∉ ascii "AUTH " ++ stripCr t := by
    rw [List.mem_append, not_or]
    exact ⟨by decide, fun hin => ht (List.mem_of_mem_filter hin)⟩
  unfold sessionText
  rw [hcv]
  exact cstr_eq_self hnone

/-- The daemon behind an AUTH with its own token. -/
theorem accept_command
    (hcv : cfg.cv = none) (hkind : cfg.kind = .tcp) (hctl : d.ctl = .accept)
    (hpeer : cfg.peerOk peer = true) (hplan : none ∉ plan) (o : Answers)
    (ht : lf ∉ t ∧ nul ∉ t ∧ t.length < confValMax) (htoken : stripCr t = cfg.token)
    {d₁ : Daemon}
    (hd₁ : d₁ = feed cfg o (step cfg d (.accept peer plan o)) (authLine t ++ [lf])) :
    AtCommand cfg d₁ ∧ d₁.chan.sent = greeting cfg ++ lf :: (ascii "OK" ++ [lf]) ∧
      d₁.log = d.log ++ [.sessionStart, .auth] ∧ d₁.cwd = d.cwd := by
  obtain ⟨hsteady, hchan, hsent⟩ := greeted_sent cfg hplan (ascii "OK")
  have hauth := accept_auth hctl hpeer hplan o ht.1 ht.2.2 (sessionText_auth hcv ht.2.1)
  dsimp only at hauth
  rw [if_pos htoken] at hauth
  rw [hd₁, hauth]
  exact ⟨⟨rfl, hsteady, rfl, hchan.trans hkind.symm⟩, hsent, rfl, rfl⟩

end

section

variable {cfg₀ cfg : Cfg} {tmpdir u : Bytes} {asyncOk liveOk ixOk : Bool} {d d' : Daemon}
  {o : Answers} {kv : List GcdsKv} {host t cmd : Bytes} {opts : ClientOpts} {w : GcdsWorld}
  {wplan rplan : List (Option ℕ)} {cwd : PmResult} {serve : Daemon → Daemon} {request : Bytes}
  {run : Link → GcdsEnd} {done : Bytes → List Obs → Bytes → GcdsEnd → Prop}

/-- The run of a client whose token is the one of the daemon, which then is at
`d`. -/
theorem AtCommand.gcds
    (h : AtCommand cfg d) (hgreets : cfg.Greets) (hcv : cfg.cv = none)
    (hsent : d.chan.sent = greeting cfg ++ lf :: (ascii "OK" ++ [lf]))
    (hw : none ∉ wplan) (hr : none ∉ rplan)
    (hconf : peerConf kv host = some ⟨.tcp, some t⟩)
    (hmain : ∀ link, gcdsCommand ⟨.tcp, some t⟩ kv host opts cmd w cfg.view link =
      gcdsBehind cwd w run link)
    (hcwd : ∀ p, cwd = .mapped p → LineClean p ∧ nul ∉ p ∧ p.length < confValMax)
    (hserve : GoesOn serve) (hrun : RunsOn cfg o serve request d' run done)
    (hd' : d' = serve (feed cfg o d (lineText (commandLines o cwd request))))
    (hdial : w.dial = some (wplan, ⟨rplan, d'.chan.sent⟩)) :
    match commandDir o d.cwd cwd with
    | none =>
        Declined ((authLine t ++ [lf]) ++ lineText (commandLines o cwd request))
          (d.log ++ cwdLog o cwd) d' w (gcdsRun kv host opts cmd w)
    | some dir =>
        done ((authLine t ++ [lf]) ++ lineText (commandLines o cwd request))
          (d.log ++ cwdLog o cwd) dir (gcdsRun kv host opts cmd w) := by
  have hgrows : Grows d.chan d' := by
    rw [hd']
    exact hserve.grows (Grows.feed (List.prefix_refl d.chan.sent) o _)
  obtain ⟨rest, hrest⟩ := hgrows
  have hall : d'.chan.sent = greeting cfg ++ lf :: (ascii "OK" ++ lf :: rest) := by
    rw [← hrest, hsent]
    simp
  rw [hall] at hdial
  obtain ⟨link, hopened, hgcds⟩ := gcdsRun_opened hgreets hconf opts cmd hw hr (by decide)
    (by decide) (by decide) hdial
  rw [hgcds, if_pos rfl, hmain]
  exact h.behind hcv hserve hrun hcwd hopened hd' hrest.symm

/-- The run of a client whose token is another one. -/
theorem gcdsRun_refused
    (hgreets : cfg.Greets)
    (hsent : d'.chan.sent = greeting cfg ++ lf :: (ascii "ERR 401 auth failed" ++ [lf]))
    (hw : none ∉ wplan) (hr : none ∉ rplan)
    (hconf : peerConf kv host = some ⟨.tcp, some t⟩) (opts : ClientOpts) (cmd : Bytes)
    (hdial : w.dial = some (wplan, ⟨rplan, d'.chan.sent⟩)) :
    Declined (authLine t ++ [lf]) d'.log d' w (gcdsRun kv host opts cmd w) := by
  rw [hsent] at hdial
  obtain ⟨link, hopened, hrun⟩ := gcdsRun_opened hgreets hconf opts cmd hw hr
    (by decide : LineClean (ascii "ERR 401 auth failed")) (by decide) (by decide) hdial
  rw [if_neg (by decide)] at hrun
  rw [hrun, ← hopened.sent]
  exact ⟨rfl, rfl, rfl, rfl, rfl⟩

/-- A run over TCP against a daemon that waits for a peer: the client sends the
lines up to the first one that is not answered OK. -/
theorem gcdsRun_session
    (hinit : cfg = sessionInit cfg₀ tmpdir u asyncOk liveOk ixOk) (hgreets : cfg₀.Greets)
    (hcv : cfg₀.cv = none) (hkind : cfg₀.kind = .tcp)
    (hctl : d.ctl = .accept) {peer : Bytes} (hpeer : cfg₀.peerOk peer = true)
    {plan : List (Option ℕ)} (hplan : none ∉ plan) (hw : none ∉ wplan) (hr : none ∉ rplan)
    (hconf : peerConf kv host = some ⟨.tcp, some t⟩)
    (ht : lf ∉ t ∧ nul ∉ t ∧ t.length < confValMax)
    (hmain : ∀ link, gcdsCommand ⟨.tcp, some t⟩ kv host opts cmd w cfg.view link =
      gcdsBehind cwd w run link)
    (hcwd : ∀ p, cwd = .mapped p → LineClean p ∧ nul ∉ p ∧ p.length < confValMax)
    (hserve : GoesOn serve)
    (hrun : stripCr t = cfg.token → RunsOn cfg o serve request d' run done)
    (hd' : d' = serve (feed cfg o (step cfg d (.accept peer plan o))
      (lineText (sessionLines cfg o t cwd request))))
    (hdial : w.dial = some (wplan, ⟨rplan, d'.chan.sent⟩)) :
    match sessionDir cfg o t d.cwd cwd with
    | none =>
        Declined (lineText (sessionLines cfg o t cwd request))
          (d.log ++ sessionLog cfg o t cwd) d' w (gcdsRun kv host opts cmd w)
    | some dir =>
        done (lineText (sessionLines cfg o t cwd request)) (d.log ++ sessionLog cfg o t cwd) dir
          (gcdsRun kv host opts cmd w) := by
  have hgreets' : cfg.Greets := by
    rw [hinit]
    exact hgreets.sessionInit tmpdir u asyncOk liveOk ixOk
  have hcv' : cfg.cv = none := by rw [hinit]; exact hcv
  have hkind' : cfg.kind = .tcp := by rw [hinit]; exact hkind
  have hpeer' : cfg.peerOk peer = true := by rw [hinit]; exact hpeer
  by_cases htoken : stripCr t = cfg.token
  · have hlines : lineText (sessionLines cfg o t cwd request) =
        (authLine t ++ [lf]) ++ lineText (commandLines o cwd request) := by
      simp [sessionLines, lineText, htoken]
    have hlog : d.log ++ sessionLog cfg o t cwd =
        (d.log ++ [.sessionStart, .auth]) ++ cwdLog o cwd := by
      simp [sessionLog, htoken]
    obtain ⟨d₁, hd₁⟩ : ∃ d₁, d₁ =
        feed cfg o (step cfg d (.accept peer plan o)) (authLine t ++ [lf]) := ⟨_, rfl⟩
    obtain ⟨hcommand, hsent, hlog₁, hdir⟩ :=
      accept_command hcv' hkind' hctl hpeer' hplan o ht htoken hd₁
    rw [hlines, feed_append, ← hd₁] at hd'
    rw [hlines, hlog, ← hlog₁, sessionDir, if_pos htoken, ← hdir]
    exact hcommand.gcds hgreets' hcv' hsent hw hr hconf hmain hcwd hserve (hrun htoken) hd'
      hdial
  · obtain ⟨-, -, hsent⟩ := greeted_sent cfg hplan (ascii "ERR 401 auth failed")
    have hauth := accept_auth hctl hpeer' hplan o ht.1 ht.2.2 (sessionText_auth hcv' ht.2.1)
    dsimp only at hauth
    have hlines : lineText (sessionLines cfg o t cwd request) = authLine t ++ [lf] := by
      simp [sessionLines, lineText, htoken]
    have hidle : (idleCtl cfg).supervises = false := by
      rw [idleCtl, hkind']
      rfl
    rw [if_neg htoken] at hauth
    rw [hlines, hauth, hserve.idle _ hidle] at hd'
    have hlog : d'.log = d.log ++ sessionLog cfg o t cwd := by
      rw [hd']
      simp [sessionLog, htoken]
    have hanswer : d'.chan.sent =
        greeting cfg ++ lf :: (ascii "ERR 401 auth failed" ++ [lf]) := by
      rw [hd']
      exact hsent
    rw [hlines, sessionDir, if_neg htoken, ← hlog]
    exact gcdsRun_refused hgreets' hanswer hw hr hconf opts cmd hdial

end

/-- A plain run, whatever the passes of the daemon are: it ends with 125 and
nothing run, or the command is run once in the mapped directory and gcds ends
with its code and its output. -/
theorem gcds_run_exact
    {cfg₀ cfg : Cfg} {tmpdir u : Bytes} {liveOk ixOk : Bool}
    (hinit : cfg = sessionInit cfg₀ tmpdir u false liveOk ixOk) (hgreets : cfg₀.Greets)
    (hcv : cfg₀.cv = none) (hmaxout : cfg₀.maxout = 0) (hkind : cfg₀.kind = .tcp)
    {d : Daemon} (hctl : d.ctl = .accept) {peer : Bytes} (hpeer : cfg₀.peerOk peer = true)
    {plan wplan rplan : List (Option ℕ)} (hplan : none ∉ plan) (hw : none ∉ wplan)
    (hr : none ∉ rplan) (o : Answers) {kv : List GcdsKv} {host t : Bytes}
    (hconf : peerConf kv host = some ⟨.tcp, some t⟩)
    (ht : lf ∉ t ∧ nul ∉ t ∧ t.length < confValMax) {opts : ClientOpts}
    (hopts : opts.ix = false ∧ opts.async = false ∧ opts.mapback = false)
    {w : GcdsWorld} (hfd1 : w.fd1.Steady) (hfd2 : w.fd2.Steady) {cwd : PmResult}
    (hmap : pmCwd kv host w.getcwd confValMax = cwd)
    (hcwd : ∀ p, cwd = .mapped p → LineClean p ∧ nul ∉ p) {cmd : Bytes}
    (hcmd : LineClean cmd ∧ nul ∉ cmd ∧ cmd.length < lineMax - 8) {evs : List Ev}
    (hevs : ∀ ev ∈ evs, ev.Silent) {d' : Daemon}
    (hd' : d' = execOver cfg (feed cfg o (step cfg d (.accept peer plan o))
      (lineText (sessionLines cfg o t cwd (requestLine (ascii "RUN ") cmd)))) evs)
    (hdial : w.dial = some (wplan, ⟨rplan, d'.chan.sent⟩)) :
    let sent := lineText (sessionLines cfg o t cwd (requestLine (ascii "RUN ") cmd))
    let log := d.log ++ sessionLog cfg o t cwd
    match sessionDir cfg o t d.cwd cwd with
    | none => Declined sent log d' w (gcdsRun kv host opts cmd w)
    | some dir => Ran cfg o cmd d' w sent log dir (gcdsRun kv host opts cmd w) := by
  have hcv' : cfg.cv = none := by rw [hinit]; exact hcv
  have hmaxout' : cfg.maxout = 0 := by rw [hinit]; exact hmaxout
  have hview : cfg.view.capAsync = false := by rw [hinit]; rfl
  have hmain : ∀ link, gcdsCommand ⟨.tcp, some t⟩ kv host opts cmd w cfg.view link =
      gcdsBehind cwd w (gcdsPlain w none cmd) link := by
    intro link
    unfold gcdsCommand gcdsBehind
    rw [hmap, hopts.1, hopts.2.1, hopts.2.2, hview]
    rfl
  have hfits : ∀ p, cwd = .mapped p → LineClean p ∧ nul ∉ p ∧ p.length < confValMax :=
    fun p hp => ⟨(hcwd p hp).1, (hcwd p hp).2, pmCwd_length (hmap.trans hp)⟩
  have hrun : RunsOn cfg o (execOver cfg · evs) (requestLine (ascii "RUN ") cmd) d'
      (gcdsPlain w none cmd) (Ran cfg o cmd d' w) :=
    gcdsPlain_runs hcv' hmaxout' hevs hfd1 hfd2 hcmd.1 hcmd.2.1 hcmd.2.2 d'
  exact gcdsRun_session hinit hgreets hcv hkind hctl hpeer hplan hw hr hconf ht hmain hfits
    (goesOn_execOver cfg evs) (fun _ => hrun) hd' hdial

/-! ## A run in a mapped directory -/

def plainCfg : Cfg :=
  sessionInit { smallCfg with build := ⟨false, false, false, true, true⟩ } (ascii "/tmp")
    (ascii "t") false true true

def oneHost : List GcdsKv :=
  [⟨ascii "host.h.addr", ascii "a"⟩, ⟨ascii "host.h.token", ascii "t"⟩,
    ⟨ascii "host.h.map.1", ascii "/w|/r"⟩]

/-- The directory is there, and the command writes to both of its outputs. -/
def inMapped : Answers := { chdir := some (ascii "/r/s"), child := some twoStreams }

/-- Both pipes are read, both end, and the child is waited for. -/
def watched : List Ev :=
  [.select { out := some 1, err := some 1 } {}, .select { out := some 0, err := some 0 } {},
    .select { reaped := true } {}]

def servedRun : Daemon :=
  execOver plainCfg
    (feed plainCfg inMapped
      (step plainCfg (Daemon.init plainCfg [] (ascii "/") fun _ => none) (.accept [] [] inMapped))
      (ascii "AUTH t" ++ lf :: ascii "CWD /r/s" ++ lf :: ascii "RUN x" ++ [lf])) watched

def answeredRun : GcdsWorld :=
  ⟨some (ascii "/w/s"), some ([], ⟨[], servedRun.chan.sent⟩), [], [], ⟨[], []⟩, ⟨[], []⟩⟩

/-- The command is run in the mapped directory, and gcds ends as it does. -/
theorem gcds_run_exact_mapped :
    (gcdsRun oneHost (ascii "h") ClientOpts.start (ascii "x") answeredRun).code = some 3 ∧
      (gcdsRun oneHost (ascii "h") ClientOpts.start (ascii "x") answeredRun).fd1.taken =
        ascii "a" ∧
      (gcdsRun oneHost (ascii "h") ClientOpts.start (ascii "x") answeredRun).fd2.taken =
        ascii "b" := by
  have hgreets : Cfg.Greets { smallCfg with build := ⟨false, false, false, true, true⟩ } :=
    ⟨by decide, by decide, by decide, by decide⟩
  have hserved : servedRun = execOver plainCfg
      (feed plainCfg inMapped
        (step plainCfg (Daemon.init plainCfg [] (ascii "/") fun _ => none)
          (.accept [] [] inMapped))
        (lineText (sessionLines plainCfg inMapped (ascii "t") (.mapped (ascii "/r/s"))
          (requestLine (ascii "RUN ") (ascii "x"))))) watched := rfl
  have hend := gcds_run_exact (rfl : plainCfg = _) hgreets rfl rfl rfl
    (rfl : (Daemon.init plainCfg [] (ascii "/") fun _ => none).ctl = .accept)
    (rfl : smallCfg.peerOk [] = true) (by decide) (by decide) (by decide) inMapped
    (rfl : peerConf oneHost (ascii "h") = some ⟨.tcp, some (ascii "t")⟩)
    (by decide) (by decide : ClientOpts.start.ix = false ∧ _) (by decide) (by decide)
    (by decide +kernel :
      pmCwd oneHost (ascii "h") answeredRun.getcwd confValMax = .mapped (ascii "/r/s"))
    (by rintro p ⟨⟩; decide) (by decide) (by simp [watched, Ev.Silent]) hserved rfl
  have hdir : sessionDir plainCfg inMapped (ascii "t") (ascii "/") (.mapped (ascii "/r/s")) =
      some (ascii "/r/s") := by decide
  dsimp only at hend
  rw [show (Daemon.init plainCfg [] (ascii "/") fun _ => none).cwd = ascii "/" from rfl,
    hdir] at hend
  obtain ⟨hcode, hout, herr⟩ := hend.delivered twoStreams rfl (by decide +kernel) (.inl rfl)
  exact ⟨hcode, hout, herr⟩

end GrandCross
