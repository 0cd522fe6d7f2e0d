import GrandCross.SessionRun

/-!
# Supervised execution and the daemon's step

`live.c` watches a running command with `select`: it streams the output
pipes, serves control sessions on the listen socket and, for RUNI, reads I
and K frames from the client.  One pass of that loop, one received byte, one
failed read or one new connection is a step of the daemon.
-/

namespace GrandCross

open CText
open Transfer

/-! ## The output pipes -/

def Live.pipe (l : Live) : Stream → Option Bytes
  | .out => l.out
  | .err => l.err

def Live.hold (l : Live) : Stream → Bytes
  | .out => l.holdOut
  | .err => l.holdErr

def Live.afterRead (l : Live) (s : Stream) (pipe : Option Bytes)
    (hold : Bytes) (n : ℕ) : Live :=
  match s with
  | .out => { l with out := pipe, holdOut := hold, total := l.total + n }
  | .err => { l with err := pipe, holdErr := hold, total := l.total + n }

/-- `pump`: one `read` of at most a chunk from a pipe holding `rest`, and the
frame for it.  The first component is false on a session write error. -/
def pump (cfg : Cfg) (d : Daemon) (l : Live) (s : Stream) (rest : Bytes)
    (k : ℕ) : Bool × Daemon × Live :=
  let data := rest.take (min (k + 1) (chanChunk d.chan))
  if data = [] then (true, d, l.afterRead s none (l.hold s) 0)
  else
    match convertOut cfg (l.hold s) data with
    | none => (false, d, l.afterRead s none (l.hold s) data.length)
    | some (hold, text) =>
        let l' := l.afterRead s (some (rest.drop data.length)) hold data.length
        if text = [] then (true, d, l')
        else
          let w := lioPutFrame cfg.build.frameMax d.chan s.tag text
          (w.1, { d with chan := w.2 }, l')

def pumpReady (cfg : Cfg) (d : Daemon) (l : Live) (s : Stream)
    (ready : Option ℕ) : Bool × Daemon × Live :=
  match l.pipe s, ready with
  | some rest, some k => pump cfg d l s rest k
  | _, _ => (true, d, l)

/-! ## The end of a supervised command -/

/-- `cv_flush_all`: the held-back tails of both streams. -/
def cvFlushAll (cfg : Cfg) (c : Chan) (l : Live) : Chan :=
  match cfg.cv with
  | none => c
  | some cv =>
      let flushOne (c : Chan) (s : Stream) : Bool × Chan :=
        if 0 < (cv.flush (l.hold s)).length then
          lioPutFrame cfg.build.frameMax c s.tag (cv.flush (l.hold s))
        else (true, c)
      let w := flushOne c .out
      if w.1 then (flushOne w.2 .err).2 else w.2

def liveReturn (cfg : Cfg) (o : Answers) (d : Daemon) (l : Live) : Daemon :=
  match l.mode with
  | .job => jobFinish cfg d l.jobid (some l.child.captured)
  | _ =>
      reply cfg o { d with chan := cvFlushAll cfg d.chan l } l.env
        (exitLine l.child.status.code)

/-- The label `lost`: the child is killed and the session ends. -/
def liveLost (cfg : Cfg) (o : Answers) (d : Daemon) : Daemon :=
  sessionReturn cfg o d

def killChild (l : Live) : Live :=
  if l.killed = 0 then { l with killed := 1 } else l

/-- The size cap of a job, the kill escalation and `waitpid`. -/
def liveWatch (cfg : Cfg) (l : Live) (sel : Sel) : Live :=
  let l :=
    if l.mode = .job ∧ 0 < cfg.maxout ∧ l.capped = false ∧ cfg.maxout < sel.size
    then { killChild l with capped := true } else l
  let l := if l.killed = 1 ∧ sel.grace then { l with killed := 2 } else l
  { l with reaped := l.reaped || sel.reaped }

def liveTail (cfg : Cfg) (o : Answers) (d : Daemon) (l : Live) (sel : Sel) :
    Daemon :=
  let l := liveWatch cfg l sel
  if l.mode = .job then
    if l.reaped then liveReturn cfg o d l else { d with ctl := .live l }
  else if l.out = none ∧ l.err = none then liveReturn cfg o d l
  else { d with ctl := .live l }

/-- The streaming cap: one notice, then the child is killed. -/
def liveCap (cfg : Cfg) (d : Daemon) (l : Live) : Daemon × Live :=
  if 0 < cfg.maxout ∧ cfg.maxout < l.total ∧ l.capped = false then
    ({ d with
        chan := (lioPutFrame cfg.build.frameMax d.chan Stream.err.tag capNotice).2 },
      { killChild l with capped := true })
  else (d, l)

/-- The pass behind the listen socket: both pipes, the cap, and the session
channel. -/
def livePass (cfg : Cfg) (o : Answers) (d : Daemon) (l : Live) (sel : Sel) :
    Daemon :=
  if l.mode = .job then liveTail cfg o d l sel
  else
    let po := pumpReady cfg d l .out sel.out
    if po.1 then
      let pe := pumpReady cfg po.2.1 po.2.2 .err sel.err
      if pe.1 then
        let capped := liveCap cfg pe.2.1 pe.2.2
        if sel.sess then
          match l.mode with
          | .runi => { capped.1 with ctl := .liveLine capped.2 sel [] }
          | _ => liveLost cfg o capped.1
        else liveTail cfg o capped.1 capped.2 sel
      else liveLost cfg o pe.2.1
    else liveLost cfg o po.2.1

/-! ## What a pass leaves alone -/

/-- The parts of a supervised command that its loop never changes. -/
structure Live.Same (l l' : Live) : Prop where
  mode : l'.mode = l.mode
  env : l'.env = l.env
  jobid : l'.jobid = l.jobid
  child : l'.child = l.child

theorem Live.Same.refl (l : Live) : l.Same l := ⟨rfl, rfl, rfl, rfl⟩

theorem Live.Same.trans
    {l l' l'' : Live} (h : l.Same l') (h' : l'.Same l'') : l.Same l'' :=
  ⟨h'.mode.trans h.mode, h'.env.trans h.env, h'.jobid.trans h.jobid,
    h'.child.trans h.child⟩

theorem same_afterRead
    (l : Live) (s : Stream) (pipe : Option Bytes) (hold : Bytes) (n : ℕ) :
    l.Same (l.afterRead s pipe hold n) := by
  cases s <;> exact ⟨rfl, rfl, rfl, rfl⟩

theorem same_killChild (l : Live) : l.Same (killChild l) := by
  unfold killChild
  split_ifs <;> exact ⟨rfl, rfl, rfl, rfl⟩

theorem same_liveWatch (cfg : Cfg) (l : Live) (sel : Sel) :
    l.Same (liveWatch cfg l sel) := by
  have hcapped : l.Same { killChild l with capped := true } :=
    (same_killChild l).trans ⟨rfl, rfl, rfl, rfl⟩
  unfold liveWatch
  dsimp only
  split_ifs
  · exact hcapped.trans ⟨rfl, rfl, rfl, rfl⟩
  · exact hcapped.trans ⟨rfl, rfl, rfl, rfl⟩
  · exact ⟨rfl, rfl, rfl, rfl⟩
  · exact ⟨rfl, rfl, rfl, rfl⟩

theorem killChild_pipes (l : Live) :
    (killChild l).out = l.out ∧ (killChild l).err = l.err := by
  unfold killChild
  split_ifs <;> exact ⟨rfl, rfl⟩

theorem liveWatch_pipes (cfg : Cfg) (l : Live) (sel : Sel) :
    (liveWatch cfg l sel).out = l.out ∧ (liveWatch cfg l sel).err = l.err := by
  unfold liveWatch
  dsimp only
  split_ifs <;> first | exact killChild_pipes l | exact ⟨rfl, rfl⟩

theorem liveCap_pipes (cfg : Cfg) (d : Daemon) (l : Live) :
    (liveCap cfg d l).2.out = l.out ∧ (liveCap cfg d l).2.err = l.err := by
  unfold liveCap
  split_ifs
  · exact killChild_pipes l
  · exact ⟨rfl, rfl⟩

/-- `pump` touches nothing but the channel and its own pipe. -/
structure Pumped (d : Daemon) (l : Live) (r : Daemon × Live) : Prop where
  daemon : r.1 = { d with chan := r.1.chan }
  kind : r.1.chan.kind = d.chan.kind
  steady : d.chan.Steady → r.1.chan.Steady
  same : l.Same r.2

theorem Pumped.trans
    {d : Daemon} {l : Live} {r r' : Daemon × Live} (h : Pumped d l r)
    (h' : Pumped r.1 r.2 r') : Pumped d l r' := by
  refine ⟨?_, h'.kind.trans h.kind, fun hd => h'.steady (h.steady hd),
    h.same.trans h'.same⟩
  rw [h'.daemon, h.daemon]

theorem pumped_pump
    (cfg : Cfg) (d : Daemon) (l : Live) (s : Stream) (rest : Bytes) (k : ℕ) :
    Pumped d l (pump cfg d l s rest k).2 := by
  unfold pump
  dsimp only
  split_ifs
  · exact ⟨rfl, rfl, id, same_afterRead ..⟩
  · split
    · exact ⟨rfl, rfl, id, same_afterRead ..⟩
    · split_ifs
      · exact ⟨rfl, rfl, id, same_afterRead ..⟩
      · exact ⟨rfl, by simp, fun hd => lioPutFrame_steady hd _ _ _, same_afterRead ..⟩

theorem pumped_pumpReady
    (cfg : Cfg) (d : Daemon) (l : Live) (s : Stream) (ready : Option ℕ) :
    Pumped d l (pumpReady cfg d l s ready).2 := by
  unfold pumpReady
  split
  · exact pumped_pump ..
  · exact ⟨rfl, rfl, id, .refl l⟩

theorem pumped_liveCap (cfg : Cfg) (d : Daemon) (l : Live) :
    Pumped d l (liveCap cfg d l) := by
  unfold liveCap
  split_ifs
  · have hsame : l.Same { killChild l with capped := true } :=
      (same_killChild l).trans ⟨rfl, rfl, rfl, rfl⟩
    exact ⟨rfl, by simp, fun hd => lioPutFrame_steady hd _ _ _, hsame⟩
  · exact ⟨rfl, rfl, id, .refl l⟩

/-! ## Control sessions -/

/-- `ctl_session` with a line read: whether it goes on, and its state. -/
def ctlLine (cfg : Cfg) (busy : ℕ) (cs : CtlSess) (buf : Bytes) :
    Bool × CtlSess :=
  let line := cutAt sp (cstr buf)
  let answer (w : Bool × Chan) : Bool × CtlSess := (w.1, ⟨true, [], w.2⟩)
  if cs.authed then
    if line.1 = ascii "PING" then answer (lioPutLine cs.chan (ascii "OK"))
    else if line.1 = ascii "STAT" then
      answer (lioPutLine cs.chan (ascii "OK busy " ++ decimal busy))
    else if line.1 = ascii "QUIT" then
      (false, ⟨true, [], (lioPutLine cs.chan (ascii "OK")).2⟩)
    else answer (lioPutLine cs.chan (ascii "ERR 409 busy"))
  else
    let w := handleAuth cfg cs.chan line.1 line.2
    (w.1, ⟨w.1, [], w.2⟩)

def ctlRx (cfg : Cfg) (busy : ℕ) (cs : CtlSess) (b : Byte) : Bool × CtlSess :=
  match lioGetByte lineMax cs.buf b with
  | .more buf' => (true, { cs with buf := buf' })
  | .ok line => ctlLine cfg busy cs line
  | .elong => (false, cs)

def ctlSession (cfg : Cfg) (plan : List (Option ℕ)) : Bool × CtlSess :=
  let w := lioPutLine ⟨.tcp, ⟨plan, []⟩⟩ (greeting cfg)
  (w.1, ⟨false, [], w.2⟩)

/-- `select` returned: a waiting connection is served first. -/
def liveSelect (cfg : Cfg) (o : Answers) (d : Daemon) (l : Live) (sel : Sel) :
    Daemon :=
  match sel.ls with
  | some (peer, plan) =>
      if cfg.build.live && cfg.kind = .tcp && cfg.peerOk peer then
        if (ctlSession cfg plan).1 then
          { d with ctl := .liveCtl l sel (ctlSession cfg plan).2 }
        else livePass cfg o d l sel
      else livePass cfg o d l sel
  | none => livePass cfg o d l sel

/-! ## Client frames during RUNI -/

/-- The write loop of `runi_frame`; a failed write closes the pipe. -/
def writeStdin (l : Live) (data : Bytes) : Live :=
  match l.inp with
  | none => l
  | some pipe =>
      if l.killed = 0 then
        let w := pipe.writeAll data
        { l with inp := if w.1 then some w.2 else none }
      else l

theorem same_writeStdin (l : Live) (data : Bytes) :
    l.Same (writeStdin l data) := by
  unfold writeStdin
  split
  · exact .refl l
  · split_ifs
    · exact ⟨rfl, rfl, rfl, rfl⟩
    · exact .refl l

/-- `runi_frame` with a header line read. -/
def runiFrame (cfg : Cfg) (o : Answers) (d : Daemon) (l : Live) (sel : Sel)
    (line : Bytes) : Daemon :=
  match line with
  | [75] => liveTail cfg o d (killChild l) sel
  | 73 :: 32 :: num =>
      let n := atol num
      if n < 0 ∨ (cfg.build.frameMax : ℤ) < n then liveLost cfg o d
      else if n = 0 then liveTail cfg o d { l with inp := none } sel
      else { d with ctl := .liveData l sel n.toNat [] }
  | _ => liveLost cfg o d

/-! ## Steps -/

/-- A byte arrives on the channel that the daemon is reading. -/
def rx (cfg : Cfg) (o : Answers) (d : Daemon) (b : Byte) : Daemon :=
  match d.ctl with
  | .accept => d
  | .hello buf =>
      match lioGetByte lineMax buf b with
      | .more buf' => { d with ctl := .hello buf' }
      | .ok line =>
          if cstr line = ascii "HELLO" then sessionRun cfg o d
          else { d with ctl := .hello [] }
      | .elong => { d with ctl := .hello [] }
  | .session authed env buf =>
      match lioGetByte lineMax buf b with
      | .more buf' => { d with ctl := .session authed env buf' }
      | .ok line => sessionLine cfg o d authed env line
      | .elong =>
          sessionReturn cfg o
            { d with chan := (lioPutLine d.chan (ascii "ERR 400 protocol violation")).2 }
  | .putHdr env put buf =>
      match lioGetByte 48 buf b with
      | .more buf' => { d with ctl := .putHdr env put buf' }
      | .ok line => doPutHeader cfg o d env put (cstr line)
      | .elong => putAbort cfg o d put none
  | .putData env put len buf =>
      if (buf ++ [b]).length < len then
        { d with ctl := .putData env put len (buf ++ [b]) }
      else doPutData cfg o d env put (buf ++ [b])
  | .live _ => d
  | .liveLine l sel buf =>
      match lioGetByte lineMax buf b with
      | .more buf' => { d with ctl := .liveLine l sel buf' }
      | .ok line => runiFrame cfg o d l sel (cstr line)
      | .elong => liveLost cfg o d
  | .liveData l sel len buf =>
      if (buf ++ [b]).length < len then
        { d with ctl := .liveData l sel len (buf ++ [b]) }
      else liveTail cfg o d (writeStdin l (buf ++ [b])) sel
  | .liveCtl l sel cs =>
      if (ctlRx cfg l.jobid cs b).1 then
        { d with ctl := .liveCtl l sel (ctlRx cfg l.jobid cs b).2 }
      else livePass cfg o d l sel
  | .down => d

/-- The channel that the daemon is reading fails. -/
def hup (cfg : Cfg) (o : Answers) (d : Daemon) : Daemon :=
  match d.ctl with
  | .accept => d
  | .hello _ => { d with ctl := .down }
  | .session _ _ _ => sessionReturn cfg o d
  | .putHdr _ put _ => putAbort cfg o d put none
  | .putData _ put _ _ => putAbort cfg o d put none
  | .live _ => d
  | .liveLine _ _ _ => liveLost cfg o d
  | .liveData _ _ _ _ => liveLost cfg o d
  | .liveCtl l sel _ => livePass cfg o d l sel
  | .down => d

def step (cfg : Cfg) (d : Daemon) : Ev → Daemon
  | .accept peer plan o =>
      match d.ctl with
      | .accept =>
          if cfg.peerOk peer then
            sessionRun cfg o { d with chan := ⟨.tcp, ⟨plan, []⟩⟩ }
          else d
      | _ => d
  | .rx b o => rx cfg o d b
  | .hup o => hup cfg o d
  | .select sel o =>
      match d.ctl with
      | .live l => liveSelect cfg o d l sel
      | _ => d

def run (cfg : Cfg) (d : Daemon) (evs : List Ev) : Daemon :=
  evs.foldl (step cfg) d

@[simp] theorem run_nil (cfg : Cfg) (d : Daemon) : run cfg d [] = d := rfl

@[simp] theorem run_cons (cfg : Cfg) (d : Daemon) (ev : Ev) (evs : List Ev) :
    run cfg d (ev :: evs) = run cfg (step cfg d ev) evs := rfl

/-- Bytes received one after the other, the calls of each answered by `o`. -/
def feed (cfg : Cfg) (o : Answers) (d : Daemon) (bytes : Bytes) : Daemon :=
  bytes.foldl (rx cfg o) d

@[simp] theorem feed_nil (cfg : Cfg) (o : Answers) (d : Daemon) :
    feed cfg o d [] = d := rfl

@[simp] theorem feed_cons
    (cfg : Cfg) (o : Answers) (d : Daemon) (b : Byte) (bytes : Bytes) :
    feed cfg o d (b :: bytes) = feed cfg o (rx cfg o d b) bytes := rfl

theorem feed_append
    (cfg : Cfg) (o : Answers) (d : Daemon) (s t : Bytes) :
    feed cfg o d (s ++ t) = feed cfg o (feed cfg o d s) t :=
  List.foldl_append

theorem feed_eq_run (cfg : Cfg) (o : Answers) (d : Daemon) (bytes : Bytes) :
    feed cfg o d bytes = run cfg d (bytes.map fun b => .rx b o) := by
  induction bytes generalizing d with
  | nil => rfl
  | cons b bytes ih => simpa [step] using ih (rx cfg o d b)

/-! ## Whole lines in the command loop -/

/-- A control point that reads a line of at most `size - 1` bytes. -/
structure Reader (cfg : Cfg) (size : ℕ) (ctl : Bytes → Ctl) : Prop where
  idle : ∀ buf l, ctl buf ≠ .live l
  more : ∀ (d : Daemon) (o : Answers) (b : Byte) (buf buf' : Bytes),
    d.ctl = ctl buf → lioGetByte size buf b = .more buf' →
    rx cfg o d b = { d with ctl := ctl buf' }

theorem reader_hello (cfg : Cfg) : Reader cfg lineMax .hello := by
  refine ⟨by simp, ?_⟩
  intro d o b buf buf' hctl hmore
  simp only [rx, hctl, hmore]

theorem reader_session (cfg : Cfg) (authed : Bool) (env : List EnvEntry) :
    Reader cfg lineMax (.session authed env) := by
  refine ⟨by simp, ?_⟩
  intro d o b buf buf' hctl hmore
  simp only [rx, hctl, hmore]

theorem reader_putHdr (cfg : Cfg) (env : List EnvEntry) (put : Put) :
    Reader cfg 48 (.putHdr env put) := by
  refine ⟨by simp, ?_⟩
  intro d o b buf buf' hctl hmore
  simp only [rx, hctl, hmore]

theorem reader_liveLine (cfg : Cfg) (l : Live) (sel : Sel) :
    Reader cfg lineMax (.liveLine l sel) := by
  refine ⟨by simp, ?_⟩
  intro d o b buf buf' hctl hmore
  simp only [rx, hctl, hmore]

theorem Reader.feed_text
    {cfg : Cfg} {size : ℕ} {ctl : Bytes → Ctl} (h : Reader cfg size ctl)
    (o : Answers) {d : Daemon} {buf : Bytes} (hctl : d.ctl = ctl buf)
    {line : Bytes} (hclean : LineClean line)
    (hfits : buf.length + line.length < size) :
    feed cfg o d line = { d with ctl := ctl (buf ++ line) } := by
  induction line generalizing d buf with
  | nil =>
      rw [List.append_nil, ← hctl]
      rfl
  | cons b line ih =>
      have hlf : b ≠ lf := fun hb => hclean.1 (by simp [hb])
      have hcr : b ≠ cr := fun hb => hclean.2 (by simp [hb])
      have hline : LineClean line :=
        ⟨fun hb => hclean.1 (by simp [hb]), fun hb => hclean.2 (by simp [hb])⟩
      simp only [List.length_cons] at hfits
      have hmore : lioGetByte size buf b = .more (buf ++ [b]) :=
        lioGetByte_clean hcr hlf (by omega)
      have hend := ih (d := { d with ctl := ctl (buf ++ [b]) }) rfl hline (by
        simp only [List.length_append, List.length_singleton]
        omega)
      rw [feed_cons, h.more d o b buf _ hctl hmore, hend]
      simp

theorem feed_session_line
    (cfg : Cfg) (o : Answers) {d : Daemon} {authed : Bool} {env : List EnvEntry}
    (hctl : d.ctl = .session authed env []) {line : Bytes}
    (hclean : LineClean line) (hsize : line.length < lineMax) :
    feed cfg o d (line ++ [lf]) =
      sessionLine cfg o { d with ctl := .session authed env line } authed env
        line := by
  rw [feed_append, (reader_session cfg authed env).feed_text o hctl hclean (by
    simpa using hsize)]
  simp only [List.nil_append, feed_cons, feed_nil, rx, lioGetByte_lf]

/-! ## A small configuration -/

def smallCfg : Cfg where
  build := ⟨true, false, false, false, false⟩
  cv := none
  kind := .tcp
  osTag := ascii "os"
  host := ascii "h"
  token := ascii "t"
  async := true
  live := false
  ix := false
  maxout := 0
  outf := ascii "o"
  errf := ascii "e"
  rof := ascii "ro"
  ref := ascii "re"
  peerOk := fun _ => true
  resolve := fun _ path => path

def rxAll (o : Answers) (bytes : Bytes) : List Ev := bytes.map fun b => .rx b o

def newPeer : Ev := .accept [] [] {}

end GrandCross
