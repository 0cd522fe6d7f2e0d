import GrandCross.SessionState

/-!
# One session

`session.c`: the replies of every command, the file transfers and the
capture files, and the owner's side of a session end (`run_pending` in
`main.c`).  Each handler takes the daemon to the next place where it waits.
-/

namespace GrandCross

open CText
open Transfer

/-! ## After a session: the pending job -/

/-- A child's two output files.  When both paths name one file, it is opened
twice and each stream writes from its own offset. -/
def captureFiles (cfg : Cfg) (cwd : Bytes) (files : Bytes → Option Bytes)
    (pout perr : Bytes) (order : List Bool) (out err : Bytes) : Bytes → Option Bytes :=
  let fo := cfg.resolve cwd pout
  let fe := cfg.resolve cwd perr
  if fo = fe then
    Function.update files fo (some (sharedFile order out err))
  else Function.update (Function.update files fo (some out)) fe (some err)

/-- The tail of `run_pending`, once the job's code is known. -/
def jobFinish (cfg : Cfg) (d : Daemon) (jobid : ℕ)
    (result : Option Captured) : Daemon :=
  match result with
  | none =>
      { d with
        ctl := idleCtl cfg
        res := { d.res with valid := false }
        log := d.log ++ [.jobEnd jobid none] }
  | some r =>
      { d with
        ctl := idleCtl cfg
        res := ⟨true, jobid, r.code⟩
        files := captureFiles cfg d.cwd d.files cfg.rof cfg.ref r.order r.out r.err
        log := d.log ++ [.jobEnd jobid (some r)] }

def Child.captured (child : Child) : Captured :=
  ⟨child.status.code, child.out, child.err, child.order⟩

/-- `open(path, O_WRONLY | O_CREAT | O_TRUNC)`. -/
def openTrunc (cfg : Cfg) (d : Daemon) (ok : Bool) (path : Bytes) : Daemon :=
  if ok then
    { d with
      files := Function.update d.files (cfg.resolve d.cwd path) (some [])
      log := d.log ++ [.create path] }
  else d

def unlink (cfg : Cfg) (d : Daemon) (path : Bytes) : Daemon :=
  { d with
    files := Function.update d.files (cfg.resolve d.cwd path) none
    log := d.log ++ [.unlink path] }

def Live.start (mode : LiveMode) (env : List EnvEntry) (jobid : ℕ)
    (child : Child) : Live where
  mode := mode
  env := env
  jobid := jobid
  child := child
  out := if mode = .job then none else some child.out
  err := if mode = .job then none else some child.err
  inp := if mode = .runi then some ⟨child.stdin, []⟩ else none
  killed := 0
  reaped := false
  total := 0
  capped := false
  holdOut := []
  holdErr := []

/-- `live_exec(LIVE_JOB, ...)` up to its first `select`. -/
def liveExecJob (cfg : Cfg) (o : Answers) (d : Daemon) (job : Job) : Daemon :=
  match buildScript scriptMax job.cmd job.env with
  | none => jobFinish cfg d job.jobid none
  | some _ =>
      let d := openTrunc cfg (openTrunc cfg d o.openOut cfg.rof) o.openErr cfg.ref
      if o.openOut && o.openErr then
        match o.child with
        | none => jobFinish cfg d job.jobid none
        | some child => { d with ctl := .live (Live.start .job [] job.jobid child) }
      else jobFinish cfg d job.jobid none

def runPending (cfg : Cfg) (o : Answers) (d : Daemon) : Daemon :=
  if d.job.pending then
    let job := d.job
    let d :=
      { d with
        job := { job with pending := false }
        log := d.log ++ [.jobStart job.jobid job.cmd job.env] }
    if cfg.build.live then liveExecJob cfg o d job
    else
      match o.child with
      | none => jobFinish cfg d job.jobid none
      | some child => jobFinish cfg d job.jobid (some child.captured)
  else { d with ctl := idleCtl cfg }

/-- `return` from `session_run`; the owner then runs the pending job. -/
def sessionReturn (cfg : Cfg) (o : Answers) (d : Daemon) : Daemon :=
  runPending cfg o (d.note .sessionEnd)

/-! ## Replies -/

/-- `if (lio_put_line(c, msg) != LIO_OK) return;` at the end of a branch of
the command loop. -/
def reply (cfg : Cfg) (o : Answers) (d : Daemon) (env : List EnvEntry)
    (msg : Bytes) : Daemon :=
  if (lioPutLine d.chan msg).1 then
    { d with chan := (lioPutLine d.chan msg).2, ctl := .session true env [] }
  else sessionReturn cfg o { d with chan := (lioPutLine d.chan msg).2 }

def capNotice : Bytes :=
  lf :: ascii "[gcdsd: output truncated at cap]" ++ [lf]

/-- `txt_out` where this build converts, the bytes themselves elsewhere. -/
def convertOut (cfg : Cfg) (hold data : Bytes) : Option (Bytes × Bytes) :=
  match cfg.cv with
  | none => some (hold, data)
  | some cv => cv.out hold data

/-- `send_file` reaches the cap: what still fits, then the notice. -/
def sendCapped (cfg : Cfg) (tag : Byte) (data : Bytes) (sent : ℕ) (c : Chan) :
    Bool × Chan × ℕ :=
  let n := cfg.maxout - sent
  let w :=
    if 0 < n then lioPutFrame cfg.build.frameMax c tag (data.take n)
    else (true, c)
  if w.1 then
    (true, (lioPutFrame cfg.build.frameMax w.2 Stream.err.tag capNotice).2,
      sent + n)
  else (false, w.2, sent)

/-- The loop of `send_file` over the results of `fread`: success, the
channel and the bytes sent so far. -/
def sendReads (cfg : Cfg) (tag : Byte) :
    List Bytes → Chan → ℕ → Bytes → Bool × Chan × ℕ
  | [], c, sent, hold =>
      match cfg.cv with
      | none => (true, c, sent)
      | some cv =>
          if 0 < (cv.flush hold).length then
            let w := lioPutFrame cfg.build.frameMax c tag (cv.flush hold)
            (w.1, w.2, sent + (cv.flush hold).length)
          else (true, c, sent)
  | piece :: rest, c, sent, hold =>
      match convertOut cfg hold piece with
      | none => (false, c, sent)
      | some (hold', data) =>
          if data = [] then sendReads cfg tag rest c sent hold'
          else if 0 < cfg.maxout ∧ cfg.maxout < sent + data.length then
            sendCapped cfg tag data sent c
          else
            let w := lioPutFrame cfg.build.frameMax c tag data
            if w.1 then sendReads cfg tag rest w.2 (sent + data.length) hold'
            else (false, w.2, sent)

/-- `send_file`; an absent file is no output. -/
def sendFile (cfg : Cfg) (d : Daemon) (c : Chan) (tag : Byte) (path : Bytes)
    (sent : ℕ) : Bool × Chan × ℕ :=
  match d.files (cfg.resolve d.cwd path) with
  | none => (true, c, sent)
  | some content => sendReads cfg tag (pieces (chanChunk c) content) c sent []

def sendCapture (cfg : Cfg) (d : Daemon) (pout perr : Bytes) : Bool × Chan :=
  let r := sendFile cfg d d.chan Stream.out.tag pout 0
  if r.1 then
    let r' := sendFile cfg d r.2.1 Stream.err.tag perr r.2.2
    (r'.1, r'.2.1)
  else (false, r.2.1)

/-- A captured result: both files, then the X line. -/
def replyCapture (cfg : Cfg) (o : Answers) (d : Daemon) (env : List EnvEntry)
    (sent : Bool × Chan) (code : ℕ) : Daemon :=
  if sent.1 then reply cfg o { d with chan := sent.2 } env (exitLine code)
  else sessionReturn cfg o { d with chan := sent.2 }

/-! ## Running a command -/

def liveExec (cfg : Cfg) (o : Answers) (d : Daemon) (mode : LiveMode)
    (env : List EnvEntry) (cmd : Bytes) : Daemon :=
  match buildScript scriptMax cmd env with
  | none => reply cfg o d env (ascii "ERR 500 exec failed")
  | some _ =>
      match o.child with
      | none => reply cfg o d env (ascii "ERR 500 exec failed")
      | some child => { d with ctl := .live (Live.start mode env 0 child) }

/-- RUN on a build without supervision: `run_command` into the capture
files. -/
def runBlocking (cfg : Cfg) (o : Answers) (d : Daemon) (env : List EnvEntry) :
    Daemon :=
  match o.child with
  | none =>
      reply cfg o (unlink cfg (unlink cfg d cfg.outf) cfg.errf) env
        (ascii "ERR 500 exec failed")
  | some child =>
      let ran :=
        { d with
          files := captureFiles cfg d.cwd d.files cfg.outf cfg.errf child.order child.out
            child.err }
      let sent := sendCapture cfg ran cfg.outf cfg.errf
      replyCapture cfg o (unlink cfg (unlink cfg ran cfg.outf) cfg.errf) env sent
        child.status.code

def acceptRun (d : Daemon) (mode : LiveMode) (cmd : Bytes)
    (env : List EnvEntry) : Daemon :=
  { d with
    res := { d.res with valid := false }
    log := d.log ++ [.run mode cmd env] }

def nextJobid (last : ℕ) : ℕ := if jobMax < last + 1 then 1 else last + 1

def acceptRuna (d : Daemon) (cmd : Bytes) (env : List EnvEntry) : Daemon :=
  let id := nextJobid d.lastJob
  { d with
    res := { d.res with valid := false }
    job := ⟨true, id, (gcdsStrlcpy cmd lineMax).1, env⟩
    lastJob := id
    log := d.log ++ [.runa id cmd env] }

/-! ## File transfer -/

def doPut (cfg : Cfg) (o : Answers) (d : Daemon) (env : List EnvEntry)
    (path : Option Bytes) : Daemon :=
  match path with
  | none => reply cfg o d env (ascii "ERR 400 missing path")
  | some [] => reply cfg o d env (ascii "ERR 400 missing path")
  | some (b :: p) =>
      if o.create then
        let d := openTrunc cfg d true (b :: p)
        let w := lioPutLine d.chan (ascii "OK")
        if w.1 then
          { d with chan := w.2, ctl := .putHdr env ⟨b :: p, 0⟩ [] }
        else sessionReturn cfg o { d with chan := w.2 }
      else reply cfg o d env (ascii "ERR 404 cannot create")

/-- `do_put` gives up on the stream: the file goes, the session ends. -/
def putAbort (cfg : Cfg) (o : Answers) (d : Daemon) (put : Put)
    (msg : Option Bytes) : Daemon :=
  let d := unlink cfg d put.path
  match msg with
  | none => sessionReturn cfg o d
  | some m => sessionReturn cfg o { d with chan := (lioPutLine d.chan m).2 }

def doPutHeader (cfg : Cfg) (o : Answers) (d : Daemon) (env : List EnvEntry)
    (put : Put) (line : Bytes) : Daemon :=
  match line with
  | 68 :: 32 :: num =>
      let len := atol num
      if len = 0 then
        if o.fclose then reply cfg o d env (ascii "OK " ++ decimal put.total)
        else
          reply cfg o (unlink cfg d put.path) env (ascii "ERR 500 write failed")
      else if len < 0 ∨ (cfg.build.frameMax : ℤ) < len then
        putAbort cfg o d put (some (ascii "ERR 400 bad frame length"))
      else { d with ctl := .putData env put len.toNat [] }
  | _ => putAbort cfg o d put (some (ascii "ERR 400 expected data frame"))

def doPutData (cfg : Cfg) (o : Answers) (d : Daemon) (env : List EnvEntry)
    (put : Put) (data : Bytes) : Daemon :=
  if 0 < cfg.maxout ∧ cfg.maxout < put.total + data.length then
    reply cfg o (unlink cfg d put.path) env (ascii "ERR 413 too large")
  else if o.fwrite then
    let f := cfg.resolve d.cwd put.path
    { d with
      files := Function.update d.files f (some ((d.files f).getD [] ++ data))
      log := d.log ++ [.append put.path data]
      ctl := .putHdr env { put with total := put.total + data.length } [] }
  else reply cfg o (unlink cfg d put.path) env (ascii "ERR 500 write failed")

def sendData (cfg : Cfg) : List Bytes → Chan → Bool × Chan
  | [], c => (true, c)
  | piece :: rest, c =>
      let w := lioPutFrame cfg.build.frameMax c 68 piece
      if w.1 then sendData cfg rest w.2 else (false, w.2)

def doGet (cfg : Cfg) (o : Answers) (d : Daemon) (env : List EnvEntry)
    (path : Option Bytes) : Daemon :=
  match path with
  | none => reply cfg o d env (ascii "ERR 400 missing path")
  | some [] => reply cfg o d env (ascii "ERR 400 missing path")
  | some (b :: p) =>
      match d.files (cfg.resolve d.cwd (b :: p)) with
      | none => reply cfg o d env (ascii "ERR 404 no such file")
      | some content =>
          let d := d.note (.fopen (b :: p))
          let w := lioPutLine d.chan (ascii "OK")
          if w.1 then
            let s := sendData cfg (freads (chanChunk w.2) o.fread content) w.2
            if s.1 then reply cfg o { d with chan := s.2 } env (ascii "D 0")
            else sessionReturn cfg o { d with chan := s.2 }
          else sessionReturn cfg o { d with chan := w.2 }

/-! ## The command loop -/

def isAlphaUnderscore (b : Byte) : Bool :=
  (65 ≤ b && b ≤ 90) || (97 ≤ b && b ≤ 122) || b = 95

def envNameOk : Bytes → Bool
  | [] => false
  | b :: rest =>
      isAlphaUnderscore b && rest.all fun c => isAlphaUnderscore c || isDigit c

def envnMax : ℕ := 64

def envvMax : ℕ := 192

/-- Overwrite the entry of the same name, or append one while there is
room. -/
def envSet (max : ℕ) (env : List EnvEntry) (name val : Bytes) :
    Option (List EnvEntry) :=
  let i := env.findIdx fun e => e.name = name
  if i = env.length then
    if max ≤ env.length then none else some (env ++ [⟨name, val⟩])
  else some (env.set i ⟨name, val⟩)

def doEnv (cfg : Cfg) (o : Answers) (d : Daemon) (env : List EnvEntry)
    (arg : Option Bytes) : Daemon :=
  match arg.map (cutAt 61) with
  | some (name, some val) =>
      if envNameOk name && name.length < envnMax && val.length < envvMax then
        match envSet cfg.build.envMax env name val with
        | none => reply cfg o d env (ascii "ERR 431 too many env")
        | some env' => reply cfg o d env' (ascii "OK")
      else reply cfg o d env (ascii "ERR 431 env too long")
  | _ => reply cfg o d env (ascii "ERR 400 bad env")

def doCwd (cfg : Cfg) (o : Answers) (d : Daemon) (env : List EnvEntry)
    (arg : Option Bytes) : Daemon :=
  match arg, o.chdir with
  | some path, some dir =>
      reply cfg o { d with cwd := dir, log := d.log ++ [.chdir path dir] } env
        (ascii "OK")
  | _, _ => reply cfg o d env (ascii "ERR 404 no such directory")

def statLine (r : Res) : Bytes :=
  if r.valid then ascii "OK result " ++ decimal r.jobid else ascii "OK idle"

def doRun (cfg : Cfg) (o : Answers) (d : Daemon) (env : List EnvEntry)
    (arg : Option Bytes) : Daemon :=
  match arg with
  | none => reply cfg o d env (ascii "ERR 400 missing command")
  | some cmd =>
      let d := acceptRun d .run cmd env
      if cfg.build.live then liveExec cfg o d .run env cmd
      else runBlocking cfg o d env

def doRuna (cfg : Cfg) (o : Answers) (d : Daemon) (env : List EnvEntry)
    (arg : Option Bytes) : Daemon :=
  match arg with
  | none => reply cfg o d env (ascii "ERR 400 missing command")
  | some cmd =>
      let d := acceptRuna d cmd env
      -- the reply is sent unchecked: a lost client does not cancel the job
      sessionReturn cfg o
        { d with chan := (lioPutLine d.chan (ascii "OK " ++ decimal d.job.jobid)).2 }

def resultId (arg : Option Bytes) : ℤ :=
  match arg with
  | none => -1
  | some a => atol a

def doResult (cfg : Cfg) (o : Answers) (d : Daemon) (env : List EnvEntry)
    (arg : Option Bytes) : Daemon :=
  if d.res.valid = false ∨ (d.res.jobid : ℤ) ≠ resultId arg then
    reply cfg o d env (ascii "ERR 404 no such result")
  else
    let d := (d.note (.fopen cfg.rof)).note (.fopen cfg.ref)
    replyCapture cfg o d env (sendCapture cfg d cfg.rof cfg.ref) d.res.code

def doRuni (cfg : Cfg) (o : Answers) (d : Daemon) (env : List EnvEntry)
    (arg : Option Bytes) : Daemon :=
  if cfg.build.ix && cfg.ix then
    match arg with
    | none => reply cfg o d env (ascii "ERR 400 missing command")
    | some cmd => liveExec cfg o (acceptRun d .runi cmd env) .runi env cmd
  else reply cfg o d env (ascii "ERR 501 not supported")

inductive Verb where
  | ping
  | stat
  | cwd
  | env
  | run
  | runa
  | result
  | runi
  | put
  | get
  | quit
  | unknown
  deriving DecidableEq, Repr

def verbOf (cmd : Bytes) : Verb :=
  if cmd = ascii "PING" then .ping
  else if cmd = ascii "STAT" then .stat
  else if cmd = ascii "CWD" then .cwd
  else if cmd = ascii "ENV" then .env
  else if cmd = ascii "RUN" then .run
  else if cmd = ascii "RUNA" then .runa
  else if cmd = ascii "RESULT" then .result
  else if cmd = ascii "RUNI" then .runi
  else if cmd = ascii "PUT" then .put
  else if cmd = ascii "GET" then .get
  else if cmd = ascii "QUIT" then .quit
  else .unknown

def sessionCmd (cfg : Cfg) (o : Answers) (d : Daemon) (env : List EnvEntry)
    (verb : Verb) (arg : Option Bytes) : Daemon :=
  match verb with
  | .ping => reply cfg o d env (ascii "OK")
  | .stat => reply cfg o d env (statLine d.res)
  | .cwd => doCwd cfg o d env arg
  | .env => doEnv cfg o d env arg
  | .run => doRun cfg o d env arg
  | .runa => doRuna cfg o d env arg
  | .result => doResult cfg o d env arg
  | .runi => doRuni cfg o d env arg
  | .put => doPut cfg o d env arg
  | .get => doGet cfg o d env arg
  | .quit =>
      sessionReturn cfg o { d with chan := (lioPutLine d.chan (ascii "OK")).2 }
  | .unknown => reply cfg o d env (ascii "ERR 500 unknown command")

/-- `handle_auth`: whether the session may go on, and the channel. -/
def handleAuth (cfg : Cfg) (c : Chan) (cmd : Bytes) (arg : Option Bytes) :
    Bool × Chan :=
  if cmd = ascii "QUIT" then (false, (lioPutLine c (ascii "OK")).2)
  else if cmd ≠ ascii "AUTH" ∨ arg ≠ some cfg.token then
    (false, (lioPutLine c (ascii "ERR 401 auth failed")).2)
  else lioPutLine c (ascii "OK")

/-- The line as the command loop sees it: a C string, converted to the local
encoding where this build converts and the result fits. -/
def sessionText (cfg : Cfg) (buf : Bytes) : Bytes :=
  match cfg.cv with
  | none => cstr buf
  | some cv =>
      match cv.inLine (cstr buf) with
      | none => cstr buf
      | some conv =>
          if 0 < conv.length ∧ conv.length < lineMax then cstr conv
          else cstr buf

/-- `session_run` with a line read. -/
def sessionLine (cfg : Cfg) (o : Answers) (d : Daemon) (authed : Bool)
    (env : List EnvEntry) (buf : Bytes) : Daemon :=
  let line := cutAt sp (sessionText cfg buf)
  if authed then sessionCmd cfg o d env (verbOf line.1) line.2
  else
    let w := handleAuth cfg d.chan line.1 line.2
    if w.1 then
      { d with
        chan := w.2
        ctl := .session true env []
        log := d.log ++ [.auth] }
    else sessionReturn cfg o { d with chan := w.2 }

/-- `session_run` up to its first read. -/
def sessionRun (cfg : Cfg) (o : Answers) (d : Daemon) : Daemon :=
  let d : Daemon :=
    { d with
      job := { d.job with pending := false }
      log := d.log ++ [.sessionStart] }
  let w := lioPutLine d.chan (greeting cfg)
  if w.1 then { d with chan := w.2, ctl := .session false [] [] }
  else sessionReturn cfg o { d with chan := w.2 }

end GrandCross
