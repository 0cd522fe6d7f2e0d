import GrandCross.WireFormat
import GrandCross.Exec

/-!
# State of the daemon

The configuration fixed at startup (`session_init` and the compile-time
switches), the records `session.h` shares between sessions, and the places
where the single-threaded daemon waits.  The daemon is a machine over
events: a received byte, a failed read, a new connection, or one pass of
the `select` loop that supervises a running command.
-/

namespace GrandCross

open CText
open Transfer

/-- Compile-time switches of a daemon build. -/
structure Build where
  dos : Bool
  next : Bool
  win32 : Bool
  live : Bool
  ix : Bool
  deriving DecidableEq

def Build.frameMax (b : Build) : ℕ := if b.dos then 1024 else 4096

def Build.envMax (b : Build) : ℕ := if b.dos then 16 else 32

def Build.tmpSep (b : Build) : Bytes :=
  if b.win32 || b.dos then ascii "\\" else ascii "/"

def Build.wireUtf8 (b : Build) : Bool := !(b.dos || b.next)

/-- Text conversion as the session uses it: `txt_out` and `txt_flush` with
the bytes held back between calls, and `txt_in` on a whole line. -/
structure TextCv where
  out : Bytes → Bytes → Option (Bytes × Bytes)
  flush : Bytes → Bytes
  inLine : Bytes → Option Bytes

structure Cfg where
  build : Build
  /-- Conversion, when this build has it and `txt_active()`. -/
  cv : Option TextCv
  kind : ChanKind
  osTag : Bytes
  host : Bytes
  token : Bytes
  async : Bool
  live : Bool
  ix : Bool
  maxout : ℕ
  outf : Bytes
  errf : Bytes
  rof : Bytes
  ref : Bytes
  /-- `session_peer_ok`. -/
  peerOk : Bytes → Bool
  /-- The file that a path names from a working directory. -/
  resolve : Bytes → Bytes → Bytes

def pathBuf : ℕ := 256

def tokMax : ℕ := 255

def isSep (b : Byte) : Bool := b = 47 || b = 92

def joinTmp (b : Build) (dir name : Bytes) : Bytes :=
  let dst := (gcdsStrlcpy dir pathBuf).1
  let dst :=
    match dst.getLast? with
    | none => dst
    | some c => if isSep c then dst else (gcdsStrlcat dst b.tmpSep pathBuf).1
  (gcdsStrlcat dst name pathBuf).1

def sessionInit (cfg : Cfg) (tmpdir token : Bytes)
    (advAsync liveOk ixOk : Bool) : Cfg :=
  { cfg with
    token := (gcdsStrlcpy token (tokMax + 1)).1
    async := advAsync
    live := liveOk
    ix := ixOk
    outf := joinTmp cfg.build tmpdir (ascii "gcds_out.tmp")
    errf := joinTmp cfg.build tmpdir (ascii "gcds_err.tmp")
    rof := joinTmp cfg.build tmpdir (ascii "gcds_ro.tmp")
    ref := joinTmp cfg.build tmpdir (ascii "gcds_re.tmp") }

def greeting (cfg : Cfg) : Bytes :=
  let parts : List Bytes :=
    [ascii "GCDS 1 ", cfg.osTag, ascii " ", cfg.host] ++
      (if cfg.async then [ascii " ASYNC"] else []) ++
      (if cfg.live then [ascii " LIVE"] else []) ++
      (if cfg.ix then [ascii " INTERACTIVE"] else []) ++
      (if cfg.build.wireUtf8 then [ascii " UTF8"] else [])
  parts.foldl (fun greet part => (gcdsStrlcat greet part lineMax).1) []

structure Job where
  pending : Bool
  jobid : ℕ
  cmd : Bytes
  env : List EnvEntry
  deriving DecidableEq

structure Res where
  valid : Bool
  jobid : ℕ
  code : ℕ
  deriving DecidableEq

/-- What the operating system answers to the calls one event leads to. -/
structure Answers where
  chdir : Option Bytes := none
  create : Bool := true
  openOut : Bool := true
  openErr : Bool := true
  fread : List (Option ℕ) := []
  fwrite : Bool := true
  fclose : Bool := true
  child : Option Child := none
  deriving DecidableEq

/-- What one pass of the supervision loop finds: a connection on the listen
socket, readable pipes (with the size of the read), a readable session
channel, the size of the capture files, the kill grace and `waitpid`. -/
structure Sel where
  ls : Option (Bytes × List (Option ℕ)) := none
  out : Option ℕ := none
  err : Option ℕ := none
  sess : Bool := false
  size : ℕ := 0
  grace : Bool := false
  reaped : Bool := false
  deriving DecidableEq

inductive LiveMode where
  | run
  | runi
  | job
  deriving DecidableEq, Repr

/-- The locals of `live_exec`.  A pipe is `none` once it is closed and holds
the bytes still to be read while it is open. -/
structure Live where
  mode : LiveMode
  env : List EnvEntry
  jobid : ℕ
  child : Child
  out : Option Bytes
  err : Option Bytes
  inp : Option Sink
  killed : ℕ
  reaped : Bool
  total : ℕ
  capped : Bool
  holdOut : Bytes
  holdErr : Bytes
  deriving DecidableEq

structure CtlSess where
  authed : Bool
  buf : Bytes
  chan : Chan
  deriving DecidableEq

structure Put where
  path : Bytes
  total : ℕ
  deriving DecidableEq

/-- Where the daemon waits.  `buf` holds the part of a line or block that
has arrived. -/
inductive Ctl where
  /-- `serve_tcp`: `net_accept`. -/
  | accept
  /-- `serve_serial`: the HELLO attention wait. -/
  | hello (buf : Bytes)
  /-- `session_run`: the read at the head of the command loop. -/
  | session (authed : Bool) (env : List EnvEntry) (buf : Bytes)
  /-- `do_put`: a D header. -/
  | putHdr (env : List EnvEntry) (put : Put) (buf : Bytes)
  /-- `do_put`: the payload of a D frame of `len` bytes. -/
  | putData (env : List EnvEntry) (put : Put) (len : ℕ) (buf : Bytes)
  /-- `live_exec`: `select`. -/
  | live (l : Live)
  /-- `live_exec`: the header line of an I or K frame. -/
  | liveLine (l : Live) (sel : Sel) (buf : Bytes)
  /-- `runi_frame`: the payload of an I frame of `len` bytes. -/
  | liveData (l : Live) (sel : Sel) (len : ℕ) (buf : Bytes)
  /-- `live_exec`: a control session. -/
  | liveCtl (l : Live) (sel : Sel) (cs : CtlSess)
  /-- `serve_serial` has returned. -/
  | down
  deriving DecidableEq

/-- The code of a finished job, what its child wrote and in which order. -/
structure Captured where
  code : ℕ
  out : Bytes
  err : Bytes
  order : List Bool
  deriving DecidableEq

/-- What the daemon does that outlives a reply. -/
inductive Obs where
  | sessionStart
  | auth
  | chdir (path dir : Bytes)
  | fopen (path : Bytes)
  | create (path : Bytes)
  | append (path data : Bytes)
  | unlink (path : Bytes)
  | run (mode : LiveMode) (cmd : Bytes) (env : List EnvEntry)
  | runa (jobid : ℕ) (cmd : Bytes) (env : List EnvEntry)
  | sessionEnd
  | jobStart (jobid : ℕ) (cmd : Bytes) (env : List EnvEntry)
  | jobEnd (jobid : ℕ) (result : Option Captured)
  deriving DecidableEq

structure Daemon where
  ctl : Ctl
  chan : Chan
  res : Res
  job : Job
  /-- The static counter of `next_jobid`. -/
  lastJob : ℕ
  cwd : Bytes
  files : Bytes → Option Bytes
  log : List Obs

def Daemon.note (d : Daemon) (o : Obs) : Daemon :=
  { d with log := d.log ++ [o] }

/-- Where the owner of a session waits for the next one. -/
def idleCtl (cfg : Cfg) : Ctl :=
  match cfg.kind with
  | .tcp => .accept
  | .ser => .hello []

def noJob : Job := ⟨false, 0, [], []⟩

/-- A daemon that has just entered `serve_tcp` or `serve_serial`. -/
def Daemon.init (cfg : Cfg) (plan : List (Option ℕ)) (cwd : Bytes)
    (files : Bytes → Option Bytes) : Daemon where
  ctl := idleCtl cfg
  chan := ⟨cfg.kind, ⟨plan, []⟩⟩
  res := ⟨false, 0, 0⟩
  job := noJob
  lastJob := 0
  cwd := cwd
  files := files
  log := []

inductive Ev where
  /-- `net_accept` in `serve_tcp` returns a connection. -/
  | accept (peer : Bytes) (plan : List (Option ℕ)) (o : Answers)
  /-- The channel being read delivers a byte. -/
  | rx (b : Byte) (o : Answers)
  /-- The channel being read fails or ends. -/
  | hup (o : Answers)
  /-- One pass of the supervision loop. -/
  | select (sel : Sel) (o : Answers)

end GrandCross
