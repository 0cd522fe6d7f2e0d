import GrandCross.Service

/-!
# The daemon refines the service

`Inv` ties the daemon to the abstract service: the log replays, and the
state it replays to is the daemon's own slot, job counter, working directory
and files, in the phase that the control point stands for.  Every step of
the daemon keeps it, whatever bytes arrive and whatever the operating system
answers.
-/

namespace GrandCross

open CText
open Transfer

def Res.slot (r : Res) : Option (ℕ × ℕ) :=
  if r.valid then some (r.jobid, r.code) else none

def Live.phase (l : Live) : Phase :=
  if l.mode = .job then .running l.jobid else .session true

theorem Live.Same.phase
    {l l' : Live} (h : l.Same l') : l'.phase = l.phase := by
  simp only [Live.phase, h.mode, h.jobid]

def Ctl.phase : Ctl → Phase
  | .accept => .idle
  | .hello _ => .idle
  | .session authed _ _ => .session authed
  | .putHdr _ _ _ => .session true
  | .putData _ _ _ _ => .session true
  | .live l => l.phase
  | .liveLine l _ _ => l.phase
  | .liveData l _ _ _ => l.phase
  | .liveCtl l _ _ => l.phase
  | .down => .idle

def Daemon.view (d : Daemon) (phase : Phase) : Service :=
  ⟨phase, d.res.slot, d.lastJob, d.cwd, d.files⟩

/-- Where a stretch of a run starts, and the ids that a RUNA may be given on
it. -/
structure Origin where
  log : List Obs
  service : Service
  ids : ℕ → Prop

def Obs.submitted : Obs → Option ℕ
  | .runa jobid _ _ => some jobid
  | _ => none

/-- The log goes on from the origin, and replays to `s`. -/
def Origin.Traces (cfg : Cfg) (s₀ : Origin) (log : List Obs) (s : Service) :
    Prop :=
  ∃ rest, log = s₀.log ++ rest ∧ s₀.service.replay cfg rest = some s ∧
    ∀ o ∈ rest, ∀ jobid ∈ o.submitted, s₀.ids jobid

theorem Origin.Traces.concat
    {cfg : Cfg} {s₀ : Origin} {log : List Obs} {s s' : Service} {o : Obs}
    (h : s₀.Traces cfg log s) (hstep : s.step cfg o = some s')
    (hids : ∀ jobid ∈ o.submitted, s₀.ids jobid) :
    s₀.Traces cfg (log ++ [o]) s' := by
  obtain ⟨rest, rfl, hreplay, hrest⟩ := h
  refine ⟨rest ++ [o], by simp, Service.replay_concat hreplay hstep, ?_⟩
  intro o' ho'
  rcases List.mem_append.mp ho' with hmem | hmem
  · exact hrest o' hmem
  · rw [List.mem_singleton.mp hmem]
    exact hids

/-- The daemon while it handles an event, in a phase of the service. -/
structure Inside (cfg : Cfg) (s₀ : Origin) (d : Daemon) (phase : Phase) :
    Prop where
  traced : s₀.Traces cfg d.log (d.view phase)
  pending : d.job.pending = false
  kind : d.chan.kind = cfg.kind

/-- What holds of the locals at a control point. -/
def Ctl.Ok (cfg : Cfg) : Ctl → Prop
  | .accept => cfg.kind = .tcp
  | .session _ _ buf => buf.length < lineMax
  | .liveLine l _ _ => l.mode = .runi
  | .liveData l _ _ _ => l.mode = .runi
  | _ => True

/-- The daemon where it waits. -/
structure Inv (cfg : Cfg) (s₀ : Origin) (d : Daemon) : Prop where
  inside : Inside cfg s₀ d d.ctl.phase
  ctl : d.ctl.Ok cfg

section Sending

variable (cfg : Cfg)

@[simp] theorem sendCapped_kind
    (tag : Byte) (data : Bytes) (sent : ℕ) (c : Chan) :
    (sendCapped cfg tag data sent c).2.1.kind = c.kind := by
  unfold sendCapped
  dsimp only
  split_ifs <;> simp

@[simp] theorem sendReads_kind
    (tag : Byte) (reads : List Bytes) (c : Chan) (sent : ℕ) (hold : Bytes) :
    (sendReads cfg tag reads c sent hold).2.1.kind = c.kind := by
  induction reads generalizing c sent hold with
  | nil =>
      unfold sendReads
      split
      · rfl
      · split_ifs <;> simp
  | cons piece reads ih =>
      unfold sendReads
      split
      · rfl
      · dsimp only
        split_ifs <;> simp [ih]

@[simp] theorem sendFile_kind
    (d : Daemon) (c : Chan) (tag : Byte) (path : Bytes) (sent : ℕ) :
    (sendFile cfg d c tag path sent).2.1.kind = c.kind := by
  unfold sendFile
  split
  · rfl
  · simp

@[simp] theorem sendCapture_kind (d : Daemon) (pout perr : Bytes) :
    (sendCapture cfg d pout perr).2.kind = d.chan.kind := by
  unfold sendCapture
  dsimp only
  split_ifs <;> simp

@[simp] theorem sendData_kind (pieces : List Bytes) (c : Chan) :
    (sendData cfg pieces c).2.kind = c.kind := by
  induction pieces generalizing c with
  | nil => rfl
  | cons piece pieces ih =>
      unfold sendData
      dsimp only
      split_ifs <;> simp [ih]

end Sending

section Refinement

variable {cfg : Cfg} {s₀ : Origin} {d : Daemon} {phase : Phase}

/-! ## One operation at a time -/

theorem Inside.ctl
    (h : Inside cfg s₀ d phase) (c : Ctl) :
    Inside cfg s₀ { d with ctl := c } phase :=
  ⟨h.traced, h.pending, h.kind⟩

theorem Inside.chan
    (h : Inside cfg s₀ d phase) {c : Chan} (hc : c.kind = d.chan.kind) :
    Inside cfg s₀ { d with chan := c } phase :=
  ⟨h.traced, h.pending, hc.trans h.kind⟩

theorem Inside.op
    (h : Inside cfg s₀ d phase) {d' : Daemon} {phase' : Phase} {o : Obs}
    (hlog : d'.log = d.log ++ [o])
    (hstep : (d.view phase).step cfg o = some (d'.view phase'))
    (ho : o.submitted = none) (hjob : d'.job.pending = false)
    (hchan : d'.chan = d.chan) : Inside cfg s₀ d' phase' := by
  refine ⟨?_, hjob, ?_⟩
  · rw [hlog]
    exact h.traced.concat hstep (by simp [ho])
  · rw [hchan]
    exact h.kind

theorem Inside.fopen
    (h : Inside cfg s₀ d (.session true)) (path : Bytes) :
    Inside cfg s₀ (d.note (.fopen path)) (.session true) :=
  h.op rfl rfl rfl h.pending rfl

theorem Inside.unlink
    (h : Inside cfg s₀ d (.session true)) (path : Bytes) :
    Inside cfg s₀ (unlink cfg d path) (.session true) :=
  h.op rfl rfl rfl h.pending rfl

theorem Inside.openTrunc
    (h : Inside cfg s₀ d phase)
    (hphase : phase = .session true ∨ ∃ jobid, phase = .running jobid)
    (ok : Bool) (path : Bytes) :
    Inside cfg s₀ (openTrunc cfg d ok path) phase := by
  cases ok with
  | false => exact h
  | true =>
      rcases hphase with rfl | ⟨jobid, rfl⟩
      · exact h.op rfl rfl rfl h.pending rfl
      · exact h.op rfl rfl rfl h.pending rfl

theorem Inside.acceptRun
    (h : Inside cfg s₀ d (.session true)) (mode : LiveMode) (cmd : Bytes)
    (env : List EnvEntry) :
    Inside cfg s₀ (acceptRun d mode cmd env) (.session true) :=
  h.op rfl rfl rfl h.pending rfl

/-! ## Where the daemon comes to wait -/

theorem Inside.inv
    (h : Inside cfg s₀ d phase) (c : Ctl) (hphase : c.phase = phase)
    (hok : c.Ok cfg) : Inv cfg s₀ { d with ctl := c } := by
  subst hphase
  exact ⟨h.ctl c, hok⟩

theorem Inside.inv_idle
    (h : Inside cfg s₀ d .idle) : Inv cfg s₀ { d with ctl := idleCtl cfg } := by
  unfold idleCtl
  cases hkind : cfg.kind with
  | tcp => exact h.inv .accept rfl hkind
  | ser => exact h.inv (.hello []) rfl trivial

theorem Inside.inv_session
    (h : Inside cfg s₀ d (.session true)) (env : List EnvEntry) :
    Inv cfg s₀ { d with ctl := .session true env [] } :=
  h.inv _ rfl (by decide : ([] : Bytes).length < lineMax)

theorem Inside.inv_jobFinish
    {jobid : ℕ} (h : Inside cfg s₀ d (.running jobid))
    (result : Option Captured) : Inv cfg s₀ (jobFinish cfg d jobid result) := by
  cases result with
  | none =>
      have hend : Inside cfg s₀
          { d with
            res := { d.res with valid := false }
            log := d.log ++ [.jobEnd jobid none] } .idle :=
        h.op rfl (by simp [Daemon.view, Service.step, Service.finish, Res.slot])
          rfl h.pending rfl
      exact hend.inv_idle
  | some r =>
      have hend : Inside cfg s₀
          { d with
            res := ⟨true, jobid, r.code⟩
            files := captureFiles cfg d.cwd d.files cfg.rof cfg.ref r.order r.out r.err
            log := d.log ++ [.jobEnd jobid (some r)] } .idle :=
        h.op rfl (by simp [Daemon.view, Service.step, Service.finish, Res.slot])
          rfl h.pending rfl
      exact hend.inv_idle

theorem Inside.inv_live
    (h : Inside cfg s₀ d phase) {l : Live} (hl : l.phase = phase) :
    Inv cfg s₀ { d with ctl := .live l } :=
  h.inv _ hl trivial

theorem Inside.inv_liveExecJob
    (job : Job) (h : Inside cfg s₀ d (.running job.jobid)) (o : Answers) :
    Inv cfg s₀ (liveExecJob cfg o d job) := by
  have hout := h.openTrunc (.inr ⟨job.jobid, rfl⟩) o.openOut cfg.rof
  have herr := hout.openTrunc (.inr ⟨job.jobid, rfl⟩) o.openErr cfg.ref
  unfold liveExecJob
  split
  · exact h.inv_jobFinish none
  · dsimp only
    split_ifs
    · split
      · exact herr.inv_jobFinish none
      · exact herr.inv_live rfl
    · exact herr.inv_jobFinish none

theorem Inside.inv_sessionReturn
    {authed : Bool} (h : Inside cfg s₀ d (.session authed)) (o : Answers) :
    Inv cfg s₀ (sessionReturn cfg o d) := by
  have hend : Inside cfg s₀ (d.note .sessionEnd) .idle := by
    refine h.op rfl ?_ rfl h.pending rfl
    cases authed <;> rfl
  have hpending : (d.note .sessionEnd).job.pending = false := h.pending
  unfold sessionReturn runPending
  rw [hpending]
  exact hend.inv_idle

theorem inv_sessionReturn_job
    {jobid : ℕ} {cmd : Bytes} {env : List EnvEntry}
    (htraced : s₀.Traces cfg d.log (d.view (.accepted jobid cmd env)))
    (hjob : d.job = ⟨true, jobid, cmd, env⟩) (hkind : d.chan.kind = cfg.kind)
    (o : Answers) : Inv cfg s₀ (sessionReturn cfg o d) := by
  have hend : s₀.Traces cfg (d.log ++ [.sessionEnd])
      (d.view (.due jobid cmd env)) :=
    htraced.concat rfl (by simp [Obs.submitted])
  have hstart : Inside cfg s₀
      { d with
        job := { d.job with pending := false }
        log := d.log ++ [.sessionEnd] ++ [.jobStart jobid cmd env] }
      (.running jobid) := by
    refine ⟨?_, rfl, hkind⟩
    refine hend.concat ?_ (by simp [Obs.submitted])
    simp [Daemon.view, Service.step]
  have hpending : (d.note .sessionEnd).job.pending = true := by
    simp [Daemon.note, hjob]
  unfold sessionReturn runPending
  rw [hpending]
  simp only [if_true, Daemon.note, hjob] at *
  split_ifs
  · exact Inside.inv_liveExecJob ⟨true, jobid, cmd, env⟩ hstart o
  · split
    · exact hstart.inv_jobFinish none
    · exact hstart.inv_jobFinish _

theorem Inside.inv_reply
    (h : Inside cfg s₀ d (.session true)) (o : Answers) (env : List EnvEntry)
    (msg : Bytes) : Inv cfg s₀ (reply cfg o d env msg) := by
  have hchan := h.chan (lioPutLine_kind d.chan msg)
  unfold reply
  split_ifs
  · exact hchan.inv_session env
  · exact hchan.inv_sessionReturn o

/-! ## The commands -/

theorem Inside.inv_replyCapture
    (h : Inside cfg s₀ d (.session true)) (o : Answers) (env : List EnvEntry)
    {sent : Bool × Chan} (hsent : sent.2.kind = d.chan.kind) (code : ℕ) :
    Inv cfg s₀ (replyCapture cfg o d env sent code) := by
  unfold replyCapture
  split_ifs
  · exact (h.chan hsent).inv_reply o env _
  · exact (h.chan hsent).inv_sessionReturn o

/-- The capture files of a blocking RUN leave no trace. -/
theorem unlink_captureFiles
    (cfg : Cfg) (d : Daemon) (pout perr : Bytes) (order : List Bool) (out err : Bytes) :
    unlink cfg (unlink cfg
        { d with files := captureFiles cfg d.cwd d.files pout perr order out err } pout)
        perr =
      unlink cfg (unlink cfg d pout) perr := by
  have hfiles : Function.update (Function.update
      (captureFiles cfg d.cwd d.files pout perr order out err)
        (cfg.resolve d.cwd pout) none) (cfg.resolve d.cwd perr) none =
      Function.update (Function.update d.files (cfg.resolve d.cwd pout) none)
        (cfg.resolve d.cwd perr) none := by
    funext f
    by_cases hperr : f = cfg.resolve d.cwd perr
    · simp [hperr]
    · by_cases hpout : f = cfg.resolve d.cwd pout
      · simp [hpout, Function.update_apply]
      · unfold captureFiles
        dsimp only
        split_ifs <;> simp [hperr, hpout]
  simp only [unlink, hfiles]

theorem Inside.inv_runBlocking
    (h : Inside cfg s₀ d (.session true)) (o : Answers) (env : List EnvEntry) :
    Inv cfg s₀ (runBlocking cfg o d env) := by
  have hgone := (h.unlink cfg.outf).unlink cfg.errf
  unfold runBlocking
  split
  · exact hgone.inv_reply o env _
  · dsimp only
    rw [unlink_captureFiles]
    exact hgone.inv_replyCapture o env (by simp [GrandCross.unlink]) _

theorem Inside.inv_liveExec
    (h : Inside cfg s₀ d (.session true)) (o : Answers) {mode : LiveMode}
    (hmode : mode ≠ .job) (env : List EnvEntry) (cmd : Bytes) :
    Inv cfg s₀ (liveExec cfg o d mode env cmd) := by
  unfold liveExec
  split
  · exact h.inv_reply o env _
  · split
    · exact h.inv_reply o env _
    · exact h.inv_live (if_neg hmode)

theorem Inside.inv_doRun
    (h : Inside cfg s₀ d (.session true)) (o : Answers) (env : List EnvEntry)
    (arg : Option Bytes) : Inv cfg s₀ (doRun cfg o d env arg) := by
  cases arg with
  | none => exact h.inv_reply o env _
  | some cmd =>
      have hrun := h.acceptRun .run cmd env
      simp only [doRun]
      split_ifs
      · exact hrun.inv_liveExec o (by decide) env cmd
      · exact hrun.inv_runBlocking o env

theorem Inside.inv_doRuni
    (h : Inside cfg s₀ d (.session true)) (o : Answers) (env : List EnvEntry)
    (arg : Option Bytes) : Inv cfg s₀ (doRuni cfg o d env arg) := by
  unfold doRuni
  split_ifs
  · cases arg with
    | none => exact h.inv_reply o env _
    | some cmd => exact (h.acceptRun .runi cmd env).inv_liveExec o (by decide) env cmd
  · exact h.inv_reply o env _

theorem Inside.inv_doRuna
    (h : Inside cfg s₀ d (.session true)) (o : Answers) (env : List EnvEntry)
    {arg : Option Bytes} (harg : ∀ cmd, arg = some cmd → cmd.length < lineMax)
    (hids : arg.isSome = true → s₀.ids (nextJobid d.lastJob)) :
    Inv cfg s₀ (doRuna cfg o d env arg) := by
  cases arg with
  | none => exact h.inv_reply o env _
  | some cmd =>
      have hcmd : (gcdsStrlcpy cmd lineMax).1 = cmd := by
        have := harg cmd rfl
        simp only [gcdsStrlcpy]
        exact List.take_of_length_le (by omega)
      have htraced : s₀.Traces cfg (acceptRuna d cmd env).log
          ((acceptRuna d cmd env).view
            (.accepted (nextJobid d.lastJob) cmd env)) := by
        refine h.traced.concat (by
          simp [Daemon.view, Service.step, acceptRuna, Res.slot]) ?_
        simpa [Obs.submitted] using hids rfl
      let d' := acceptRuna d cmd env
      let w := lioPutLine d'.chan (ascii "OK " ++ decimal d'.job.jobid)
      have hkind : w.2.kind = cfg.kind := (lioPutLine_kind _ _).trans h.kind
      have hjob : d'.job = ⟨true, nextJobid d.lastJob, cmd, env⟩ := by
        simp [d', acceptRuna, hcmd]
      exact inv_sessionReturn_job (d := { d' with chan := w.2 }) htraced hjob
        hkind o

theorem Inside.inv_doResult
    (h : Inside cfg s₀ d (.session true)) (o : Answers) (env : List EnvEntry)
    (arg : Option Bytes) : Inv cfg s₀ (doResult cfg o d env arg) := by
  have hopen := (h.fopen cfg.rof).fopen cfg.ref
  unfold doResult
  split_ifs
  · exact h.inv_reply o env _
  · exact hopen.inv_replyCapture o env (sendCapture_kind cfg _ _ _) _

theorem Inside.inv_doCwd
    (h : Inside cfg s₀ d (.session true)) (o : Answers) (env : List EnvEntry)
    (arg : Option Bytes) : Inv cfg s₀ (doCwd cfg o d env arg) := by
  unfold doCwd
  split
  · next _ _ path dir _ =>
      have hchdir : Inside cfg s₀
          { d with cwd := dir, log := d.log ++ [.chdir path dir] }
          (.session true) :=
        h.op rfl rfl rfl h.pending rfl
      exact hchdir.inv_reply o env _
  · exact h.inv_reply o env _

theorem Inside.inv_doEnv
    (h : Inside cfg s₀ d (.session true)) (o : Answers) (env : List EnvEntry)
    (arg : Option Bytes) : Inv cfg s₀ (doEnv cfg o d env arg) := by
  unfold doEnv
  split
  · split_ifs
    · split
      · exact h.inv_reply o env _
      · exact h.inv_reply o _ _
    · exact h.inv_reply o env _
  · exact h.inv_reply o env _

theorem Inside.inv_doPut
    (h : Inside cfg s₀ d (.session true)) (o : Answers) (env : List EnvEntry)
    (path : Option Bytes) : Inv cfg s₀ (doPut cfg o d env path) := by
  unfold doPut
  split
  · exact h.inv_reply o env _
  · exact h.inv_reply o env _
  · next b p =>
      have hopen := h.openTrunc (.inl rfl) true (b :: p)
      dsimp only
      split_ifs
      · have hchan := hopen.chan
          (lioPutLine_kind (GrandCross.openTrunc cfg d true (b :: p)).chan
            (ascii "OK"))
        exact hchan.inv _ rfl trivial
      · exact Inside.inv_sessionReturn (hopen.chan (lioPutLine_kind _ _)) o
      · exact h.inv_reply o env _

theorem Inside.inv_doGet
    (h : Inside cfg s₀ d (.session true)) (o : Answers) (env : List EnvEntry)
    (path : Option Bytes) : Inv cfg s₀ (doGet cfg o d env path) := by
  unfold doGet
  split
  · exact h.inv_reply o env _
  · exact h.inv_reply o env _
  · next b p =>
      split
      · exact h.inv_reply o env _
      · have hopen := h.fopen (b :: p)
        dsimp only
        split_ifs
        · exact Inside.inv_reply (hopen.chan (by simp)) o env _
        · exact Inside.inv_sessionReturn (hopen.chan (by simp)) o
        · exact Inside.inv_sessionReturn (hopen.chan (by simp)) o

theorem Inside.inv_sessionCmd
    (h : Inside cfg s₀ d (.session true)) (o : Answers) (env : List EnvEntry)
    (verb : Verb) {arg : Option Bytes}
    (harg : ∀ text, arg = some text → text.length < lineMax)
    (hids : verb = .runa → arg.isSome = true → s₀.ids (nextJobid d.lastJob)) :
    Inv cfg s₀ (sessionCmd cfg o d env verb arg) := by
  cases verb with
  | ping => exact h.inv_reply o env _
  | stat => exact h.inv_reply o env _
  | cwd => exact h.inv_doCwd o env arg
  | env => exact h.inv_doEnv o env arg
  | run => exact h.inv_doRun o env arg
  | runa => exact h.inv_doRuna o env harg (hids rfl)
  | result => exact h.inv_doResult o env arg
  | runi => exact h.inv_doRuni o env arg
  | put => exact h.inv_doPut o env arg
  | get => exact h.inv_doGet o env arg
  | quit => exact Inside.inv_sessionReturn (h.chan (lioPutLine_kind _ _)) o
  | unknown => exact h.inv_reply o env _

theorem cutAt_snd_length (sep : Byte) (s : Bytes) :
    ∀ rest, (cutAt sep s).2 = some rest → rest.length < s.length := by
  induction s with
  | nil => simp [cutAt]
  | cons b s ih =>
      intro rest hrest
      by_cases hb : b = sep
      · simp [cutAt, hb] at hrest
        simp [← hrest]
      · simp only [cutAt, hb, if_false] at hrest
        have := ih rest hrest
        simp only [List.length_cons]
        omega

theorem cstr_length_le (buf : Bytes) : (cstr buf).length ≤ buf.length :=
  (List.takeWhile_sublist _).length_le

theorem sessionText_length
    (cfg : Cfg) {buf : Bytes} (hbuf : buf.length < lineMax) :
    (sessionText cfg buf).length < lineMax := by
  have hself := cstr_length_le buf
  unfold sessionText
  split
  · omega
  · split
    · omega
    · next conv _ =>
        split_ifs with hfits
        · have hconv := cstr_length_le conv
          omega
        · omega

theorem handleAuth_kind
    (cfg : Cfg) (c : Chan) (cmd : Bytes) (arg : Option Bytes) :
    (handleAuth cfg c cmd arg).2.kind = c.kind := by
  unfold handleAuth
  split_ifs <;> simp

def isRuna (cfg : Cfg) (buf : Bytes) : Bool :=
  verbOf (cutAt sp (sessionText cfg buf)).1 = .runa &&
    (cutAt sp (sessionText cfg buf)).2.isSome

theorem Inside.inv_sessionLine
    {authed : Bool} (h : Inside cfg s₀ d (.session authed)) (o : Answers)
    (env : List EnvEntry) {buf : Bytes} (hbuf : buf.length < lineMax)
    (hids : authed = true → isRuna cfg buf = true → s₀.ids (nextJobid d.lastJob)) :
    Inv cfg s₀ (sessionLine cfg o d authed env buf) := by
  cases authed with
  | true =>
      have htext := sessionText_length cfg hbuf
      simp only [sessionLine, if_true]
      apply h.inv_sessionCmd
      · intro text harg
        have := cutAt_snd_length sp (sessionText cfg buf) text harg
        omega
      · intro hverb harg
        exact hids rfl (by simp [isRuna, hverb, harg])
  | false =>
      have hchan := h.chan (handleAuth_kind cfg d.chan
        (cutAt sp (sessionText cfg buf)).1 (cutAt sp (sessionText cfg buf)).2)
      simp only [sessionLine, Bool.false_eq_true, if_false]
      split_ifs
      · have hauth : Inside cfg s₀
            { d with
              chan := (handleAuth cfg d.chan (cutAt sp (sessionText cfg buf)).1
                (cutAt sp (sessionText cfg buf)).2).2
              log := d.log ++ [.auth] } (.session true) :=
          hchan.op rfl rfl rfl h.pending rfl
        exact hauth.inv_session env
      · exact hchan.inv_sessionReturn o

theorem inv_sessionRun
    (htraced : s₀.Traces cfg d.log (d.view .idle))
    (hkind : d.chan.kind = cfg.kind) (o : Answers) :
    Inv cfg s₀ (sessionRun cfg o d) := by
  have hstart : Inside cfg s₀
      { d with
        job := { d.job with pending := false }
        log := d.log ++ [.sessionStart] } (.session false) :=
    ⟨htraced.concat rfl (by simp [Obs.submitted]), rfl, hkind⟩
  have hgreet := hstart.chan (lioPutLine_kind d.chan (greeting cfg))
  simp only [sessionRun]
  split_ifs
  · exact hgreet.inv (.session false [] []) rfl
      (by decide : ([] : Bytes).length < lineMax)
  · exact hgreet.inv_sessionReturn o

/-! ## Transfers and supervised commands -/

theorem Inside.inv_putAbort
    (h : Inside cfg s₀ d (.session true)) (o : Answers) (put : Put)
    (msg : Option Bytes) : Inv cfg s₀ (putAbort cfg o d put msg) := by
  have hgone := h.unlink put.path
  cases msg with
  | none => exact hgone.inv_sessionReturn o
  | some m => exact Inside.inv_sessionReturn (hgone.chan (lioPutLine_kind _ _)) o

theorem Inside.inv_doPutHeader
    (h : Inside cfg s₀ d (.session true)) (o : Answers) (env : List EnvEntry)
    (put : Put) (line : Bytes) :
    Inv cfg s₀ (doPutHeader cfg o d env put line) := by
  unfold doPutHeader
  split
  · dsimp only
    split_ifs
    · exact h.inv_reply o env _
    · exact (h.unlink put.path).inv_reply o env _
    · exact h.inv_putAbort o put _
    · exact h.inv _ rfl trivial
  · exact h.inv_putAbort o put _

theorem Inside.inv_doPutData
    (h : Inside cfg s₀ d (.session true)) (o : Answers) (env : List EnvEntry)
    (put : Put) (data : Bytes) :
    Inv cfg s₀ (doPutData cfg o d env put data) := by
  unfold doPutData
  split_ifs
  · exact (h.unlink put.path).inv_reply o env _
  · have happend : Inside cfg s₀
        { d with
          files := Function.update d.files (cfg.resolve d.cwd put.path)
            (some ((d.files (cfg.resolve d.cwd put.path)).getD [] ++ data))
          log := d.log ++ [.append put.path data] } (.session true) :=
      h.op rfl rfl rfl h.pending rfl
    exact happend.inv _ rfl trivial
  · exact (h.unlink put.path).inv_reply o env _

theorem Pumped.inside
    {l : Live} {r : Daemon × Live} (hr : Pumped d l r)
    (h : Inside cfg s₀ d l.phase) : Inside cfg s₀ r.1 r.2.phase := by
  rw [hr.same.phase, hr.daemon]
  exact h.chan hr.kind

theorem cvFlushAll_kind (cfg : Cfg) (c : Chan) (l : Live) :
    (cvFlushAll cfg c l).kind = c.kind := by
  unfold cvFlushAll
  split
  · rfl
  · dsimp only
    split_ifs <;> simp

theorem Inside.inv_liveReturn
    {l : Live} (h : Inside cfg s₀ d l.phase) (o : Answers) :
    Inv cfg s₀ (liveReturn cfg o d l) := by
  unfold Live.phase at h
  unfold liveReturn
  split
  · next hmode =>
      rw [if_pos hmode] at h
      exact h.inv_jobFinish _
  · next hmode =>
      rw [if_neg hmode] at h
      exact Inside.inv_reply (h.chan (cvFlushAll_kind ..)) o l.env _

theorem Inside.inv_liveTail
    {l : Live} (h : Inside cfg s₀ d l.phase) (o : Answers) (sel : Sel) :
    Inv cfg s₀ (liveTail cfg o d l sel) := by
  rw [← (same_liveWatch cfg l sel).phase] at h
  unfold liveTail
  dsimp only
  split_ifs
  · exact h.inv_liveReturn o
  · exact h.inv_live rfl
  · exact h.inv_liveReturn o
  · exact h.inv_live rfl

theorem Live.phase_session
    {l : Live} (hmode : l.mode ≠ .job) : l.phase = .session true :=
  if_neg hmode

theorem Inside.inv_livePass
    {l : Live} (h : Inside cfg s₀ d l.phase) (o : Answers) (sel : Sel) :
    Inv cfg s₀ (livePass cfg o d l sel) := by
  unfold livePass
  by_cases hmode : l.mode = .job
  · rw [if_pos hmode]
    exact h.inv_liveTail o sel
  · rw [if_neg hmode]
    have hout := pumped_pumpReady cfg d l .out sel.out
    have herr := hout.trans (pumped_pumpReady cfg _ _ .err sel.err)
    have hcap := herr.trans (pumped_liveCap cfg _ _)
    have hsession : ∀ {r : Daemon × Live}, Pumped d l r →
        Inside cfg s₀ r.1 (.session true) := by
      intro r hr
      have := hr.inside h
      rwa [hr.same.phase, Live.phase_session hmode] at this
    dsimp only
    split_ifs
    · split
      · next hruni =>
          exact (hcap.inside h).inv _ rfl (hcap.same.mode.trans hruni)
      · exact Inside.inv_sessionReturn (hsession hcap) o
    · exact (hcap.inside h).inv_liveTail o sel
    · exact Inside.inv_sessionReturn (hsession herr) o
    · exact Inside.inv_sessionReturn (hsession hout) o

theorem Inside.inv_liveSelect
    {l : Live} (h : Inside cfg s₀ d l.phase) (o : Answers) (sel : Sel) :
    Inv cfg s₀ (liveSelect cfg o d l sel) := by
  unfold liveSelect
  split
  · split_ifs
    · exact h.inv _ rfl trivial
    · exact h.inv_livePass o sel
    · exact h.inv_livePass o sel
  · exact h.inv_livePass o sel

theorem Inside.inv_liveLost
    {l : Live} (h : Inside cfg s₀ d l.phase) (hmode : l.mode ≠ .job)
    (o : Answers) : Inv cfg s₀ (liveLost cfg o d) := by
  rw [Live.phase_session hmode] at h
  exact h.inv_sessionReturn o

theorem Inside.inv_runiFrame
    {l : Live} (h : Inside cfg s₀ d l.phase) (hmode : l.mode = .runi)
    (o : Answers) (sel : Sel) (line : Bytes) :
    Inv cfg s₀ (runiFrame cfg o d l sel line) := by
  have hnot : l.mode ≠ .job := by simp [hmode]
  unfold runiFrame
  split
  · rw [← (same_killChild l).phase] at h
    exact h.inv_liveTail o sel
  · dsimp only
    split_ifs
    · exact h.inv_liveLost hnot o
    · exact Inside.inv_liveTail (l := { l with inp := none }) h o sel
    · exact h.inv _ rfl hmode
  · exact h.inv_liveLost hnot o

/-! ## Steps and runs -/

theorem lioGetByte_more_length
    {size : ℕ} {buf buf' : Bytes} {b : Byte}
    (hmore : lioGetByte size buf b = .more buf') (hbuf : buf.length < size) :
    buf'.length < size := by
  unfold lioGetByte at hmore
  split_ifs at hmore with hcr hlf hlong
  · simp only [LineStep.more.injEq] at hmore
    rwa [← hmore]
  · simp only [LineStep.more.injEq] at hmore
    rw [← hmore, List.length_append, List.length_singleton]
    omega

theorem lioGetByte_ok_eq
    {size : ℕ} {buf line : Bytes} {b : Byte}
    (hok : lioGetByte size buf b = .ok line) : line = buf := by
  unfold lioGetByte at hok
  split_ifs at hok
  simpa using hok.symm

/-- The event makes the command loop accept a RUNA. -/
def Daemon.submits (cfg : Cfg) (d : Daemon) (ev : Ev) : Bool :=
  match d.ctl, ev with
  | .session true _ buf, .rx b _ => b = lf && isRuna cfg buf
  | _, _ => false

theorem lioGetByte_ok_lf
    {size : ℕ} {buf line : Bytes} {b : Byte}
    (hok : lioGetByte size buf b = .ok line) : b = lf := by
  unfold lioGetByte at hok
  split_ifs at hok with _ hlf
  exact hlf

theorem Inv.rx
    (h : Inv cfg s₀ d) (o : Answers) (b : Byte)
    (hids : d.submits cfg (.rx b o) = true → s₀.ids (nextJobid d.lastJob)) :
    Inv cfg s₀ (rx cfg o d b) := by
  have hinside := h.inside
  have hok := h.ctl
  unfold GrandCross.rx
  split
  · exact h
  · next hctl =>
      rw [hctl] at hinside
      split
      · exact hinside.inv _ rfl trivial
      · split_ifs
        · exact inv_sessionRun hinside.traced hinside.kind o
        · exact hinside.inv _ rfl trivial
      · exact hinside.inv _ rfl trivial
  · next hctl =>
      rw [hctl] at hinside hok
      split
      · next hmore => exact hinside.inv _ rfl (lioGetByte_more_length hmore hok)
      · next hline =>
          rw [lioGetByte_ok_eq hline]
          refine hinside.inv_sessionLine o _ hok ?_
          intro hauthed hruna
          apply hids
          simp [Daemon.submits, hctl, hauthed, hruna, lioGetByte_ok_lf hline]
      · exact Inside.inv_sessionReturn (hinside.chan (lioPutLine_kind _ _)) o
  · next hctl =>
      rw [hctl] at hinside
      split
      · exact hinside.inv _ rfl trivial
      · exact hinside.inv_doPutHeader o _ _ _
      · exact hinside.inv_putAbort o _ none
  · next hctl =>
      rw [hctl] at hinside
      split_ifs
      · exact hinside.inv _ rfl trivial
      · exact hinside.inv_doPutData o _ _ _
  · exact h
  · next hctl =>
      rw [hctl] at hinside hok
      have hnot : ∀ {l : Live}, l.mode = .runi → l.mode ≠ .job := by simp_all
      split
      · exact hinside.inv _ rfl hok
      · exact hinside.inv_runiFrame hok o _ _
      · exact hinside.inv_liveLost (hnot hok) o
  · next l sel len buf hctl =>
      rw [hctl] at hinside hok
      split_ifs
      · exact hinside.inv _ rfl hok
      · refine Inside.inv_liveTail ?_ o sel
        rw [(same_writeStdin l _).phase]
        exact hinside
  · next hctl =>
      rw [hctl] at hinside
      split_ifs
      · exact hinside.inv _ rfl trivial
      · exact hinside.inv_livePass o _
  · exact h

theorem Inv.hup
    (h : Inv cfg s₀ d) (o : Answers) : Inv cfg s₀ (hup cfg o d) := by
  have hinside := h.inside
  have hok := h.ctl
  unfold GrandCross.hup
  split <;> rename_i hctl <;> rw [hctl] at hinside hok
  · exact h
  · exact hinside.inv _ rfl trivial
  · exact hinside.inv_sessionReturn o
  · exact hinside.inv_putAbort o _ none
  · exact hinside.inv_putAbort o _ none
  · exact h
  · exact hinside.inv_liveLost (by simp_all [Ctl.Ok]) o
  · exact hinside.inv_liveLost (by simp_all [Ctl.Ok]) o
  · exact hinside.inv_livePass o _
  · exact h

theorem Inv.step
    (h : Inv cfg s₀ d) (ev : Ev)
    (hids : d.submits cfg ev = true → s₀.ids (nextJobid d.lastJob)) :
    Inv cfg s₀ (step cfg d ev) := by
  have hinside := h.inside
  have hok := h.ctl
  cases ev with
  | accept peer plan o =>
      unfold GrandCross.step
      dsimp only
      split
      · next hctl =>
          rw [hctl] at hinside hok
          split_ifs
          · have hkind : cfg.kind = .tcp := hok
            exact inv_sessionRun (d := { d with chan := ⟨.tcp, ⟨plan, []⟩⟩ })
              hinside.traced hkind.symm o
          · exact h
      · exact h
  | rx b o => exact h.rx o b hids
  | hup o => exact h.hup o
  | select sel o =>
      unfold GrandCross.step
      dsimp only
      split
      · next hctl =>
          rw [hctl] at hinside
          exact hinside.inv_liveSelect o sel
      · exact h

theorem Inv.run
    (h : Inv cfg s₀ d) (hids : ∀ jobid, s₀.ids jobid) (evs : List Ev) :
    Inv cfg s₀ (run cfg d evs) := by
  induction evs generalizing d with
  | nil => exact h
  | cons ev evs ih => exact ih (h.step ev fun _ => hids _)

theorem Inv.onward
    (h : Inv cfg s₀ d) (ids : ℕ → Prop) :
    Inv cfg ⟨d.log, d.view d.ctl.phase, ids⟩ d :=
  ⟨⟨⟨[], by simp, rfl, by simp⟩, h.inside.pending, h.inside.kind⟩, h.ctl⟩

/-- A step only adds to the log, and a RUNA only where one is accepted. -/
theorem Inv.step_log
    (h : Inv cfg s₀ d) (ev : Ev) :
    ∃ rest, (GrandCross.step cfg d ev).log = d.log ++ rest ∧
      ∀ o ∈ rest, ∀ jobid ∈ o.submitted,
        d.submits cfg ev = true ∧ jobid = nextJobid d.lastJob := by
  have hstep := (h.onward fun jobid =>
    d.submits cfg ev = true ∧ jobid = nextJobid d.lastJob).step ev fun hsub => ⟨hsub, rfl⟩
  obtain ⟨rest, hlog, _, hids⟩ := hstep.inside.traced
  exact ⟨rest, hlog, hids⟩

end Refinement

def Service.init (cwd : Bytes) (files : Bytes → Option Bytes) : Service :=
  ⟨.idle, none, 0, cwd, files⟩

def Origin.init (cwd : Bytes) (files : Bytes → Option Bytes) : Origin :=
  ⟨[], Service.init cwd files, fun _ => True⟩

theorem inv_init
    (cfg : Cfg) (plan : List (Option ℕ)) (cwd : Bytes)
    (files : Bytes → Option Bytes) :
    Inv cfg (Origin.init cwd files) (Daemon.init cfg plan cwd files) := by
  have hinside : Inside cfg (Origin.init cwd files)
      (Daemon.init cfg plan cwd files) .idle :=
    ⟨⟨[], rfl, rfl, by simp⟩, rfl, rfl⟩
  exact hinside.inv_idle

theorem Inv.traced
    {cfg : Cfg} {cwd : Bytes} {files : Bytes → Option Bytes} {d : Daemon}
    (h : Inv cfg (Origin.init cwd files) d) :
    (Service.init cwd files).replay cfg d.log = some (d.view d.ctl.phase) := by
  obtain ⟨rest, hlog, hreplay, _⟩ := h.inside.traced
  rw [hlog]
  exact hreplay

/-- Every state the daemon reaches, from startup on, refines the service. -/
theorem inv_reachable
    (cfg : Cfg) (plan : List (Option ℕ)) (cwd : Bytes)
    (files : Bytes → Option Bytes) (evs : List Ev) :
    Inv cfg (Origin.init cwd files)
      (run cfg (Daemon.init cfg plan cwd files) evs) :=
  (inv_init cfg plan cwd files).run (fun _ => trivial) evs

end GrandCross
