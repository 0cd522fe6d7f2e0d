import GrandCross.ResultStable
import GrandCross.LiveStream
import GrandCross.ClientStream

/-!
# From the child to the client

A command's output reaches the client along one of three ways: streamed by
`live_exec`, captured in files and sent behind the command, or captured by a
job and fetched with RESULT.  The stream of the first always carries what
the child wrote.  The other two do when the two capture files are two files.
-/

namespace GrandCross

open CText
open Transfer

/-- From what was sent since `base`, `rc_stream` writes exactly the output of
the child and returns its code, however its reads and writes split. -/
def Delivers (base : Bytes) (c : Chan) (child : Child) : Prop :=
  ∃ bytes, c.sent = base ++ bytes ∧
    ∀ (rc : Rc) (rest : Bytes), rc.Steady → rc.mb = none →
      rc.inp.pending = bytes ++ rest →
      ∃ rc', rcStream rc = ((child.status.code : ℤ), rc') ∧
        rc'.inp.pending = rest ∧
        rc'.fd1.taken = rc.fd1.taken ++ child.out ∧
        rc'.fd2.taken = rc.fd2.taken ++ child.err

theorem delivers_iff
    {base : Bytes} {c : Chan} {child : Child} {fs : List Frame}
    (hsent : c.sent = base ++ encodeStream fs child.status.code) :
    Delivers base c child ↔ payload .out fs = child.out ∧ payload .err fs = child.err := by
  have hcode : child.status.code % 256 = child.status.code :=
    Nat.mod_eq_of_lt child.status.code_lt
  constructor
  · rintro ⟨bytes, hbytes, hreads⟩
    rw [hsent, List.append_cancel_left_eq] at hbytes
    -- a client that has just this stream to read
    let rc : Rc := ⟨⟨[], bytes⟩, ⟨[], []⟩, ⟨[], []⟩, none⟩
    have hrc : rc.Steady :=
      ⟨List.not_mem_nil, List.not_mem_nil, List.not_mem_nil⟩
    have hpending : rc.inp.pending = bytes ++ [] := (List.append_nil bytes).symm
    obtain ⟨rc', hstream, _, hout, herr⟩ := hreads rc [] hrc rfl hpending
    rw [← hbytes] at hpending
    obtain ⟨rc'', htook, hstream'⟩ :=
      rcStream_complete hrc fs child.status.code hpending
    obtain ⟨_, hout', herr'⟩ := htook.plain rfl
    rw [hstream, Prod.mk.injEq] at hstream'
    rw [← hstream'.2, hout] at hout'
    rw [← hstream'.2, herr] at herr'
    exact ⟨(List.append_cancel_left hout').symm, (List.append_cancel_left herr').symm⟩
  · rintro ⟨hout, herr⟩
    refine ⟨_, hsent, ?_⟩
    intro rc rest hrc hmb hpending
    obtain ⟨rc', htook, hstream⟩ :=
      rcStream_complete hrc fs child.status.code hpending
    obtain ⟨_, hfd1, hfd2⟩ := htook.plain hmb
    rw [hout] at hfd1
    rw [herr] at hfd2
    rw [hcode] at hstream
    exact ⟨rc', hstream, htook.pending, hfd1, hfd2⟩

theorem WholeStream.delivers
    {cfg : Cfg} {base : Bytes} {child : Child} {env : List EnvEntry} {d : Daemon}
    (h : WholeStream cfg base child env d) (hmaxout : cfg.maxout = 0) :
    Delivers base d.chan child := by
  obtain ⟨fs, hsent, hpayload⟩ := h.sent
  exact (delivers_iff hsent).mpr ⟨hpayload hmaxout .out, hpayload hmaxout .err⟩

theorem pumping_start
    {cfg : Cfg} {d : Daemon} {mode : LiveMode} {env : List EnvEntry} {child : Child}
    (hd : d.chan.Steady) (hmode : mode ≠ .job) :
    Pumping cfg d.chan.sent child d (Live.start mode env 0 child) := by
  refine ⟨hd, hmode, rfl, [], by simp, ?_⟩
  intro _ s
  cases s <;> simp [Live.start, Live.pipe, hmode, Child.text]

theorem runBlocking_sent
    {cfg : Cfg} (hcv : cfg.cv = none) {o : Answers} {child : Child}
    (hchild : o.child = some child) {d : Daemon} (hd : d.chan.Steady)
    (env : List EnvEntry) :
    ∃ fs, (runBlocking cfg o d env).chan.sent =
        d.chan.sent ++ encodeStream fs child.status.code ∧
      (runBlocking cfg o d env).ctl = .session true env [] ∧
      (runBlocking cfg o d env).chan.Steady ∧
      (cfg.maxout = 0 → ∀ s, payload s fs =
        fileText cfg d.cwd cfg.outf cfg.errf child.order child.out child.err s) := by
  let ran : Daemon :=
    { d with
      files := captureFiles cfg d.cwd d.files cfg.outf cfg.errf child.order child.out child.err }
  obtain ⟨hout, herr⟩ :=
    captureFiles_text cfg d.cwd cfg.outf cfg.errf child.order d.files child.out child.err
  obtain ⟨fs, c, hsent, hc, hreply, hplain⟩ := replyCapture_plain hcv o
    (show ran.chan.Steady from hd) (unlink cfg (unlink cfg ran cfg.outf) cfg.errf) env
    cfg.outf cfg.errf child.status.code
  have hrun : runBlocking cfg o d env =
      { unlink cfg (unlink cfg ran cfg.outf) cfg.errf with
        chan := c, ctl := .session true env [] } := by
    rw [← hreply]
    simp only [runBlocking, hchild]
    rfl
  refine ⟨fs, ?_, ?_, ?_, ?_⟩
  · rw [hrun]
    exact hsent
  · rw [hrun]
  · rw [hrun]
    exact hc
  · intro hmaxout s
    have h := hplain hmaxout
    simp only [ran, hout, herr, Option.getD_some] at h
    cases s with
    | out => exact h.1
    | err => exact h.2

/-- Without conversion and cap: a streamed command is delivered whatever the
passes of `live_exec` report, as soon as they have reported all of it; a
captured one exactly when its two files are apart, or hold the same bytes. -/
theorem execution_delivers_iff
    (cfg : Cfg) (hcv : cfg.cv = none) (hmaxout : cfg.maxout = 0) (child : Child) :
    (∀ (d : Daemon) mode env, d.ctl = .live (Live.start mode env 0 child) →
      mode ≠ .job → d.chan.Steady →
      (∀ evs : List Ev, (∀ ev ∈ evs, ev.Silent) →
        (execOver cfg d evs).ctl.supervises = true ∨
          Delivers d.chan.sent (execOver cfg d evs).chan child) ∧
      (∀ sels : List (Sel × Answers),
        (∀ p ∈ sels, p.1.ls = none ∧ p.1.sess = false) →
        child.out.length < sels.countP (fun p => p.1.out.isSome) →
        child.err.length < sels.countP (fun p => p.1.err.isSome) →
        Delivers d.chan.sent (execOver cfg d (passes sels)).chan child)) ∧
    (∀ (d : Daemon) o env cmd, cfg.build.live = false → o.child = some child →
      d.chan.Steady →
      (Delivers d.chan.sent (sessionCmd cfg o d env .run (some cmd)).chan child ↔
        Apart cfg d.cwd cfg.outf cfg.errf ∨ child.out = child.err)) ∧
    (∀ plan cwd files evs, ∀ d : Daemon,
      d = run cfg (Daemon.init cfg plan cwd files) evs →
      ∀ pre (jobid : ℕ) post,
      d.log = pre ++ .jobEnd jobid (some child.captured) :: post →
      SinceJob cfg (workDir cwd pre) post →
      SameCapture cfg (workDir cwd pre) (workDir (workDir cwd pre) post) →
      ∀ env o line arg, d.ctl = .session true env [] → d.chan.Steady →
      Says cfg line (ascii "RESULT" ++ sp :: arg) → atol arg = jobid →
      (Delivers d.chan.sent (feed cfg o d (line ++ [lf])).chan child ↔
        Apart cfg (workDir cwd pre) cfg.rof cfg.ref ∨ child.out = child.err)) := by
  refine ⟨?_, ?_, ?_⟩
  · intro d mode env hctl hmode hd
    have hstart : Pumping cfg d.chan.sent child d (Live.start mode env 0 child) :=
      pumping_start hd hmode
    constructor
    · intro evs hevs
      have hover := execOver_silent hcv hevs (.watching _ hctl rfl hstart)
      rcases hover with ⟨l, hctl', _, _⟩ | ⟨l, sel, cs, hctl', _, _, _⟩ | hanswered
      · left
        rw [hctl']
        rfl
      · left
        rw [hctl']
        rfl
      · exact .inr (hanswered.delivers hmaxout)
    · intro sels hquiet hout herr
      have hopen : (Live.start mode env 0 child).out ≠ none := by
        simp [Live.start, hmode]
      have hanswered := execOver_finishes hcv sels hquiet hctl rfl hstart (.inl hopen)
        (by simpa [Live.start, hmode, pipeLeft] using hout)
        (by simpa [Live.start, hmode, pipeLeft] using herr)
      exact hanswered.delivers hmaxout
  · intro d o env cmd hlive hchild hd
    obtain ⟨fs, hsent, _, _, hpayload⟩ :=
      runBlocking_sent hcv hchild (d := acceptRun d .run cmd env) hd env
    have hcmd : sessionCmd cfg o d env .run (some cmd) =
        runBlocking cfg o (acceptRun d .run cmd env) env := by
      simp only [sessionCmd, doRun, hlive, Bool.false_eq_true, if_false]
    have hbase : (runBlocking cfg o (acceptRun d .run cmd env) env).chan.sent =
        d.chan.sent ++ encodeStream fs child.status.code := hsent
    rw [hcmd, delivers_iff hbase, hpayload hmaxout, hpayload hmaxout]
    exact fileText_eq_iff ..
  · intro plan cwd files evs d hd pre jobid post hlog hsince hsame env o line arg
      hctl hsteady hline hjobid
    obtain ⟨ok, fs, hsends, hok, hpayload⟩ :=
      feed_result_since cfg (workDir cwd pre) child.captured
    have hinv : Inv cfg (Origin.init cwd files) d := by
      rw [hd]
      exact inv_reachable cfg plan cwd files evs
    have hsent := hsends cwd files d hinv pre jobid post hlog rfl hsince hsame
      env o line arg hctl hsteady hline hjobid
    rw [hok hcv] at hsent
    rw [delivers_iff hsent, hpayload hcv hmaxout, hpayload hcv hmaxout]
    exact fileText_eq_iff ..

/-! ## A long tmpdir -/

/-- A POSIX build over TCP with absolute capture paths. -/
def posixCfg (tmpdir : Bytes) : Cfg :=
  sessionInit { smallCfg with build := ⟨false, false, false, true, true⟩ } tmpdir
    (ascii "t") true true true

def twoStreams : Child := ⟨ascii "a", ascii "b", .exited 3, [], []⟩

/-- One session submits a job, the job runs, and the next session is open. -/
def submitAndOpen : List Ev :=
  [newPeer] ++ rxAll {} (ascii "AUTH t" ++ [lf]) ++
    rxAll { child := some twoStreams } (ascii "RUNA x" ++ [lf]) ++
    [.select { reaped := true } {}, newPeer] ++ rxAll {} (ascii "AUTH t" ++ [lf])

def longDir : Bytes := 47 :: List.replicate 249 97

def opened (tmpdir : Bytes) : Daemon :=
  run (posixCfg tmpdir) (Daemon.init (posixCfg tmpdir) [] (ascii "/") fun _ => none)
    submitAndOpen

theorem execution_delivers_tmp :
    Delivers (opened (ascii "/tmp")).chan.sent
      (feed (posixCfg (ascii "/tmp")) {} (opened (ascii "/tmp"))
        (ascii "RESULT 1" ++ [lf])).chan twoStreams := by
  have hstored := (execution_delivers_iff (posixCfg (ascii "/tmp")) rfl rfl
    twoStreams).2.2 [] (ascii "/") (fun _ => none) submitAndOpen
  refine (hstored _ rfl
    [.sessionStart, .auth, .runa 1 (ascii "x") [], .sessionEnd,
      .jobStart 1 (ascii "x") [], .create (ascii "/tmp/gcds_ro.tmp"),
      .create (ascii "/tmp/gcds_re.tmp")] 1
    [.sessionStart, .auth] (by decide +kernel)
    ⟨by decide, by simp [Spares, Obs.writes], by simp [Spares, Obs.writes]⟩
    ⟨rfl, rfl⟩ [] {} (ascii "RESULT 1") (ascii "1") (by decide +kernel)
    (by decide +kernel) ⟨by decide, by decide, by decide⟩ (by decide)).2 ?_
  exact .inl (by decide)

/-- Cut to the path buffer, both paths of a tmpdir of 250 bytes are the same:
the client gets stderr twice and stdout not at all. -/
theorem execution_lost_long_tmpdir :
    (feed (posixCfg longDir) {}
        (opened longDir) (ascii "RESULT 1" ++ [lf])).chan.sent =
      (opened longDir).chan.sent ++
        (ascii "O 1" ++ lf :: ascii "bE 1" ++ lf :: ascii "bX 3" ++ [lf]) ∧
    ¬ Delivers (opened longDir).chan.sent
      (feed (posixCfg longDir) {}
        (opened longDir) (ascii "RESULT 1" ++ [lf])).chan
      twoStreams := by
  have hsent : (feed (posixCfg longDir) {}
        (opened longDir) (ascii "RESULT 1" ++ [lf])).chan.sent =
      (opened longDir).chan.sent ++
        (ascii "O 1" ++ lf :: ascii "bE 1" ++ lf :: ascii "bX 3" ++ [lf]) := by
    decide +kernel
  refine ⟨hsent, ?_⟩
  let fs : List Frame :=
    [⟨.out, ascii "b", by decide, by decide⟩, ⟨.err, ascii "b", by decide, by decide⟩]
  have hbytes : ascii "O 1" ++ lf :: ascii "bE 1" ++ lf :: ascii "bX 3" ++ [lf] =
      encodeStream fs twoStreams.status.code := by decide
  rw [hbytes] at hsent
  rw [delivers_iff hsent]
  decide

end GrandCross
