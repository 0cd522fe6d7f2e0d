import GrandCross.ServiceRefine
import GrandCross.Replies

/-!
# The single result slot

What STAT and RESULT answer in any state the daemon can reach, in terms of
the daemon's own log: the stored result is that of the latest RUNA, from the
end of its job until the next accepted command.  The refinement of the
service does the work; here its slot is tied to the bytes of the replies.
-/

namespace GrandCross

open CText

/-- A line that the peer can send and that the command loop reads as `text`. -/
structure Says (cfg : Cfg) (line text : Bytes) : Prop where
  clean : LineClean line
  fits : line.length < lineMax
  text : sessionText cfg line = text

/-- Every accepted RUNA runs once, right behind its session, and nothing else
runs as a job. -/
structure RunsOnce (log : List Obs) : Prop where
  runs : ∀ pre jobid cmd env post, log = pre ++ .runa jobid cmd env :: post →
    ∃ post', post = .sessionEnd :: .jobStart jobid cmd env :: post'
  once : ∀ pre jobid cmd env post, log = pre ++ .jobStart jobid cmd env :: post →
    ∃ pre', pre = pre' ++ [.runa jobid cmd env, .sessionEnd]

/-- Job `jobid` is the latest one, it has finished, and no command has been
accepted since. -/
def Stored (log : List Obs) (jobid : ℕ) : Prop := ∃ r, Finished log jobid r

def Streamed (c c' : Chan) : Prop :=
  ∃ fs : List Frame, c'.sent = c.sent ++ encodeFrames fs ∨
    ∃ code, c'.sent = c.sent ++ encodeStream fs code

theorem Ctl.phase_waits (c : Ctl) : c.phase.Waits := by
  have hlive : ∀ l : Live, l.phase.Waits := by
    intro l
    unfold Live.phase
    split_ifs <;> trivial
  cases c with
  | accept => trivial
  | hello buf => trivial
  | session authed env buf => trivial
  | putHdr env put buf => trivial
  | putData env put len buf => trivial
  | live l => exact hlive l
  | liveLine l sel buf => exact hlive l
  | liveData l sel len buf => exact hlive l
  | liveCtl l sel cs => exact hlive l
  | down => trivial

section

variable {cfg : Cfg} {cwd : Bytes} {files : Bytes → Option Bytes} {d : Daemon}

theorem Inv.runsOnce (h : Inv cfg (Origin.init cwd files) d) :
    RunsOnce d.log := by
  constructor
  · intro pre jobid cmd env post hlog
    have htraced := h.traced
    rw [hlog] at htraced
    exact Service.runa_followed htraced d.ctl.phase_waits
  · intro pre jobid cmd env post hlog
    have htraced := h.traced
    rw [hlog] at htraced
    exact Service.jobStart_preceded rfl htraced

theorem Inv.slot_iff
    (h : Inv cfg (Origin.init cwd files) d) (jobid code : ℕ) :
    d.res.slot = some (jobid, code) ↔
      ∃ r : Captured, r.code = code ∧ Finished d.log jobid r :=
  Service.slot_iff_finished rfl rfl h.traced jobid code

theorem Inv.stored_iff
    (h : Inv cfg (Origin.init cwd files) d) (jobid : ℕ) :
    Stored d.log jobid ↔ d.res.valid = true ∧ d.res.jobid = jobid := by
  have hslot := h.slot_iff jobid d.res.code
  unfold Res.slot at hslot
  constructor
  · rintro ⟨r, hr⟩
    have hfull := (h.slot_iff jobid r.code).mpr ⟨r, rfl, hr⟩
    unfold Res.slot at hfull
    split_ifs at hfull with hvalid
    simp only [Option.some.injEq, Prod.mk.injEq] at hfull
    exact ⟨hvalid, hfull.1⟩
  · rintro ⟨hvalid, rfl⟩
    rw [if_pos hvalid] at hslot
    obtain ⟨r, _, hr⟩ := hslot.mp rfl
    exact ⟨r, hr⟩

end

/-! ## The answers -/

section

variable {cfg : Cfg} {d : Daemon} {env : List EnvEntry}

theorem feed_whole_line
    (o : Answers) (hctl : d.ctl = .session true env []) {line text : Bytes}
    (hline : Says cfg line text) {cmd : Bytes} {arg : Option Bytes}
    (hcut : cutAt sp text = (cmd, arg)) :
    feed cfg o d (line ++ [lf]) =
      sessionCmd cfg o { d with ctl := .session true env line } env (verbOf cmd)
        arg := by
  rw [feed_session_line cfg o hctl hline.clean hline.fits]
  simp only [sessionLine, hline.text, hcut, if_true]

theorem feed_stat_eq
    (o : Answers) (hctl : d.ctl = .session true env []) (hd : d.chan.Steady)
    {line : Bytes} (hline : Says cfg line (ascii "STAT")) :
    ∃ c : Chan, c.sent = d.chan.sent ++ (statLine d.res ++ [lf]) ∧ c.Steady ∧
      feed cfg o d (line ++ [lf]) = { d with chan := c, ctl := .session true env [] } := by
  have hcut : cutAt sp (ascii "STAT") = (ascii "STAT", none) := by decide
  have hverb : verbOf (ascii "STAT") = .stat := by decide
  rw [feed_whole_line o hctl hline hcut, hverb]
  obtain ⟨c, hsent, hc, _, hreply⟩ :=
    reply_steady cfg o (d := { d with ctl := .session true env line }) hd env
      (statLine d.res)
  exact ⟨c, hsent, hc, hreply⟩

theorem feed_stat
    (o : Answers) (hctl : d.ctl = .session true env []) (hd : d.chan.Steady)
    {line : Bytes} (hline : Says cfg line (ascii "STAT")) :
    (feed cfg o d (line ++ [lf])).chan.sent =
      d.chan.sent ++ (statLine d.res ++ [lf]) := by
  obtain ⟨c, hsent, _, hfeed⟩ := feed_stat_eq o hctl hd hline
  rw [hfeed, hsent]

theorem openTrunc_log (cfg : Cfg) (d : Daemon) (ok : Bool) (path : Bytes) :
    ∃ rest, (openTrunc cfg d ok path).log = d.log ++ rest := by
  unfold openTrunc
  split_ifs
  · exact ⟨_, rfl⟩
  · exact ⟨[], by simp⟩

theorem jobFinish_log
    (cfg : Cfg) (d : Daemon) (jobid : ℕ) (result : Option Captured) :
    (jobFinish cfg d jobid result).log = d.log ++ [.jobEnd jobid result] := by
  cases result <;> rfl

theorem liveExecJob_log (cfg : Cfg) (o : Answers) (d : Daemon) (job : Job) :
    ∃ rest, (liveExecJob cfg o d job).log = d.log ++ rest := by
  obtain ⟨first, hfirst⟩ := openTrunc_log cfg d o.openOut cfg.rof
  obtain ⟨second, hsecond⟩ :=
    openTrunc_log cfg (openTrunc cfg d o.openOut cfg.rof) o.openErr cfg.ref
  rw [hfirst, List.append_assoc] at hsecond
  unfold liveExecJob
  split
  · exact ⟨_, jobFinish_log ..⟩
  · dsimp only
    split_ifs
    · split
      · rw [jobFinish_log, hsecond, List.append_assoc]
        exact ⟨_, rfl⟩
      · exact ⟨_, hsecond⟩
    · rw [jobFinish_log, hsecond, List.append_assoc]
      exact ⟨_, rfl⟩

theorem sessionReturn_log
    (cfg : Cfg) (o : Answers) {d : Daemon} (job : Job) (hjob : d.job = job)
    (hpending : job.pending = true) :
    ∃ rest, (sessionReturn cfg o d).log =
      d.log ++ .sessionEnd :: .jobStart job.jobid job.cmd job.env :: rest := by
  subst hjob
  have hd : (d.note .sessionEnd).job.pending = true := hpending
  unfold sessionReturn runPending
  rw [if_pos hd]
  dsimp only
  split_ifs
  · obtain ⟨rest, hlog⟩ := liveExecJob_log cfg o
      { d.note .sessionEnd with
        job := { d.job with pending := false }
        log := d.log ++ [.sessionEnd] ++ [.jobStart d.job.jobid d.job.cmd d.job.env] }
      d.job
    refine ⟨rest, hlog.trans ?_⟩
    simp
  · split
    · exact ⟨[.jobEnd d.job.jobid none], by simp [jobFinish_log, Daemon.note]⟩
    · next child _ =>
        exact ⟨[.jobEnd d.job.jobid (some child.captured)], by
          simp [jobFinish_log, Daemon.note]⟩

/-- An accepted RUNA: its job starts at once, whatever becomes of the reply. -/
theorem feed_runa
    (o : Answers) (hctl : d.ctl = .session true env []) {line cmd : Bytes}
    (hline : Says cfg line (ascii "RUNA" ++ sp :: cmd)) :
    ∃ rest, (feed cfg o d (line ++ [lf])).log =
      d.log ++ .runa (nextJobid d.lastJob) cmd env :: .sessionEnd ::
        .jobStart (nextJobid d.lastJob) cmd env :: rest := by
  have hcut : cutAt sp (ascii "RUNA" ++ sp :: cmd) = (ascii "RUNA", some cmd) :=
    cutAt_append_cons (by decide) cmd
  have hverb : verbOf (ascii "RUNA") = .runa := by decide
  have hcmd : (gcdsStrlcpy cmd lineMax).1 = cmd := by
    have htext := sessionText_length cfg hline.fits
    rw [hline.text, List.length_append, List.length_cons] at htext
    simp only [gcdsStrlcpy]
    exact List.take_of_length_le (by omega)
  rw [feed_whole_line o hctl hline hcut, hverb]
  simp only [sessionCmd, doRuna]
  let job : Job := ⟨true, nextJobid d.lastJob, cmd, env⟩
  obtain ⟨rest, hlog⟩ := sessionReturn_log cfg o job
    (d := { acceptRuna { d with ctl := .session true env line } cmd env with
      chan := (lioPutLine d.chan (ascii "OK " ++ decimal job.jobid)).2 })
    (by simp [acceptRuna, job, hcmd]) rfl
  refine ⟨rest, ?_⟩
  have hbefore : (acceptRuna { d with ctl := .session true env line } cmd env).log =
      d.log ++ [.runa (nextJobid d.lastJob) cmd env] := rfl
  refine hlog.trans ?_
  rw [hbefore]
  simp [job]

theorem feed_result_absent
    (o : Answers) (hctl : d.ctl = .session true env []) (hd : d.chan.Steady)
    {line arg : Bytes} (hline : Says cfg line (ascii "RESULT" ++ sp :: arg))
    (hnone : d.res.valid = false ∨ (d.res.jobid : ℤ) ≠ atol arg) :
    (feed cfg o d (line ++ [lf])).chan.sent =
      d.chan.sent ++ (ascii "ERR 404 no such result" ++ [lf]) := by
  have hcut : cutAt sp (ascii "RESULT" ++ sp :: arg) = (ascii "RESULT", some arg) :=
    cutAt_append_cons (by decide) arg
  have hverb : verbOf (ascii "RESULT") = .result := by decide
  rw [feed_whole_line o hctl hline hcut, hverb]
  obtain ⟨c, hsent, _, _, hreply⟩ :=
    reply_steady cfg o (d := { d with ctl := .session true env line }) hd env
      (ascii "ERR 404 no such result")
  simp only [sessionCmd, doResult, resultId, hnone, if_true, hreply, hsent]

theorem feed_result_stored
    (o : Answers) (hctl : d.ctl = .session true env []) (hd : d.chan.Steady)
    {line arg : Bytes} (hline : Says cfg line (ascii "RESULT" ++ sp :: arg))
    (hvalid : d.res.valid = true) (hjobid : (d.res.jobid : ℤ) = atol arg) :
    ∃ fs : List Frame,
      (feed cfg o d (line ++ [lf])).chan.sent =
          d.chan.sent ++ encodeStream fs d.res.code ∨
        cfg.cv ≠ none ∧
        (feed cfg o d (line ++ [lf])).chan.sent = d.chan.sent ++ encodeFrames fs := by
  have hcut : cutAt sp (ascii "RESULT" ++ sp :: arg) = (ascii "RESULT", some arg) :=
    cutAt_append_cons (by decide) arg
  have hverb : verbOf (ascii "RESULT") = .result := by decide
  rw [feed_whole_line o hctl hline hcut, hverb]
  obtain ⟨ok, fs, hemits, hok, _⟩ := doResult_emits cfg d.chan.kind
    (d.files (cfg.resolve d.cwd cfg.rof)) (d.files (cfg.resolve d.cwd cfg.ref))
  have hsent := hemits o { d with ctl := .session true env line } env (some arg)
    hd rfl hvalid hjobid rfl rfl
  refine ⟨fs, ?_⟩
  cases ok with
  | true => exact .inl hsent
  | false =>
      refine .inr ⟨?_, hsent⟩
      intro hcv
      exact absurd (hok hcv) (by decide)

theorem statLine_eq_result_iff (r : Res) (jobid : ℕ) :
    statLine r = ascii "OK result " ++ decimal jobid ↔
      r.valid = true ∧ r.jobid = jobid := by
  unfold statLine
  by_cases hvalid : r.valid = true
  · rw [if_pos hvalid, List.append_cancel_left_eq, decimal_injective.eq_iff]
    simp [hvalid]
  · have hidle : ascii "OK idle" = [79, 75, 32, 105, 100, 108, 101] := by decide
    have hresult : ascii "OK result " =
        [79, 75, 32, 114, 101, 115, 117, 108, 116, 32] := by decide
    rw [if_neg hvalid, hidle, hresult]
    simp [hvalid]

theorem not_streamed_err
    {c c' : Chan} {msg : Bytes}
    (hsent : c'.sent = c.sent ++ (69 :: 82 :: msg)) : ¬ Streamed c c' := by
  have hbytes : ∀ fs : List Frame, ∀ tail : Bytes,
      (∀ rest, tail ≠ 69 :: rest) → 69 :: 82 :: msg ≠ encodeFrames fs ++ tail := by
    intro fs tail htail h
    cases fs with
    | nil => exact htail _ h.symm
    | cons f fs =>
        -- the second byte of a frame is a blank
        simp [Frame.encode, frameHdr, sp] at h
  rintro ⟨fs, h | ⟨code, h⟩⟩
  · rw [hsent, List.append_cancel_left_eq] at h
    exact hbytes fs [] (by simp) (by simpa using h)
  · rw [hsent, List.append_cancel_left_eq, encodeStream] at h
    refine hbytes fs _ ?_ h
    intro rest hrest
    simp [exitLine_eq, hdrText] at hrest

end

/-- One client submits `x`, which prints `ab` and ends with 3; the next one asks. -/
def submitThenAsk : List Ev :=
  [newPeer] ++ rxAll {} (ascii "AUTH t\n") ++
    rxAll { child := some ⟨ascii "ab", [], .exited 3, [], []⟩ } (ascii "RUNA x\n") ++
    [newPeer] ++ rxAll {} (ascii "AUTH t\n")

end GrandCross
