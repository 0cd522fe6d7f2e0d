import GrandCross.SingleSlot

/-!
# Asking for a result again

The capture paths of a job are resolved against the working directory at the
time, and the files they name stay as the job left them until an upload
writes to them or another command is accepted.  So RESULT repeats itself
wherever its paths still name those files.
-/

namespace GrandCross

open CText
open Transfer

/-! ## Working directory and files along a trace -/

def Obs.dirAfter (cwd : Bytes) : Obs → Bytes
  | .chdir _ dir => dir
  | _ => cwd

def workDir (cwd : Bytes) (trace : List Obs) : Bytes :=
  trace.foldl Obs.dirAfter cwd

def Obs.writes : Obs → Option Bytes
  | .create path => some path
  | .append path _ => some path
  | .unlink path => some path
  | _ => none

/-- No upload of the trace touches file `f`. -/
def Spares (cfg : Cfg) (f : Bytes) : Bytes → List Obs → Prop
  | _, [] => True
  | cwd, o :: trace =>
      (∀ path ∈ o.writes, cfg.resolve cwd path ≠ f) ∧
        Spares cfg f (o.dirAfter cwd) trace

section

variable {cfg : Cfg} {s s' : Service}

theorem Service.step_cwd
    {o : Obs} (hstep : s.step cfg o = some s') : s'.cwd = o.dirAfter s.cwd := by
  have hfinish : ∀ (s : Service) (id : ℕ) (r : Option Captured),
      (s.finish cfg id r).cwd = s.cwd := by
    intro s id r
    cases r <;> rfl
  unfold Service.step at hstep
  split at hstep <;> simp only [Option.ite_none_right_eq_some, Option.some.injEq,
    reduceCtorEq] at hstep
  all_goals first | subst hstep | obtain ⟨-, rfl⟩ := hstep
  all_goals first | rfl | exact hfinish ..

theorem Service.replay_cwd
    {trace : List Obs} (h : s.replay cfg trace = some s') :
    s'.cwd = workDir s.cwd trace := by
  induction trace generalizing s with
  | nil =>
      rw [Service.replay_nil, Option.some.injEq] at h
      rw [← h]
      rfl
  | cons o trace ih =>
      obtain ⟨s₁, hstep, hrest⟩ := Service.replay_cons h
      rw [ih hrest, Service.step_cwd hstep]
      rfl

theorem Service.setFile_other
    {path f : Bytes} (hf : cfg.resolve s.cwd path ≠ f)
    (content : Option Bytes → Option Bytes) :
    (s.setFile cfg path content).files f = s.files f := by
  simp only [Service.setFile]
  rw [Function.update_of_ne hf.symm]

theorem Service.step_file
    {o : Obs} {f : Bytes} (hstep : s.step cfg o = some s')
    (hjob : s.phase.job = none)
    (hspares : ∀ path ∈ o.writes, cfg.resolve s.cwd path ≠ f) :
    s'.files f = s.files f := by
  unfold Service.step at hstep
  split at hstep <;> simp_all [Phase.job, Obs.writes]
  all_goals first | subst hstep | obtain ⟨-, rfl⟩ := hstep
  all_goals first | rfl | exact Service.setFile_other hspares _

theorem Service.replay_file
    {trace : List Obs} {f : Bytes} (h : s.replay cfg trace = some s')
    (hjob : s.phase.job = none) (hquiet : ∀ o ∈ trace, o.resets = false)
    (hspares : Spares cfg f s.cwd trace) : s'.files f = s.files f := by
  induction trace generalizing s with
  | nil =>
      rw [Service.replay_nil, Option.some.injEq] at h
      rw [← h]
  | cons o trace ih =>
      obtain ⟨s₁, hstep, hrest⟩ := Service.replay_cons h
      have hout := Service.step_outside hstep hjob (hquiet o (by simp))
      have hlater : Spares cfg f s₁.cwd trace := by
        rw [Service.step_cwd hstep]
        exact hspares.2
      rw [ih hrest hout.1 (fun o' ho' => hquiet o' (by simp [ho'])) hlater]
      exact Service.step_file hstep hjob hspares.1

end

/-! ## The files of a job -/

section

variable (cfg : Cfg) (dir pout perr : Bytes)

def Apart : Prop := cfg.resolve dir pout ≠ cfg.resolve dir perr

instance : Decidable (Apart cfg dir pout perr) :=
  inferInstanceAs (Decidable (cfg.resolve dir pout ≠ cfg.resolve dir perr))

/-- What a child leaves in the file of a stream. -/
def fileText (order : List Bool) (out err : Bytes) (s : Stream) : Bytes :=
  if Apart cfg dir pout perr then
    match s with
    | .out => out
    | .err => err
  else sharedFile order out err

theorem captureFiles_text
    (order : List Bool) (files : Bytes → Option Bytes) (out err : Bytes) :
    captureFiles cfg dir files pout perr order out err (cfg.resolve dir pout) =
        some (fileText cfg dir pout perr order out err .out) ∧
      captureFiles cfg dir files pout perr order out err (cfg.resolve dir perr) =
        some (fileText cfg dir pout perr order out err .err) := by
  unfold captureFiles fileText
  by_cases hapart : Apart cfg dir pout perr
  · have hne : cfg.resolve dir pout ≠ cfg.resolve dir perr := hapart
    simp only [hne, if_false, if_pos hapart]
    constructor
    · rw [Function.update_of_ne hne, Function.update_self]
    · rw [Function.update_self]
  · have heq : cfg.resolve dir pout = cfg.resolve dir perr := by
      by_contra hne
      exact hapart hne
    simp only [heq, if_true, if_neg hapart, Function.update_self, and_self]

/-- Both files hold what was written to them, in whatever order, exactly when
they are two or hold the same. -/
theorem fileText_eq_iff (order : List Bool) (out err : Bytes) :
    (fileText cfg dir pout perr order out err .out = out ∧
        fileText cfg dir pout perr order out err .err = err) ↔
      Apart cfg dir pout perr ∨ out = err := by
  unfold fileText
  by_cases hapart : Apart cfg dir pout perr
  · simp [hapart]
  · simp only [hapart, false_or]
    constructor
    · rintro ⟨hout, herr⟩
      exact hout.symm.trans herr
    · rintro rfl
      exact ⟨sharedFile_self order out, sharedFile_self order out⟩

end

def storedText (cfg : Cfg) (dir : Bytes) (r : Captured) (s : Stream) : Bytes :=
  fileText cfg dir cfg.rof cfg.ref r.order r.out r.err s

structure SameCapture (cfg : Cfg) (dir dir' : Bytes) : Prop where
  rof : cfg.resolve dir' cfg.rof = cfg.resolve dir cfg.rof
  ref : cfg.resolve dir' cfg.ref = cfg.resolve dir cfg.ref

/-- What has happened since a job ended in directory `dir`: no command was
accepted, and no upload touched the job's files. -/
structure SinceJob (cfg : Cfg) (dir : Bytes) (post : List Obs) : Prop where
  quiet : ∀ o ∈ post, o.resets = false
  rof : Spares cfg (cfg.resolve dir cfg.rof) dir post
  ref : Spares cfg (cfg.resolve dir cfg.ref) dir post

/-- The state behind a job's end keeps its code and both of its files. -/
theorem stored_since
    {cfg : Cfg} {cwd : Bytes} {files : Bytes → Option Bytes} {d : Daemon}
    (hinv : Inv cfg (Origin.init cwd files) d) {pre post : List Obs}
    {jobid : ℕ} {r : Captured}
    (hlog : d.log = pre ++ .jobEnd jobid (some r) :: post)
    (hsince : SinceJob cfg (workDir cwd pre) post) :
    d.res.slot = some (jobid, r.code) ∧
      d.cwd = workDir (workDir cwd pre) post ∧
      d.files (cfg.resolve (workDir cwd pre) cfg.rof) =
        some (storedText cfg (workDir cwd pre) r .out) ∧
      d.files (cfg.resolve (workDir cwd pre) cfg.ref) =
        some (storedText cfg (workDir cwd pre) r .err) := by
  have htraced := hinv.traced
  rw [hlog] at htraced
  obtain ⟨s₁, s₂, hpre, hend, hpost⟩ := Service.replay_split htraced
  obtain ⟨_, rfl⟩ := Service.step_jobEnd hend
  have hdir : s₁.cwd = workDir cwd pre := Service.replay_cwd hpre
  have hidle : (s₁.finish cfg jobid (some r)).phase.job = none := rfl
  have hslot := (Service.replay_quiet hpost hidle hsince.quiet).2
  have hcwd := Service.replay_cwd hpost
  have hstored := captureFiles_text cfg (workDir cwd pre) cfg.rof cfg.ref r.order s₁.files
    r.out r.err
  rw [← hdir] at hsince hstored ⊢
  have hout := Service.replay_file hpost hidle hsince.quiet hsince.rof
  have herr := Service.replay_file hpost hidle hsince.quiet hsince.ref
  exact ⟨hslot, hcwd, hout.trans hstored.1, herr.trans hstored.2⟩

/-- RESULT sends these frames for a job that ended in `dir` with `r`, and the
X line behind them if `ok`. -/
def SendsFrames (cfg : Cfg) (dir : Bytes) (r : Captured) (ok : Bool)
    (fs : List Frame) : Prop :=
  ∀ cwd files, ∀ d : Daemon, Inv cfg (Origin.init cwd files) d →
    ∀ pre (jobid : ℕ) post, d.log = pre ++ .jobEnd jobid (some r) :: post →
    workDir cwd pre = dir → SinceJob cfg dir post →
    SameCapture cfg dir (workDir dir post) →
    ∀ env o line arg, d.ctl = .session true env [] → d.chan.Steady →
    Says cfg line (ascii "RESULT" ++ sp :: arg) → atol arg = jobid →
    (feed cfg o d (line ++ [lf])).chan.sent = d.chan.sent ++
      (if ok then encodeStream fs r.code else encodeFrames fs)

/-- The bytes of a RESULT behind the end of a job follow from the job. -/
theorem feed_result_since (cfg : Cfg) (dir : Bytes) (r : Captured) :
    ∃ ok fs, SendsFrames cfg dir r ok fs ∧
      (cfg.cv = none → ok = true) ∧
      (cfg.cv = none → cfg.maxout = 0 → ∀ s, payload s fs = storedText cfg dir r s) := by
  obtain ⟨ok, fs, hemits, hok, hplain⟩ := doResult_emits cfg cfg.kind
    (some (storedText cfg dir r .out)) (some (storedText cfg dir r .err))
  refine ⟨ok, fs, ?_, hok, ?_⟩
  · intro cwd files d hinv pre jobid post hlog hdir hsince hsame env o line arg
      hctl hsteady hline hjobid
    subst hdir
    obtain ⟨hslot, hcwd, hout, herr⟩ := stored_since hinv hlog hsince
    have hres : d.res.valid = true ∧ d.res.jobid = jobid ∧ d.res.code = r.code := by
      unfold Res.slot at hslot
      split_ifs at hslot with hvalid
      simp only [Option.some.injEq, Prod.mk.injEq] at hslot
      exact ⟨hvalid, hslot.1, hslot.2⟩
    have hcut : cutAt sp (ascii "RESULT" ++ sp :: arg) = (ascii "RESULT", some arg) :=
      cutAt_append_cons (by decide) arg
    have hverb : verbOf (ascii "RESULT") = .result := by decide
    rw [feed_whole_line o hctl hline hcut, hverb, ← hres.2.2]
    refine hemits o { d with ctl := .session true env line } env (some arg) hsteady
      hinv.inside.kind hres.1 ?_ ?_ ?_
    · simp only [resultId, hjobid, hres.2.1]
    · simp only [hcwd, hsame.rof, hout]
    · simp only [hcwd, hsame.ref, herr]
  · intro hcv hmaxout s
    have h := hplain hcv hmaxout
    cases s with
    | out => exact h.1
    | err => exact h.2

/-- Once a job has ended in directory `dir`, every RESULT sends the same
bytes, in whatever session and behind whatever commands, while the capture
paths name the files of the job and no upload has overwritten them.  They
carry the job's output and its code. -/
theorem result_repeats (cfg : Cfg) (dir : Bytes) (r : Captured) :
    ∃ ok fs,
      (∀ plan cwd files evs, ∀ d : Daemon,
        d = run cfg (Daemon.init cfg plan cwd files) evs →
        ∀ pre (jobid : ℕ) post, d.log = pre ++ .jobEnd jobid (some r) :: post →
        workDir cwd pre = dir → SinceJob cfg dir post →
        SameCapture cfg dir (workDir dir post) →
        ∀ env o line arg, d.ctl = .session true env [] → d.chan.Steady →
        Says cfg line (ascii "RESULT" ++ sp :: arg) → atol arg = jobid →
        (feed cfg o d (line ++ [lf])).chan.sent = d.chan.sent ++
          (if ok then encodeStream fs r.code else encodeFrames fs)) ∧
      (cfg.cv = none → ok = true) ∧
      (cfg.cv = none → cfg.maxout = 0 → Apart cfg dir cfg.rof cfg.ref →
        payload .out fs = r.out ∧ payload .err fs = r.err) := by
  obtain ⟨ok, fs, hsends, hok, hplain⟩ := feed_result_since cfg dir r
  refine ⟨ok, fs, ?_, hok, ?_⟩
  · intro plan cwd files evs d hd
    have hinv : Inv cfg (Origin.init cwd files) d := by
      rw [hd]
      exact inv_reachable cfg plan cwd files evs
    exact hsends cwd files d hinv
  intro hcv hmaxout hapart
  have htext := hplain hcv hmaxout
  rw [htext .out, htext .err]
  exact (fileText_eq_iff cfg dir cfg.rof cfg.ref r.order r.out r.err).mpr (.inl hapart)

/-! ## The default tmpdir of DOS -/

/-- A path is absolute, or starts with a drive, or goes behind the directory. -/
def dosResolve (cwd path : Bytes) : Bytes :=
  match path with
  | 46 :: 92 :: rest => cwd ++ backslash :: rest
  | _ =>
      if path.head?.any isSep || path[1]? = some 58 then path
      else cwd ++ backslash :: path

def dotCfg : Cfg :=
  { sessionInit smallCfg (ascii ".") (ascii "t") true false false with
    resolve := dosResolve }

def rootDir : Bytes := ascii "C:"

def dotInit : Daemon := Daemon.init dotCfg [] rootDir fun _ => none

def askAgain : List Ev := submitThenAsk ++ rxAll {} (ascii "RESULT 1" ++ [lf])

theorem result_repeats_dot :
    ∃ bytes,
      (feed dotCfg {} (run dotCfg dotInit submitThenAsk)
          (ascii "RESULT 1" ++ [lf])).chan.sent =
        (run dotCfg dotInit submitThenAsk).chan.sent ++ bytes ∧
      (feed dotCfg {} (run dotCfg dotInit askAgain)
          (ascii "RESULT 1" ++ [lf])).chan.sent =
        (run dotCfg dotInit askAgain).chan.sent ++ bytes := by
  let r : Captured := ⟨3, ascii "ab", [], []⟩
  let pre : List Obs :=
    [.sessionStart, .auth, .runa 1 (ascii "x") [], .sessionEnd,
      .jobStart 1 (ascii "x") []]
  obtain ⟨ok, fs, hrepeats, _⟩ := result_repeats dotCfg rootDir r
  have hline : Says dotCfg (ascii "RESULT 1") (ascii "RESULT" ++ sp :: ascii "1") :=
    ⟨by decide, by decide, by decide⟩
  have hfirst := hrepeats [] rootDir (fun _ => none) submitThenAsk _ rfl pre 1
    [.sessionStart, .auth] (by decide) (by decide)
    ⟨by decide, by simp [Spares, Obs.writes], by simp [Spares, Obs.writes]⟩
    ⟨rfl, rfl⟩ [] {} _ (ascii "1") (by decide) (by decide) hline (by decide)
  have hsecond := hrepeats [] rootDir (fun _ => none) askAgain _ rfl pre 1
    [.sessionStart, .auth, .fopen dotCfg.rof, .fopen dotCfg.ref]
    (by decide +kernel) (by decide)
    ⟨by decide, by simp [Spares, Obs.writes], by simp [Spares, Obs.writes]⟩
    ⟨rfl, rfl⟩ [] {} _ (ascii "1") (by decide +kernel) (by decide +kernel) hline
    (by decide)
  exact ⟨_, hfirst, hsecond⟩

/-- Behind a CWD the same RESULT finds no files: the output is gone. -/
theorem result_lost_behind_cwd :
    (feed dotCfg {} (run dotCfg dotInit submitThenAsk)
        (ascii "RESULT 1" ++ [lf])).chan.sent =
      (run dotCfg dotInit submitThenAsk).chan.sent ++
        (ascii "O 2" ++ lf :: ascii "abX 3" ++ [lf]) ∧
    (feed dotCfg {}
        (run dotCfg dotInit
          (askAgain ++ rxAll { chdir := some (ascii "C:\\sub") }
            (ascii "CWD sub" ++ [lf]))) (ascii "RESULT 1" ++ [lf])).chan.sent =
      (run dotCfg dotInit
          (askAgain ++ rxAll { chdir := some (ascii "C:\\sub") }
            (ascii "CWD sub" ++ [lf]))).chan.sent ++ (ascii "X 3" ++ [lf]) := by
  decide +kernel

end GrandCross
