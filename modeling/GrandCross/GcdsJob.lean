import GrandCross.AsyncFetch
import GrandCross.GcdsRun
import GrandCross.TransferRun

/-!
# A job of gcds

`gcds --async` submits the command on one connection and fetches the result on
a later one.  In between the daemon may go through anything, with other
clients too; what is fetched is what the job has left, once it has ended and
until the next command is accepted.
-/

namespace GrandCross

open CText
open Transfer

/-! ## The submission -/

/-- RUNA is answered with the next id, and is in the log for good. -/
theorem AtCommand.hearsRuna
    {cfg : Cfg} {d : Daemon} (h : AtCommand cfg d) (hcv : cfg.cv = none) (o : Answers)
    {cmd : Bytes} (hcmd : LineClean cmd) (hnul : nul ∉ cmd) (hfits : cmd.length < lineMax - 8)
    {d' : Daemon} (hd' : d' = feed cfg o d (requestLine (ascii "RUNA ") cmd ++ [lf])) :
    d'.chan.sent = d.chan.sent ++ (ascii "OK " ++ decimal (nextJobid d.lastJob) ++ [lf]) ∧
      ∃ rest, d'.log = d.log ++ .runa (nextJobid d.lastJob) cmd [] :: rest := by
  have hverb : LineClean (ascii "RUNA") ∧ nul ∉ ascii "RUNA" ∧ sp ∉ ascii "RUNA" := by decide
  have hline : ascii "RUNA " = ascii "RUNA" ++ [sp] := by decide
  have hruna : verbOf (ascii "RUNA") = .runa := by decide
  have hfour : (ascii "RUNA").length = 4 := rfl
  have hmax : lineMax = 1024 := rfl
  let d₁ : Daemon :=
    acceptRuna { d with ctl := .session true [] (ascii "RUNA" ++ sp :: cmd) } cmd []
  let w := lioPutLine d.chan (ascii "OK " ++ decimal (nextJobid d.lastJob))
  have hheard : d' = sessionReturn cfg o { d₁ with chan := w.2 } := by
    rw [hd', hline, h.hears hcv o hverb hcmd hnul (by omega), hruna]
    rfl
  have hstored : (gcdsStrlcpy cmd lineMax).1 = cmd := by
    simp only [gcdsStrlcpy]
    exact List.take_of_length_le (by omega)
  have horigin : Origin.Traces cfg
      ⟨d₁.log, d₁.view (.accepted (nextJobid d.lastJob) cmd []), fun _ => True⟩
      d₁.log (d₁.view (.accepted (nextJobid d.lastJob) cmd [])) :=
    ⟨[], by simp, rfl, by simp⟩
  have hreturn := inv_sessionReturn_job (d := { d₁ with chan := w.2 }) horigin
    (by simp [d₁, acceptRuna, hstored]) ((lioPutLine_kind _ _).trans h.kind) o
  obtain ⟨rest, hlog, -, -⟩ := hreturn.inside.traced
  have hput := wrote_lioPutLine h.steady (ascii "OK " ++ decimal (nextJobid d.lastJob))
  constructor
  · rw [hheard, sessionReturn_chan]
    exact hput.sent
  · refine ⟨rest, ?_⟩
    rw [hheard, hlog]
    simp [d₁, acceptRuna]

theorem idLine_fits
    {word : Bytes} (hword : word.length ≤ 10) {n : ℕ} (hn : n ≤ jobMax) :
    (word ++ decimal n).length < lineMax := by
  have hdigits : (decimal n).length ≤ 5 :=
    decimal_length_le (by omega) (lt_of_le_of_lt hn (by decide))
  rw [List.length_append]
  unfold lineMax
  omega

/-! ## Waiting for the result -/

/-- An attempt while the job has not ended: there is no connection, no answer
to STAT, or the daemon is busy. -/
inductive Unready (conf : HostConf) (jobid : ℤ) (dial : Dial) : Prop where
  | connect (h : Fails conf jobid dial .connect)
  | stat (h : Fails conf jobid dial .stat)
  | busy (line : Bytes) (link : Link) (answered : Answered conf dial line link)
      (busy : gcdsStarts line (ascii "OK busy") = true)

section

variable {conf : HostConf} {jobid : ℤ} {dial : Dial} {p : Poll}

theorem Unready.turn (h : Unready conf jobid dial) (hwant : p.want = statWant jobid) :
    pollTurn conf jobid p dial = (none, p) := by
  cases h with
  | connect h => exact pollTurn_early h (.inl rfl) p
  | stat h => exact pollTurn_early h (.inr (.inr rfl)) p
  | busy line link answered busy =>
      have hother : ¬ line = p.want := by
        intro hsame
        rw [hsame, hwant] at busy
        exact Bool.false_ne_true busy
      rw [pollTurn_of_answered answered]
      unfold pollStat
      rw [if_neg hother, if_pos busy]

theorem pollLoop_unready
    {early : List Dial} (hearly : ∀ dial ∈ early, Unready conf jobid dial)
    (hwant : p.want = statWant jobid) (later : List Dial) :
    pollLoop conf jobid p (early ++ later) = pollLoop conf jobid p later := by
  induction early with
  | nil => rfl
  | cons dial early ih =>
      have hturn := (hearly dial (by simp)).turn hwant
      rw [List.cons_append, pollLoop, hturn]
      exact ih fun dial' hdial' => hearly dial' (by simp [hdial'])

end

/-! ## The result -/

/-- One more connection of the client: the peer that the daemon sees, what it
finds meanwhile, and how the calls at both ends split. -/
structure Visit where
  peer : Bytes
  answers : Answers
  plan : List (Option ℕ)
  wplan : List (Option ℕ)
  rplan : List (Option ℕ)

structure Visit.Ok (cfg : Cfg) (v : Visit) : Prop where
  peer : cfg.peerOk v.peer = true
  plan : none ∉ v.plan
  wplan : none ∉ v.wplan
  rplan : none ∉ v.rplan

def fetchLines (t : Bytes) (jobid : ℕ) : Bytes :=
  lineText [authLine t, ascii "STAT", resultLine jobid]

/-- The daemon behind the lines of a fetch. -/
def Visit.served (v : Visit) (cfg : Cfg) (t : Bytes) (jobid : ℕ) (d : Daemon) : Daemon :=
  feed cfg v.answers (step cfg d (.accept v.peer v.plan v.answers)) (fetchLines t jobid)

def Visit.dial (v : Visit) (cfg : Cfg) (t : Bytes) (jobid : ℕ) (d : Daemon) : Dial :=
  some (v.wplan, ⟨v.rplan, (v.served cfg t jobid d).chan.sent⟩)

/-- Job `jobid` has ended with what `child` gave, and nothing has touched its
result since. -/
def JobKept (cfg : Cfg) (cwd : Bytes) (jobid : ℕ) (child : Child) (log : List Obs) : Prop :=
  ∃ pre post, log = pre ++ .jobEnd jobid (some child.captured) :: post ∧
    SinceJob cfg (workDir cwd pre) post ∧
    SameCapture cfg (workDir cwd pre) (workDir (workDir cwd pre) post) ∧
    (Apart cfg (workDir cwd pre) cfg.rof cfg.ref ∨ child.out = child.err)

/-- The daemon waits for a peer and still has the result of the job. -/
structure JobOver (cfg : Cfg) (cwd : Bytes) (jobid : ℕ) (child : Child) (d : Daemon) : Prop where
  ctl : d.ctl = .accept
  kept : JobKept cfg cwd jobid child d.log

theorem spares_append
    {cfg : Cfg} {f cwd : Bytes} {trace more : List Obs} (h : Spares cfg f cwd trace)
    (hmore : ∀ o ∈ more, o.writes = none) : Spares cfg f cwd (trace ++ more) := by
  induction trace generalizing cwd with
  | nil =>
      rw [List.nil_append]
      induction more generalizing cwd with
      | nil => trivial
      | cons o more ih =>
          refine ⟨?_, ih (fun o' ho' => hmore o' (by simp [ho'])) trivial⟩
          rw [hmore o (by simp)]
          simp
  | cons o trace ih => exact ⟨h.1, ih h.2⟩

theorem SinceJob.login
    {cfg : Cfg} {dir : Bytes} {post : List Obs} (h : SinceJob cfg dir post) :
    SinceJob cfg dir (post ++ [.sessionStart, .auth]) := by
  have hwrites : ∀ o ∈ [Obs.sessionStart, Obs.auth], o.writes = none := by decide
  have hresets : ∀ o ∈ [Obs.sessionStart, Obs.auth], o.resets = false := by decide
  refine ⟨?_, spares_append h.rof hwrites, spares_append h.ref hwrites⟩
  intro o ho
  rcases List.mem_append.mp ho with ho | ho
  · exact h.quiet o ho
  · exact hresets o ho

theorem statWant_clean (n : ℕ) : LineClean (statWant n) ∧ nul ∉ statWant n :=
  wordLine_clean (by decide : LineClean (ascii "OK result ") ∧ nul ∉ ascii "OK result ") n

section

variable {cfg : Cfg} {cwd t : Bytes} {files : Bytes → Option Bytes} {d : Daemon} {jobid : ℕ}
  {child : Child} {v : Visit}

/-- Logging in leaves the result as it is. -/
theorem JobKept.login
    {log : List Obs} (h : JobKept cfg cwd jobid child log) :
    JobKept cfg cwd jobid child (log ++ [.sessionStart, .auth]) := by
  obtain ⟨pre, post, hlog, hsince, hsame, hfiles⟩ := h
  have hwork : workDir (workDir cwd pre) (post ++ [.sessionStart, .auth]) =
      workDir (workDir cwd pre) post := by
    simp [workDir, Obs.dirAfter]
  refine ⟨pre, post ++ [.sessionStart, .auth], by simp [hlog], hsince.login, ?_, hfiles⟩
  rw [hwork]
  exact hsame

theorem JobKept.stat
    (h : JobKept cfg cwd jobid child d.log) (hinv : Inv cfg (Origin.init cwd files) d) :
    statLine d.res = statWant jobid := by
  obtain ⟨pre, post, hlog, hsince, -, -⟩ := h
  obtain ⟨hslot, -, -, -⟩ := stored_since hinv hlog hsince
  unfold Res.slot at hslot
  split_ifs at hslot with hvalid
  simp only [Option.some.injEq, Prod.mk.injEq] at hslot
  unfold statLine
  rw [if_pos hvalid, hslot.1]
  rfl

/-- STAT and RESULT give the code and the output of the job. -/
theorem JobKept.fetched
    (h : JobKept cfg cwd jobid child d.log) (hcommand : AtCommand cfg d)
    (hinv : Inv cfg (Origin.init cwd files) d) (hcv : cfg.cv = none) (hmaxout : cfg.maxout = 0)
    (hjobid : jobid ≤ jobMax) (o : Answers) :
    ∃ fs, (feed cfg o d (lineText [ascii "STAT", resultLine jobid])).chan.sent =
        d.chan.sent ++ (statWant jobid ++ lf :: encodeStream fs child.status.code) ∧
      ∀ s, payload s fs = child.text s := by
  have hreads := readsPolls_plain hcv
  obtain ⟨c, hsent, hc, hasked⟩ :=
    feed_stat_eq o hcommand.ctl hcommand.steady hreads.says_stat
  rw [h.stat hinv] at hsent
  -- the daemon behind STAT
  obtain ⟨d₁, hd₁⟩ : ∃ d₁, d₁ = feed cfg o d (ascii "STAT" ++ [lf]) := ⟨_, rfl⟩
  have hinv₁ : Inv cfg (Origin.init cwd files) d₁ := by
    rw [hd₁, feed_eq_run]
    exact hinv.run (fun _ => trivial) _
  rw [← hd₁] at hasked
  have hsent₁ : d₁.chan.sent = d.chan.sent ++ (statWant jobid ++ [lf]) := by
    rw [hasked]
    exact hsent
  obtain ⟨pre, post, hlog, hsince, hsame, hfiles⟩ := h
  have hlog₁ : d₁.log = pre ++ .jobEnd jobid (some child.captured) :: post := by
    rw [hasked]
    exact hlog
  obtain ⟨ok, fs, hsends, hok, hpayload⟩ :=
    feed_result_since cfg (workDir cwd pre) child.captured
  have hresult := hsends cwd files d₁ hinv₁ pre jobid post hlog₁ rfl hsince hsame [] o
    (resultLine jobid) (decimal jobid) (by rw [hasked]) (by rw [hasked]; exact hc)
    (hreads.says_result hjobid) (atol_decimal (hjobid.trans (by decide)))
  rw [hok hcv, if_pos rfl] at hresult
  refine ⟨fs, ?_, ?_⟩
  · have hlines : lineText [ascii "STAT", resultLine jobid] =
        (ascii "STAT" ++ [lf]) ++ (resultLine jobid ++ [lf]) := by
      simp [lineText]
    rw [hlines, feed_append, ← hd₁, hresult, hsent₁]
    simp [Child.captured]
  · have hboth := (fileText_eq_iff cfg (workDir cwd pre) cfg.rof cfg.ref child.order child.out
      child.err).mpr hfiles
    intro s
    rw [hpayload hcv hmaxout]
    cases s with
    | out => exact hboth.1
    | err => exact hboth.2

/-- What the daemon sends on a fetch. -/
theorem JobOver.serves
    (h : JobOver cfg cwd jobid child d) (hinv : Inv cfg (Origin.init cwd files) d)
    (hcv : cfg.cv = none) (hmaxout : cfg.maxout = 0) (hkind : cfg.kind = .tcp)
    (hjobid : jobid ≤ jobMax) (hv : v.Ok cfg) (htoken : stripCr t = cfg.token)
    (ht : lf ∉ t ∧ nul ∉ t ∧ t.length < confValMax) :
    ∃ fs, (v.served cfg t jobid d).chan.sent =
        greeting cfg ++ lf :: (ascii "OK" ++ lf ::
          (statWant jobid ++ lf :: encodeStream fs child.status.code)) ∧
      ∀ s, payload s fs = child.text s := by
  obtain ⟨d₁, hd₁⟩ : ∃ d₁, d₁ = feed cfg v.answers
    (step cfg d (.accept v.peer v.plan v.answers)) (authLine t ++ [lf]) := ⟨_, rfl⟩
  have hinv₁ : Inv cfg (Origin.init cwd files) d₁ := by
    rw [hd₁, feed_eq_run]
    exact (hinv.step _ fun _ => trivial).run (fun _ => trivial) _
  obtain ⟨hcommand, hsent, hlog, -⟩ :=
    accept_command hcv hkind h.ctl hv.peer hv.plan v.answers ht htoken hd₁
  have hkept : JobKept cfg cwd jobid child d₁.log := by
    rw [hlog]
    exact h.kept.login
  obtain ⟨fs, hfetched, hpayload⟩ :=
    hkept.fetched hcommand hinv₁ hcv hmaxout hjobid v.answers
  have hlines : fetchLines t jobid =
      (authLine t ++ [lf]) ++ lineText [ascii "STAT", resultLine jobid] := by
    simp [fetchLines, lineText]
  refine ⟨fs, ?_, hpayload⟩
  unfold Visit.served
  rw [hlines, feed_append, ← hd₁, hfetched, hsent]
  simp

end

/-- The attempt that finds the result. -/
theorem pollTurn_fetches
    {cfg : Cfg} (hgreets : cfg.Greets) {t : Bytes} {jobid : ℕ} {child : Child}
    {wplan rplan : List (Option ℕ)} (hw : none ∉ wplan) (hr : none ∉ rplan)
    (hle : jobid ≤ jobMax) {fs : List Frame} (hpayload : ∀ s, payload s fs = child.text s)
    {dial : Dial}
    (hdial : dial = some (wplan, ⟨rplan, greeting cfg ++ lf :: (ascii "OK" ++ lf ::
      (statWant jobid ++ lf :: encodeStream fs child.status.code))⟩)) :
    ∃ link, Answered ⟨.tcp, some t⟩ dial (statWant jobid) link ∧
      (lioPutLine link.chan (resultLine jobid)).2.sent = fetchLines t jobid ∧
      ∀ p : Poll, p.want = statWant jobid → p.fd1.Steady → p.fd2.Steady → p.mb = none →
        ∃ p', pollTurn ⟨.tcp, some t⟩ jobid p dial = (some (child.status.code : ℤ), p') ∧
          p'.fd1.taken = p.fd1.taken ++ child.out ∧
          p'.fd2.taken = p.fd2.taken ++ child.err := by
  obtain ⟨link₀, link₁, hopen, hauth, hopened⟩ := login_opened hgreets t hw hr
    (by decide : LineClean (ascii "OK")) (by decide) (by decide) hdial
  have hsize : (statWant jobid).length < lineMax :=
    idLine_fits (by decide : (ascii "OK result ").length ≤ 10) hle
  obtain ⟨link, hstat, hafter⟩ := rcCmd_reply hopened (statWant_clean jobid).1
    (statWant_clean jobid).2 hsize (ascii "STAT")
  have hanswered : Answered ⟨.tcp, some t⟩ dial (statWant jobid) link :=
    ⟨link₀, cfg.view, link₁, hopen, hauth, hstat⟩
  have hput := wrote_lioPutLine hafter.chan (resultLine jobid)
  refine ⟨link, hanswered, ?_, ?_⟩
  · rw [hput.sent, hafter.sent]
    simp [fetchLines, lineText]
  · intro p hwant hfd1 hfd2 hmb
    have hrc : Rc.Steady ⟨link.inp, p.fd1, p.fd2, p.mb⟩ := ⟨hafter.inp, hfd1, hfd2⟩
    have hpending : link.inp.pending = encodeStream fs child.status.code ++ [] := by
      rw [List.append_nil]
      exact hafter.pending
    obtain ⟨rc', htook, hstream⟩ := rcStream_complete hrc fs child.status.code hpending
    obtain ⟨-, hout, herr⟩ := htook.plain hmb
    rw [Nat.mod_eq_of_lt child.status.code_lt] at hstream
    rw [hpayload] at hout herr
    refine ⟨⟨resultLine jobid, rc'.fd1, rc'.fd2, rc'.mb⟩, ?_, hout, herr⟩
    rw [pollTurn_of_answered hanswered]
    unfold pollStat pollStream
    rw [if_pos hwant.symm]
    dsimp only
    rw [if_pos hput.ok, hstream]
    dsimp only
    rw [if_neg (by omega)]

/-! ## Both ends -/

/-- The job has been submitted behind `log`; the client ends with its code and
its output when it comes back for them. -/
structure Submitted (cfg : Cfg) (t cwd cmd : Bytes) (d' : Daemon) (w : GcdsWorld) (sent : Bytes)
    (log : List Obs) (jobid : ℕ) (r : GcdsEnd) : Prop where
  sent : r.sent = some sent
  logged : ∃ rest, d'.log = log ++ .runa jobid cmd [] :: rest
  fetched : ∀ evs child, JobOver cfg cwd jobid child (run cfg d' evs) →
    ∀ v : Visit, v.Ok cfg → ∀ early later,
      (∀ dial ∈ early, Unready ⟨.tcp, some t⟩ jobid dial) →
      w.polls = early ++ v.dial cfg t jobid (run cfg d' evs) :: later →
        r.code = some (child.status.code : ℤ) ∧ r.fd1.taken = w.fd1.taken ++ child.out ∧
          r.fd2.taken = w.fd2.taken ++ child.err ∧
          ∃ link, Answered ⟨.tcp, some t⟩ (v.dial cfg t jobid (run cfg d' evs))
              (statWant jobid) link ∧
            (lioPutLine link.chan (resultLine jobid)).2.sent = fetchLines t jobid

theorem gcdsRuna_runs
    {cfg : Cfg} {o : Answers} {w : GcdsWorld} {cmd cwd t : Bytes}
    {files : Bytes → Option Bytes} (hgreets : cfg.Greets) (hcv : cfg.cv = none)
    (hmaxout : cfg.maxout = 0) (hkind : cfg.kind = .tcp) (htoken : stripCr t = cfg.token)
    (ht : lf ∉ t ∧ nul ∉ t ∧ t.length < confValMax) (hfd1 : w.fd1.Steady)
    (hfd2 : w.fd2.Steady) (hcmd : LineClean cmd ∧ nul ∉ cmd ∧ cmd.length < lineMax - 8)
    {d' : Daemon} (hinv : Inv cfg (Origin.init cwd files) d') :
    RunsOn cfg o id (requestLine (ascii "RUNA ") cmd) d'
      (gcdsRuna ⟨.tcp, some t⟩ w none cmd)
      fun sent log _ r => ∃ jobid, Submitted cfg t cwd cmd d' w sent log jobid r := by
  intro d link sent pending h hopened hd' hpending
  have hle := nextJobid_le d.lastJob
  obtain ⟨hsent, hlogged⟩ := h.hearsRuna hcv o hcmd.1 hcmd.2.1 hcmd.2.2 hd'
  generalize nextJobid d.lastJob = jobid at hle hsent hlogged
  have hanswer : pending = (ascii "OK " ++ decimal jobid) ++ lf :: [] :=
    List.append_cancel_left (hpending.symm.trans hsent)
  rw [hanswer] at hopened
  have hsize : (ascii "OK " ++ decimal jobid).length < lineMax :=
    idLine_fits (by decide : (ascii "OK ").length ≤ 10) hle
  obtain ⟨link', hreply, hafter⟩ := rcCmd_reply hopened (storedLine_clean jobid).1
    (storedLine_clean jobid).2 hsize (requestLine (ascii "RUNA ") cmd)
  have hstarts : gcdsStarts (ascii "OK " ++ decimal jobid) (ascii "OK ") = true := by
    simp [gcdsStarts, ascii]
  have hid : atol ((ascii "OK " ++ decimal jobid).drop 3) = jobid :=
    atol_decimal (hle.trans (by decide))
  have hend : gcdsRuna ⟨.tcp, some t⟩ w none cmd link =
      ⟨(pollResult ⟨.tcp, some t⟩ jobid w.fd1 w.fd2 none w.polls).1.map exitCode, some link',
        (pollResult ⟨.tcp, some t⟩ jobid w.fd1 w.fd2 none w.polls).2.fd1,
        (pollResult ⟨.tcp, some t⟩ jobid w.fd1 w.fd2 none w.polls).2.fd2⟩ := by
    unfold gcdsRuna
    rw [hreply]
    dsimp only
    rw [if_pos hstarts, hid]
  refine ⟨jobid, ?_, hlogged, ?_⟩
  · rw [hend, ← hafter.sent]
    rfl
  · intro evs child hover v hv early later hearly hpolls
    obtain ⟨fs, hserved, hpayload⟩ := hover.serves (hinv.run (fun _ => trivial) evs) hcv
      hmaxout hkind hle hv htoken ht
    have hdial : v.dial cfg t jobid (run cfg d' evs) =
        some (v.wplan, ⟨v.rplan, greeting cfg ++ lf :: (ascii "OK" ++ lf ::
          (statWant jobid ++ lf :: encodeStream fs child.status.code))⟩) := by
      unfold Visit.dial
      rw [hserved]
    obtain ⟨link'', hanswered, hlines, hfetch⟩ :=
      pollTurn_fetches hgreets hv.wplan hv.rplan hle hpayload hdial
    obtain ⟨p', hturn, hout, herr⟩ :=
      hfetch ⟨statWant jobid, w.fd1, w.fd2, none⟩ rfl hfd1 hfd2 rfl
    have hresult : pollResult ⟨.tcp, some t⟩ jobid w.fd1 w.fd2 none w.polls =
        (some (child.status.code : ℤ), p') := by
      unfold pollResult
      rw [hpolls, pollLoop_unready hearly rfl, pollLoop, hturn]
    rw [hend, hresult]
    refine ⟨?_, hout, herr, link'', hanswered, hlines⟩
    rw [Option.map_some, exitCode, if_neg (by omega)]

/-- A run of `gcds --async`, whatever the daemon goes through in between: nothing
has been submitted, or the job has, and once it is over the first attempt that
is served brings home its code and its output. -/
theorem gcds_async_exact
    {cfg₀ cfg : Cfg} {tmpdir u : Bytes} {asyncOk liveOk ixOk : Bool}
    (hinit : cfg = sessionInit cfg₀ tmpdir u asyncOk liveOk ixOk) (hgreets : cfg₀.Greets)
    (hcv : cfg₀.cv = none) (hmaxout : cfg₀.maxout = 0) (hkind : cfg₀.kind = .tcp)
    (plan₀ : List (Option ℕ)) (cwd₀ : Bytes) (files : Bytes → Option Bytes) (before : List Ev)
    {d : Daemon} (hd : d = run cfg (Daemon.init cfg plan₀ cwd₀ files) before)
    (hctl : d.ctl = .accept) {peer : Bytes} (hpeer : cfg₀.peerOk peer = true)
    {plan wplan rplan : List (Option ℕ)} (hplan : none ∉ plan) (hw : none ∉ wplan)
    (hr : none ∉ rplan) (o : Answers) {kv : List GcdsKv} {host t : Bytes}
    (hconf : peerConf kv host = some ⟨.tcp, some t⟩)
    (ht : lf ∉ t ∧ nul ∉ t ∧ t.length < confValMax) {opts : ClientOpts}
    (hopts : opts.ix = false ∧ (asyncOk || opts.async) = true ∧ opts.mapback = false)
    {w : GcdsWorld} (hfd1 : w.fd1.Steady) (hfd2 : w.fd2.Steady) {cwd : PmResult}
    (hmap : pmCwd kv host w.getcwd confValMax = cwd)
    (hcwd : ∀ p, cwd = .mapped p → LineClean p ∧ nul ∉ p) {cmd : Bytes}
    (hcmd : LineClean cmd ∧ nul ∉ cmd ∧ cmd.length < lineMax - 8) {d' : Daemon}
    (hd' : d' = feed cfg o (step cfg d (.accept peer plan o))
      (lineText (sessionLines cfg o t cwd (requestLine (ascii "RUNA ") cmd))))
    (hdial : w.dial = some (wplan, ⟨rplan, d'.chan.sent⟩)) :
    let sent := lineText (sessionLines cfg o t cwd (requestLine (ascii "RUNA ") cmd))
    let log := d.log ++ sessionLog cfg o t cwd
    match sessionDir cfg o t d.cwd cwd with
    | none => Declined sent log d' w (gcdsRun kv host opts cmd w)
    | some _ =>
        ∃ jobid, Submitted cfg t cwd₀ cmd d' w sent log jobid (gcdsRun kv host opts cmd w) := by
  have hgreets' : cfg.Greets := by
    rw [hinit]
    exact hgreets.sessionInit tmpdir u asyncOk liveOk ixOk
  have hcv' : cfg.cv = none := by rw [hinit]; exact hcv
  have hmaxout' : cfg.maxout = 0 := by rw [hinit]; exact hmaxout
  have hkind' : cfg.kind = .tcp := by rw [hinit]; exact hkind
  have hview : cfg.view.capAsync = asyncOk := by rw [hinit]; rfl
  have hinv : Inv cfg (Origin.init cwd₀ files) d' := by
    rw [hd', feed_eq_run, hd]
    exact ((inv_reachable cfg plan₀ cwd₀ files before).step _ fun _ => trivial).run
      (fun _ => trivial) _
  have hmain : ∀ link, gcdsCommand ⟨.tcp, some t⟩ kv host opts cmd w cfg.view link =
      gcdsBehind cwd w (gcdsRuna ⟨.tcp, some t⟩ w none cmd) link := by
    intro link
    unfold gcdsCommand gcdsBehind
    rw [hmap, hopts.1, hopts.2.2, hview, hopts.2.1]
    rfl
  have hfits : ∀ p, cwd = .mapped p → LineClean p ∧ nul ∉ p ∧ p.length < confValMax :=
    fun p hp => ⟨(hcwd p hp).1, (hcwd p hp).2, pmCwd_length (hmap.trans hp)⟩
  have hstays : GoesOn id := ⟨fun _ _ => rfl, fun h => h⟩
  exact gcdsRun_session hinit hgreets hcv hkind hctl hpeer hplan hw hr hconf ht hmain hfits hstays
    (fun htoken => gcdsRuna_runs hgreets' hcv' hmaxout' hkind' htoken ht hfd1 hfd2 hcmd hinv) hd'
    hdial

/-! ## A job and its result -/

def jobVisit : Visit := ⟨[], {}, [], [], []⟩

def jobTaken : Daemon :=
  feed (posixCfg (ascii "/tmp")) inMapped
    (step (posixCfg (ascii "/tmp")) (Daemon.init (posixCfg (ascii "/tmp")) [] (ascii "/")
      fun _ => none) (.accept [] [] inMapped))
    (ascii "AUTH t" ++ lf :: ascii "CWD /r/s" ++ lf :: ascii "RUNA x" ++ [lf])

def jobReaped : List Ev := [.select { reaped := true } {}]

/-- The first attempt finds nobody, the second one the result. -/
def jobWorld : GcdsWorld :=
  { answeredRun with
    dial := some ([], ⟨[], jobTaken.chan.sent⟩)
    polls := [none, jobVisit.dial (posixCfg (ascii "/tmp")) (ascii "t") 1
      (run (posixCfg (ascii "/tmp")) jobTaken jobReaped)] }

theorem gcds_async_exact_fetched :
    (gcdsRun oneHost (ascii "h") ClientOpts.start (ascii "x") jobWorld).code = some 3 ∧
      (gcdsRun oneHost (ascii "h") ClientOpts.start (ascii "x") jobWorld).fd1.taken =
        ascii "a" ∧
      (gcdsRun oneHost (ascii "h") ClientOpts.start (ascii "x") jobWorld).fd2.taken =
        ascii "b" := by
  have hgreets : Cfg.Greets { smallCfg with build := ⟨false, false, false, true, true⟩ } :=
    ⟨by decide, by decide, by decide, by decide⟩
  have htaken : jobTaken = feed (posixCfg (ascii "/tmp")) inMapped
      (step (posixCfg (ascii "/tmp")) (Daemon.init (posixCfg (ascii "/tmp")) [] (ascii "/")
        fun _ => none) (.accept [] [] inMapped))
      (lineText (sessionLines (posixCfg (ascii "/tmp")) inMapped (ascii "t")
        (.mapped (ascii "/r/s")) (requestLine (ascii "RUNA ") (ascii "x")))) := rfl
  have hend := gcds_async_exact (rfl : posixCfg (ascii "/tmp") = _) hgreets rfl rfl rfl
    [] (ascii "/") (fun _ => none) [] rfl
    (rfl : (Daemon.init (posixCfg (ascii "/tmp")) [] (ascii "/") fun _ => none).ctl = .accept)
    (rfl : smallCfg.peerOk [] = true) (by decide) (by decide) (by decide) inMapped
    (rfl : peerConf oneHost (ascii "h") = some ⟨.tcp, some (ascii "t")⟩)
    (by decide) (by decide : ClientOpts.start.ix = false ∧ _) (by decide) (by decide)
    (by decide +kernel :
      pmCwd oneHost (ascii "h") jobWorld.getcwd confValMax = .mapped (ascii "/r/s"))
    (by rintro p ⟨⟩; decide) (by decide) htaken rfl
  have hdir : sessionDir (posixCfg (ascii "/tmp")) inMapped (ascii "t") (ascii "/")
      (.mapped (ascii "/r/s")) = some (ascii "/r/s") := by decide
  dsimp only at hend
  rw [show (run (posixCfg (ascii "/tmp")) (Daemon.init (posixCfg (ascii "/tmp")) [] (ascii "/")
    fun _ => none) []).cwd = ascii "/" from rfl, hdir] at hend
  obtain ⟨jobid, hjob⟩ := hend
  have hfirst : jobid = 1 := by
    obtain ⟨rest, hlog⟩ := hjob.logged
    have hentry : jobTaken.log[3]? = some (.runa 1 (ascii "x") []) := by decide +kernel
    rw [hlog] at hentry
    have hsame : (Obs.runa jobid (ascii "x") []) = .runa 1 (ascii "x") [] :=
      Option.some.inj hentry
    cases hsame
    rfl
  subst hfirst
  have hover : JobOver (posixCfg (ascii "/tmp")) (ascii "/") 1 twoStreams
      (run (posixCfg (ascii "/tmp")) jobTaken jobReaped) := by
    refine ⟨by decide +kernel, [.sessionStart, .auth, .chdir (ascii "/r/s") (ascii "/r/s"),
      .runa 1 (ascii "x") [], .sessionEnd, .jobStart 1 (ascii "x") [],
      .create (ascii "/tmp/gcds_ro.tmp"), .create (ascii "/tmp/gcds_re.tmp")], [],
      by decide +kernel, ⟨by decide, trivial, trivial⟩, ⟨rfl, rfl⟩, .inl (by decide)⟩
  obtain ⟨hcode, hout, herr, -⟩ := hjob.fetched jobReaped twoStreams hover jobVisit
    ⟨rfl, by decide, by decide, by decide⟩ [none] [] (by
      intro dial hdial
      rw [List.mem_singleton.mp hdial]
      exact .connect (.connect rfl)) rfl
  exact ⟨hcode, hout, herr⟩

end GrandCross
