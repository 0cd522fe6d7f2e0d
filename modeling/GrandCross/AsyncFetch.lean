import GrandCross.AsyncClients

/-!
# The daemon's side of an attempt

What a RUNA and an attempt of `poll_result` do to the log of the daemon, and
when an attempt can bring home a result: STAT has named its job, and the
client reads what RESULT sends.
-/

namespace GrandCross

open CText
open Transfer

/-! ## Lines of an attempt -/

/-- The command loop reads the lines of `poll_result` as they were sent. -/
structure ReadsPolls (cfg : Cfg) : Prop where
  stat : sessionText cfg (ascii "STAT") = ascii "STAT"
  result : ∀ n : ℕ, n ≤ jobMax → sessionText cfg (resultLine n) = resultLine n

theorem resultLine_clean (n : ℕ) :
    LineClean (resultLine n) ∧ nul ∉ resultLine n :=
  wordLine_clean (by decide : LineClean (ascii "RESULT ") ∧ nul ∉ ascii "RESULT ") n

theorem resultLine_length {n : ℕ} (hn : n ≤ jobMax) :
    (resultLine n).length ≤ 12 := by
  have hdigits : (decimal n).length ≤ 5 := by
    apply decimal_length_le (by omega)
    unfold jobMax at hn
    omega
  have hword : (ascii "RESULT ").length = 7 := by decide
  have htext : resultLine n = ascii "RESULT " ++ decimal n := rfl
  rw [htext, List.length_append, hword]
  omega

theorem readsPolls_plain {cfg : Cfg} (hcv : cfg.cv = none) : ReadsPolls cfg := by
  constructor
  · simp only [sessionText, hcv]
    decide
  · intro n _
    simp only [sessionText, hcv]
    exact cstr_eq_self (resultLine_clean n).2

theorem ReadsPolls.says_stat
    {cfg : Cfg} (h : ReadsPolls cfg) : Says cfg (ascii "STAT") (ascii "STAT") :=
  ⟨by decide, by decide, h.stat⟩

theorem ReadsPolls.says_result
    {cfg : Cfg} (h : ReadsPolls cfg) {n : ℕ} (hn : n ≤ jobMax) :
    Says cfg (resultLine n) (ascii "RESULT" ++ sp :: decimal n) := by
  refine ⟨(resultLine_clean n).1, ?_, h.result n hn⟩
  have := resultLine_length hn
  unfold lineMax
  omega

section

variable {cfg : Cfg} {s₀ : Origin} {d : Daemon} {env : List EnvEntry}

theorem Inv.feed_command
    (h : Inv cfg s₀ d) (o : Answers) (hctl : d.ctl = .session true env [])
    {line text : Bytes} (hline : Says cfg line text)
    (hverb : verbOf (cutAt sp text).1 ≠ .runa) :
    Inv cfg s₀ (feed cfg o d (line ++ [lf])) := by
  have hinside := h.inside
  rw [hctl] at hinside
  have htext := sessionText_length cfg hline.fits
  rw [hline.text] at htext
  rw [feed_whole_line o hctl hline rfl]
  apply (hinside.ctl (.session true env line)).inv_sessionCmd
  · intro arg harg
    have := cutAt_snd_length sp text arg harg
    omega
  · intro hruna
    exact absurd hruna hverb

theorem Inv.feed_command_log
    (h : Inv cfg s₀ d) (o : Answers) (hctl : d.ctl = .session true env [])
    {line text : Bytes} (hline : Says cfg line text)
    (hverb : verbOf (cutAt sp text).1 ≠ .runa) :
    ∃ rest, (feed cfg o d (line ++ [lf])).log = d.log ++ rest ∧
      ∀ o ∈ rest, o.submitted = none := by
  have honward := (h.onward fun _ => False).feed_command o hctl hline hverb
  obtain ⟨rest, hlog, _, hnone⟩ := honward.inside.traced
  refine ⟨rest, hlog, ?_⟩
  intro o' ho'
  cases hsub : o'.submitted with
  | none => rfl
  | some jobid => exact (hnone o' ho' jobid hsub).elim

end

theorem verbOf_stat : verbOf (cutAt sp (ascii "STAT")).1 ≠ .runa := by decide

theorem verbOf_result (arg : Bytes) :
    verbOf (cutAt sp (ascii "RESULT" ++ sp :: arg)).1 ≠ .runa := by
  rw [cutAt_append_cons (by decide) arg]
  exact (by decide : verbOf (ascii "RESULT") ≠ .runa)

theorem inCommand_ctl
    {c : Ctl} (h : c.inCommand = true) : ∃ env, c = .session true env [] := by
  unfold Ctl.inCommand at h
  split at h
  · exact ⟨_, rfl⟩
  · cases h

section

variable {cfg : Cfg} {cwd : Bytes} {files : Bytes → Option Bytes} {d : Daemon}

theorem attempt_keeps
    (hcfg : ReadsPolls cfg) (hinv : Inv cfg (Origin.init cwd files) d) (o : Answers)
    {n : ℕ} (hn : n ≤ jobMax) {p : Poll} {reach : Reach} {link : Option Link}
    {d' : Daemon} (hattempt : attempt cfg o d n p reach link = some d') :
    Inv cfg (Origin.init cwd files) d' ∧
      ∃ rest, d'.log = d.log ++ rest ∧ ∀ o ∈ rest, o.submitted = none := by
  have hself : Inv cfg (Origin.init cwd files) d ∧
      ∃ rest, d.log = d.log ++ rest ∧ ∀ o ∈ rest, o.submitted = none :=
    ⟨hinv, [], by simp, by simp⟩
  cases reach with
  | away =>
      cases link with
      | none =>
          simp only [attempt, Option.some.injEq] at hattempt
          rw [← hattempt]
          exact hself
      | some link => simp [attempt] at hattempt
  | control =>
      cases link with
      | none => simp [attempt] at hattempt
      | some link =>
          simp only [attempt] at hattempt
          split at hattempt
          · split_ifs at hattempt
            simp only [Option.some.injEq] at hattempt
            rw [← hattempt]
            exact hself
          · cases hattempt
  | stat =>
      cases link with
      | none => simp [attempt] at hattempt
      | some link =>
          simp only [attempt] at hattempt
          split_ifs at hattempt with hguard
          simp only [Option.some.injEq] at hattempt
          rw [← hattempt]
          obtain ⟨env, hctl⟩ := inCommand_ctl hguard.1
          exact ⟨hinv.feed_command o hctl hcfg.says_stat verbOf_stat,
            hinv.feed_command_log o hctl hcfg.says_stat verbOf_stat⟩
  | result =>
      cases link with
      | none => simp [attempt] at hattempt
      | some link =>
          simp only [attempt] at hattempt
          split_ifs at hattempt with hguard
          simp only [Option.some.injEq] at hattempt
          rw [← hattempt]
          obtain ⟨env, hctl⟩ := inCommand_ctl hguard.1
          have hstat := hinv.feed_command o hctl hcfg.says_stat verbOf_stat
          obtain ⟨c, _, _, hasked⟩ := feed_stat_eq o hctl hguard.2.1 hcfg.says_stat
          have hctl' : (feed cfg o d (ascii "STAT" ++ [lf])).ctl = .session true env [] := by
            rw [hasked]
          have hlog : (feed cfg o d (ascii "STAT" ++ [lf])).log = d.log := by
            rw [hasked]
          have hline := hcfg.says_result hn
          have hresult := hstat.feed_command_log o hctl' hline (verbOf_result _)
          rw [hlog] at hresult
          exact ⟨hstat.feed_command o hctl' hline (verbOf_result _), hresult⟩

theorem nextJobid_le (last : ℕ) : nextJobid last ≤ jobMax := by
  unfold nextJobid
  split_ifs
  · decide
  · omega

theorem submits_step
    (hinv : Inv cfg (Origin.init cwd files) d) {o : Answers}
    (hsub : d.submits cfg (.rx lf o) = true) :
    ∃ cmd env rest, (step cfg d (.rx lf o)).log =
        d.log ++ .runa (nextJobid d.lastJob) cmd env :: rest ∧
      (∀ o ∈ rest, o.submitted = none) ∧
      sentSince d (step cfg d (.rx lf o)) <+:
        ascii "OK " ++ decimal (nextJobid d.lastJob) ++ [lf] := by
  have hinside := hinv.inside
  have hok := hinv.ctl
  unfold Daemon.submits at hsub
  split at hsub
  · next env buf b o' hctl hev =>
      cases hev
      simp only [decide_true, Bool.true_and, isRuna, Bool.and_eq_true, decide_eq_true_eq]
        at hsub
      rw [hctl] at hinside hok
      obtain ⟨cmd, hcmd⟩ := Option.isSome_iff_exists.mp hsub.2
      have hfits : cmd.length < lineMax := by
        have htext := sessionText_length cfg hok
        have := cutAt_snd_length sp (sessionText cfg buf) cmd hcmd
        omega
      have hstored : (gcdsStrlcpy cmd lineMax).1 = cmd := by
        simp only [gcdsStrlcpy]
        exact List.take_of_length_le (by omega)
      let d₁ := acceptRuna d cmd env
      let w := lioPutLine d.chan (ascii "OK " ++ decimal (nextJobid d.lastJob))
      have hstep : step cfg d (.rx lf o) =
          sessionReturn cfg o { d₁ with chan := w.2 } := by
        simp only [step, rx, hctl, lioGetByte_lf, sessionLine, if_true, hsub.1, hcmd,
          sessionCmd, doRuna]
        rfl
      have horigin : Origin.Traces cfg
          ⟨d₁.log, d₁.view (.accepted (nextJobid d.lastJob) cmd env), fun _ => False⟩
          d₁.log (d₁.view (.accepted (nextJobid d.lastJob) cmd env)) :=
        ⟨[], by simp, rfl, by simp⟩
      have hreturn := inv_sessionReturn_job (d := { d₁ with chan := w.2 }) horigin
        (by simp [d₁, acceptRuna, hstored]) ((lioPutLine_kind _ _).trans hinside.kind) o
      obtain ⟨rest, hlog, _, hnone⟩ := hreturn.inside.traced
      refine ⟨cmd, env, rest, ?_, ?_, ?_⟩
      · rw [hstep, hlog]
        simp [d₁, acceptRuna]
      · intro o' ho'
        cases hsome : o'.submitted with
        | none => rfl
        | some jobid => exact (hnone o' ho' jobid hsome).elim
      · obtain ⟨part, hsent, hpart, _⟩ := lioPutLine_part d.chan
          (ascii "OK " ++ decimal (nextJobid d.lastJob))
        have hchan : (step cfg d (.rx lf o)).chan.sent = d.chan.sent ++ part := by
          rw [hstep, sessionReturn_chan]
          exact hsent
        rw [sentSince, hchan, List.drop_left]
        exact hpart
  · cases hsub

/-! ## The fetch -/

theorem statLine_clean (r : Res) : LineClean (statLine r) ∧ nul ∉ statLine r := by
  unfold statLine
  split_ifs
  · exact wordLine_clean
      (by decide : LineClean (ascii "OK result ") ∧ nul ∉ ascii "OK result ") r.jobid
  · decide

theorem statLine_eq_statWant
    {r : Res} {n : ℕ} (h : statLine r = statWant n) :
    r.valid = true ∧ r.jobid = n := by
  have hwant : statWant n = ascii "OK result " ++ decimal n := rfl
  rw [hwant] at h
  unfold statLine at h
  split_ifs at h with hvalid
  · exact ⟨hvalid, decimal_injective (List.append_cancel_left h)⟩
  · have hhead := congrArg (fun s => s[3]?) h
    simp [ascii] at hhead

theorem statLine_ne_resultLine (r : Res) (n : ℕ) : statLine r ≠ resultLine n := by
  intro h
  have hhead := congrArg List.head? h
  unfold statLine at hhead
  split_ifs at hhead <;> exact absurd hhead (by simp [resultLine, ascii])

theorem busyLine_eq
    {c : Ctl} {line : Bytes} (h : c.busyLine = some line) :
    ∃ l sel cs, c = .liveCtl l sel cs ∧ line = ascii "OK busy " ++ decimal l.jobid := by
  unfold Ctl.busyLine at h
  split at h
  · next l sel cs =>
      rw [Option.some.injEq] at h
      exact ⟨l, sel, cs, rfl, h.symm⟩
  · cases h

theorem rcStream_nothing
    {rc : Rc} (hpending : rc.inp.pending = []) : (rcStream rc).1 = -1 := by
  have hline : (lioGetLine lineMax rc.inp).1 = .eio := by
    simp [lioGetLine, hpending, lioGetLoop]
  exact rcStreamLoop_eio hline _

/-- Only an attempt whose RESULT was received fetches something. -/
theorem fetches_reach
    (hcfg : ReadsPolls cfg) {o : Answers} {jobid : ℤ} {conf : HostConf} {dial : Dial}
    {p : Poll} {reach : Reach} {d' : Daemon}
    (hwant : p.want = statWant jobid ∨ p.want = resultLine jobid)
    (hattempt : attempt cfg o d jobid p reach (openLink conf dial) = some d')
    {link : Link} {code : ℤ} {p' : Poll}
    (hfetch : Fetches conf dial jobid p link code p') : reach = .result := by
  have hlink := hfetch.opened
  obtain ⟨inp, hstream⟩ := hfetch.stream
  rw [hlink] at hattempt
  cases reach with
  | away => simp [attempt] at hattempt
  | control =>
      simp only [attempt] at hattempt
      split at hattempt
      · next line hbusy =>
          split_ifs at hattempt with hreads
          obtain ⟨l, sel, cs, _, rfl⟩ := busyLine_eq hbusy
          obtain ⟨hclean, hnul⟩ := wordLine_clean
            (by decide : LineClean (ascii "OK busy ") ∧ nul ∉ ascii "OK busy ") l.jobid
          have hline := (rcCmd_reads hreads hclean hnul hfetch.stat).1
          rcases hwant with hwant | hwant
          · have hletter := congrArg (fun s => s[3]?) (hwant.symm.trans hline)
            simp [statWant, ascii] at hletter
          · have hletter := congrArg List.head? (hwant.symm.trans hline)
            simp [resultLine, ascii] at hletter
      · cases hattempt
  | stat =>
      simp only [attempt] at hattempt
      split_ifs at hattempt with hguard
      obtain ⟨env, hctl⟩ := inCommand_ctl hguard.1
      obtain ⟨c, hsent, _, hasked⟩ := feed_stat_eq o hctl hguard.2.1 hcfg.says_stat
      obtain ⟨hclean, hnul⟩ := statLine_clean d.res
      have hreads : link.Reads (statLine d.res ++ lf :: []) := by
        have hbytes : sentSince d (hearStat cfg o d) = statLine d.res ++ [lf] := by
          rw [sentSince, hearStat, hasked, hsent, List.drop_left]
        rw [← hbytes]
        exact hguard.2.2
      have hrest := (rcCmd_reads hreads hclean hnul hfetch.stat).2
      have hcode : (rcStream ⟨(rcCmd link (ascii "STAT")).2.inp, p.fd1, p.fd2, p.mb⟩).1 =
          -1 := rcStream_nothing (List.prefix_nil.mp hrest.part)
      rw [hstream] at hcode
      have hnonneg := hfetch.nonneg
      dsimp only at hcode
      omega
  | result => rfl

/-- The attempt that fetches: the slot names its job, and the client reads
what RESULT sends. -/
theorem fetch_reads
    (hcfg : ReadsPolls cfg) (hinv : Inv cfg (Origin.init cwd files) d) {o : Answers}
    {n : ℕ} (hn : n ≤ jobMax) {p : Poll} {link : Link} {d' : Daemon}
    (hwant : p.want = statWant n ∨ p.want = resultLine n)
    (hattempt : attempt cfg o d n p .result (some link) = some d') :
    d.res.valid = true ∧ d.res.jobid = n ∧ p.want = statWant n ∧
      ∃ env, ∃ d₁ : Daemon, d₁.ctl = .session true env [] ∧ d₁.chan.Steady ∧
        d₁.log = d.log ∧ Inv cfg (Origin.init cwd files) d₁ ∧
        ∀ bytes, (feed cfg o d₁ (resultLine n ++ [lf])).chan.sent =
            d₁.chan.sent ++ bytes → (rcCmd link (ascii "STAT")).2.Reads bytes := by
  simp only [attempt] at hattempt
  split_ifs at hattempt with hguard
  obtain ⟨hcommand, hsteady, hstat, hreads⟩ := hguard
  obtain ⟨env, hctl⟩ := inCommand_ctl hcommand
  obtain ⟨c, hsent, hc, hasked⟩ := feed_stat_eq o hctl hsteady hcfg.says_stat
  obtain ⟨hclean, hnul⟩ := statLine_clean d.res
  have hinv₁ := hinv.feed_command o hctl hcfg.says_stat verbOf_stat
  rw [hasked] at hinv₁
  let d₁ : Daemon := { d with chan := c, ctl := .session true env [] }
  have hline := hcfg.says_result hn
  have hreply : ∀ bytes, (feed cfg o d₁ (resultLine n ++ [lf])).chan.sent =
      d₁.chan.sent ++ bytes →
      statLine d.res = p.want ∧ (rcCmd link (ascii "STAT")).2.Reads bytes := by
    intro bytes hbytes
    have hall : sentSince d (hearResult cfg o d n) = statLine d.res ++ lf :: bytes := by
      have hd₁ : d₁.chan.sent = d.chan.sent ++ (statLine d.res ++ [lf]) := hsent
      rw [sentSince, hearResult, hearStat, hasked, hbytes, hd₁, List.append_assoc,
        List.drop_left]
      simp
    rw [hall] at hreads
    obtain ⟨hwant, hrest⟩ := rcCmd_reads hreads hclean hnul hstat
    exact ⟨hwant.symm, hrest⟩
  have hjobid : atol (decimal n) = n := atol_decimal (hn.trans (by decide))
  -- whatever RESULT answers, STAT was answered with `want`
  have hnamed : statLine d.res = p.want := by
    by_cases hstored : d.res.valid = true ∧ d.res.jobid = n
    · obtain ⟨fs, hwhole | ⟨_, hpart⟩⟩ := feed_result_stored (d := d₁) o rfl hc hline
        hstored.1 (by rw [hjobid]; exact_mod_cast hstored.2)
      · exact (hreply _ hwhole).1
      · exact (hreply _ hpart).1
    · have habsent : d₁.res.valid = false ∨ (d₁.res.jobid : ℤ) ≠ atol (decimal n) := by
        rw [hjobid]
        by_cases hvalid : d.res.valid = true
        · right
          intro heq
          exact hstored ⟨hvalid, by exact_mod_cast heq⟩
        · exact .inl (by simpa using hvalid)
      exact (hreply _ (feed_result_absent (d := d₁) o rfl hc hline habsent)).1
  have hwant' : p.want = statWant n := by
    rcases hwant with hwant | hwant
    · exact hwant
    · rw [hwant] at hnamed
      exact absurd hnamed (statLine_ne_resultLine d.res n)
  rw [hwant'] at hnamed
  obtain ⟨hvalid, hid⟩ := statLine_eq_statWant hnamed
  exact ⟨hvalid, hid, hwant', env, d₁, rfl, hc, rfl, hinv₁,
    fun bytes hbytes => (hreply bytes hbytes).2⟩

end

end GrandCross
