import GrandCross.AsyncFetch

/-!
# Whose result a client gets

A client knows its job by the id alone, and ids start again at 1 with every
daemon and behind 32767.  As long as no RUNA is given an id that a client
still polls for, and the stored files are those of the stored job, a code
that `poll_result` returns and the output it writes are those of the
client's own job.
-/

namespace GrandCross

open CText
open Transfer

/-! ## Own results -/

/-- `rc_stream` has read this stream, from nothing written on. -/
structure FromStream (fs : List Frame) (exit : ℕ) (mb : Option MapBack)
    (code : ℤ) (p : Poll) : Prop where
  exits : code = ((exit % 256 : ℕ) : ℤ)
  made : ∃ rc rc' : Rc, rc.inp.Steady ∧ rc.inp.pending = encodeStream fs exit ∧
    rc.fd1.taken = [] ∧ rc.fd2.taken = [] ∧ rc.mb = mb ∧
    rcStream rc = (code, rc') ∧ p.fd1 = rc'.fd1 ∧ p.fd2 = rc'.fd2
  plain : mb = none → p.fd1.taken = payload .out fs ∧ p.fd2.taken = payload .err fs

/-- The job that a RUNA at this place of the log has started, and its end. -/
structure JobAt (log : List Obs) (pos jobid : ℕ) (pre : List Obs) (r : Captured) :
    Prop where
  intro ::
  at_pos : ∃ before cmd env mid post, before.length = pos ∧
    pre = before ++ .runa jobid cmd env :: mid ∧
    log = pre ++ .jobEnd jobid (some r) :: post ∧ ∀ o ∈ mid, o.resets = false

/-- The code and the output are those of the client's own job. -/
def World.Owns (frames : Bytes → Captured → List Frame) (w : World)
    (own : Submission) (code : ℤ) (p : Poll) : Prop :=
  ∃ (e : Epoch) (jobid : ℕ) (pre : List Obs) (r : Captured),
    w.epochs[own.epoch]? = some e ∧ JobAt e.log own.pos jobid pre r ∧
    FromStream (frames (workDir e.cwd pre) r) r.code own.mb code p

/-! ## What must not happen -/

def World.Free (w : World) (jobid : ℕ) : Prop :=
  ∀ c id own p, w.clients c = .polling id own p → id ≠ jobid

/-- The capture paths name the files of the stored job, and no upload has
touched these. -/
def Daemon.Intact (cfg : Cfg) (cwd : Bytes) (d : Daemon) : Prop :=
  ∀ pre jobid r post, d.log = pre ++ .jobEnd jobid (some r) :: post →
    (∀ o ∈ post, o.resets = false) →
    SinceJob cfg (workDir cwd pre) post ∧
      SameCapture cfg (workDir cwd pre) (workDir (workDir cwd pre) post)

/-- A RUNA is accepted only under an id that nobody polls for, and a result
is fetched only from its own files. -/
def World.Careful (cfg : Cfg) (w : World) : Act → Prop
  | .event ev => w.daemon.submits cfg ev = true → w.Free (nextJobid w.daemon.lastJob)
  | .restart _ _ _ => True
  | .submit _ o _ _ _ _ _ =>
      w.daemon.submits cfg (.rx lf o) = true → w.Free (nextJobid w.daemon.lastJob)
  | .poll _ _ _ _ reach => reach = .result → w.daemon.Intact cfg w.cwd

def CarefulRun (cfg : Cfg) : World → List Act → Prop
  | _, [] => True
  | w, act :: acts => w.Careful cfg act ∧ CarefulRun cfg (w.step cfg act) acts

/-! ## The invariant -/

/-- The RUNA of a polling client is the last one under its id, and the only
one that the present daemon may have seen. -/
structure World.Awaits (w : World) (n : ℕ) (own : Submission) : Prop where
  small : n ≤ jobMax
  logged : ∃ (e : Epoch) (cmd : Bytes) (env : List EnvEntry),
    w.epochs[own.epoch]? = some e ∧ e.log[own.pos]? = some (.runa n cmd env)
  last : ∀ i cmd env, w.daemon.log[i]? = some (.runa n cmd env) →
    own.epoch = w.past.length ∧ i ≤ own.pos

/-- An attempt can still succeed and nothing has been written, or `want` is
used up. -/
def Poll.Ready (p : Poll) (jobid : ℤ) (own : Submission) : Prop :=
  p.want = statWant jobid ∧ p.fd1.taken = [] ∧ p.fd2.taken = [] ∧ p.mb = own.mb ∨
    p.want = resultLine jobid

def World.ClientOk (frames : Bytes → Captured → List Frame) (w : World) :
    Client → Prop
  | .idle => True
  | .polling jobid own p => ∃ n : ℕ, jobid = n ∧ w.Awaits n own ∧ p.Ready jobid own
  | .returned own code p => 0 ≤ code → w.Owns frames own code p

structure World.Ok (cfg : Cfg) (frames : Bytes → Captured → List Frame) (w : World) :
    Prop where
  inv : ∃ files, Inv cfg (Origin.init w.cwd files) w.daemon
  clients : ∀ c, w.ClientOk frames (w.clients c)

/-! ### Logs only grow -/

def World.Grows (w w' : World) : Prop :=
  ∀ (i : ℕ) (e : Epoch), w.epochs[i]? = some e →
    ∃ rest, w'.epochs[i]? = some ⟨e.cwd, e.log ++ rest⟩

theorem JobAt.append
    {log : List Obs} {pos jobid : ℕ} {pre : List Obs} {r : Captured}
    (h : JobAt log pos jobid pre r) (rest : List Obs) :
    JobAt (log ++ rest) pos jobid pre r := by
  obtain ⟨before, cmd, env, mid, post, hpos, hpre, hlog, hquiet⟩ := h.at_pos
  exact ⟨before, cmd, env, mid, post ++ rest, hpos, hpre, by simp [hlog], hquiet⟩

theorem World.Owns.grow
    {frames : Bytes → Captured → List Frame} {w w' : World} {own : Submission}
    {code : ℤ} {p : Poll} (h : w.Owns frames own code p) (hgrows : w.Grows w') :
    w'.Owns frames own code p := by
  obtain ⟨e, jobid, pre, r, hepoch, hjob, hstream⟩ := h
  obtain ⟨rest, hepoch'⟩ := hgrows own.epoch e hepoch
  exact ⟨_, jobid, pre, r, hepoch', hjob.append rest, hstream⟩

theorem World.grows_daemon
    (w : World) {w' : World} {rest : List Obs} (hcwd : w'.cwd = w.cwd)
    (hpast : w'.past = w.past) (hlog : w'.daemon.log = w.daemon.log ++ rest) :
    w.Grows w' := by
  intro i e hi
  unfold World.epochs at hi ⊢
  rw [hcwd, hpast, hlog]
  by_cases hpast : i < w.past.length
  · rw [List.getElem?_append_left hpast] at hi ⊢
    exact ⟨[], by simpa using hi⟩
  · rw [List.getElem?_append_right (by omega)] at hi ⊢
    rw [List.getElem?_singleton] at hi ⊢
    split_ifs at hi ⊢ with hzero
    rw [Option.some.injEq] at hi
    exact ⟨rest, by rw [← hi]⟩

theorem World.grows_restart
    (cfg : Cfg) (w : World) (plan : List (Option ℕ)) (cwd : Bytes)
    (files : Bytes → Option Bytes) : w.Grows (w.step cfg (.restart plan cwd files)) := by
  intro i e hi
  have hlen : i < w.epochs.length := (List.getElem?_eq_some_iff.mp hi).1
  refine ⟨[], ?_⟩
  rw [World.epochs, World.step, List.getElem?_append_left hlen, hi, List.append_nil]

theorem World.Awaits.grow
    {w w' : World} {n : ℕ} {own : Submission} (h : w.Awaits n own)
    (hgrows : w.Grows w')
    (hlast : ∀ i cmd env, w'.daemon.log[i]? = some (.runa n cmd env) →
      own.epoch = w'.past.length ∧ i ≤ own.pos) : w'.Awaits n own := by
  obtain ⟨e, cmd, env, hepoch, hruna⟩ := h.logged
  obtain ⟨rest, hepoch'⟩ := hgrows own.epoch e hepoch
  have hlen : own.pos < e.log.length := (List.getElem?_eq_some_iff.mp hruna).1
  refine ⟨h.small, ⟨_, cmd, env, hepoch', ?_⟩, hlast⟩
  rw [List.getElem?_append_left hlen]
  exact hruna

theorem World.Awaits.daemon
    {w w' : World} {n : ℕ} {own : Submission} (h : w.Awaits n own)
    {rest : List Obs} (hcwd : w'.cwd = w.cwd) (hpast : w'.past = w.past)
    (hlog : w'.daemon.log = w.daemon.log ++ rest)
    (hrest : ∀ o ∈ rest, o.submitted ≠ some n) : w'.Awaits n own := by
  refine h.grow (w.grows_daemon hcwd hpast hlog) ?_
  intro i cmd env hi
  rw [hlog] at hi
  rw [hpast]
  by_cases hold : i < w.daemon.log.length
  · rw [List.getElem?_append_left hold] at hi
    exact h.last i cmd env hi
  · rw [List.getElem?_append_right (by omega)] at hi
    exact absurd rfl (hrest _ (List.mem_of_getElem? hi))

theorem World.Ok.daemon
    {cfg : Cfg} {frames : Bytes → Captured → List Frame} {w w' : World}
    (h : w.Ok cfg frames) {rest : List Obs} (hcwd : w'.cwd = w.cwd)
    (hpast : w'.past = w.past)
    (hinv : ∀ files, Inv cfg (Origin.init w.cwd files) w.daemon →
      Inv cfg (Origin.init w.cwd files) w'.daemon)
    (hlog : w'.daemon.log = w.daemon.log ++ rest)
    (hfree : ∀ o ∈ rest, ∀ jobid ∈ o.submitted, w.Free jobid)
    (hclients : ∀ c, w'.clients c = w.clients c ∨ w'.ClientOk frames (w'.clients c)) :
    w'.Ok cfg frames := by
  constructor
  · obtain ⟨files, hfiles⟩ := h.inv
    rw [hcwd]
    exact ⟨files, hinv files hfiles⟩
  · intro c
    rcases hclients c with hsame | hok
    · rw [hsame]
      have hclient := h.clients c
      cases hc : w.clients c with
      | idle => trivial
      | polling jobid own p =>
          rw [hc] at hclient
          obtain ⟨n, rfl, hawaits, hready⟩ := hclient
          refine ⟨n, rfl, hawaits.daemon hcwd hpast hlog ?_, hready⟩
          intro o ho hsub
          exact hfree o ho n hsub c n own p hc rfl
      | returned own code p =>
          rw [hc] at hclient
          intro hcode
          exact (hclient hcode).grow (w.grows_daemon hcwd hpast hlog)
    · exact hok

/-! ### One step -/

theorem World.ok_init
    (cfg : Cfg) (frames : Bytes → Captured → List Frame) (plan : List (Option ℕ))
    (cwd : Bytes) (files : Bytes → Option Bytes) :
    (World.init cfg plan cwd files).Ok cfg frames :=
  ⟨⟨files, inv_init cfg plan cwd files⟩, fun _ => trivial⟩

section

variable {cfg : Cfg} {frames : Bytes → Captured → List Frame} {w : World}

theorem World.Ok.event
    (h : w.Ok cfg frames) (ev : Ev) (hcareful : w.Careful cfg (.event ev)) :
    (w.step cfg (.event ev)).Ok cfg frames := by
  obtain ⟨files, hinv⟩ := h.inv
  obtain ⟨rest, hlog, hids⟩ := hinv.step_log ev
  refine h.daemon rfl rfl ?_ hlog ?_ fun c => .inl rfl
  · intro files hfiles
    exact hfiles.step ev fun _ => trivial
  · intro o ho jobid hsub
    obtain ⟨haccepts, rfl⟩ := hids o ho jobid hsub
    exact hcareful haccepts

theorem World.Ok.restart
    (h : w.Ok cfg frames) (plan : List (Option ℕ)) (cwd : Bytes)
    (files : Bytes → Option Bytes) :
    (w.step cfg (.restart plan cwd files)).Ok cfg frames := by
  have hgrows := w.grows_restart cfg plan cwd files
  refine ⟨⟨files, inv_init cfg plan cwd files⟩, ?_⟩
  intro c
  have hclient := h.clients c
  have hsame : (w.step cfg (.restart plan cwd files)).clients c = w.clients c := rfl
  rw [hsame]
  cases hc : w.clients c with
  | idle => trivial
  | polling jobid own p =>
      rw [hc] at hclient
      obtain ⟨n, rfl, hawaits, hready⟩ := hclient
      refine ⟨n, rfl, hawaits.grow hgrows ?_, hready⟩
      intro i cmd env hi
      -- the new daemon has no log yet
      simp [World.step, Daemon.init] at hi
  | returned own code p =>
      rw [hc] at hclient
      intro hcode
      exact (hclient hcode).grow hgrows

theorem World.epochs_present (w : World) :
    w.epochs[w.past.length]? = some ⟨w.cwd, w.daemon.log⟩ := by
  simp [World.epochs]

theorem World.Ok.submit
    (h : w.Ok cfg frames) {o : Answers}
    (hsub : w.daemon.submits cfg (.rx lf o) = true)
    (hfree : w.Free (nextJobid w.daemon.lastJob)) {link : Link} {cmd : Bytes} {jobid : ℤ}
    (hsubmit : rcSubmit link cmd = some jobid)
    (hreads : link.Reads (sentSince w.daemon (GrandCross.step cfg w.daemon (.rx lf o))))
    (c : ℕ) (fd1 fd2 : List (Option ℕ)) (mb : Option MapBack) :
    (w.submit cfg c o jobid fd1 fd2 mb).Ok cfg frames := by
  let n := nextJobid w.daemon.lastJob
  let w' := w.submit cfg c o jobid fd1 fd2 mb
  obtain ⟨files, hinv⟩ := h.inv
  obtain ⟨cmd', env, rest, hlog, hrest, hsent⟩ := submits_step hinv hsub
  have hid : jobid = n := rcSubmit_reads (nextJobid_le _) (hreads.mono hsent) hsubmit
  have hlog' : w'.daemon.log = w.daemon.log ++ .runa n cmd' env :: rest := hlog
  refine h.daemon rfl rfl ?_ hlog' ?_ ?_
  · intro files hfiles
    exact hfiles.step (.rx lf o) fun _ => trivial
  · intro o' ho' id hid
    rcases List.mem_cons.mp ho' with rfl | hmem
    · have hn : n = id := by simpa [Obs.submitted] using hid
      rw [← hn]
      exact hfree
    · rw [hrest o' hmem] at hid
      cases hid
  · intro c'
    by_cases hc : c' = c
    · right
      have hclient : w'.clients c' = .polling jobid ⟨w.past.length, w.daemon.log.length, mb⟩
          ⟨statWant jobid, ⟨fd1, []⟩, ⟨fd2, []⟩, mb⟩ := by
        rw [hc]
        exact Function.update_self ..
      rw [hclient]
      refine ⟨n, hid, ⟨nextJobid_le _, ⟨_, cmd', env, w'.epochs_present, ?_⟩, ?_⟩,
        .inl ⟨rfl, rfl, rfl, rfl⟩⟩
      · rw [hlog']
        simp
      · intro i cmd env hi
        refine ⟨rfl, ?_⟩
        by_contra hlate
        have hbehind : w.daemon.log.length < i := by simpa using hlate
        obtain ⟨k, rfl⟩ : ∃ k, i = w.daemon.log.length + (k + 1) :=
          ⟨i - w.daemon.log.length - 1, by omega⟩
        rw [hlog', List.getElem?_append_right (by omega), Nat.add_sub_cancel_left,
          List.getElem?_cons_succ] at hi
        have hnone := hrest _ (List.mem_of_getElem? hi)
        cases hnone
    · left
      exact Function.update_of_ne hc ..

/-- The result in the slot is that of the only RUNA under its id that counts. -/
theorem World.Awaits.finished
    {n : ℕ} {own : Submission} (h : w.Awaits n own) {r : Captured}
    (hfinished : Finished w.daemon.log n r) :
    w.epochs[own.epoch]? = some ⟨w.cwd, w.daemon.log⟩ ∧
      ∃ pre post, JobAt w.daemon.log own.pos n pre r ∧
        w.daemon.log = pre ++ .jobEnd n (some r) :: post ∧
        ∀ o ∈ post, o.resets = false := by
  obtain ⟨before, cmd, env, mid, post, hlog, hquiet⟩ := hfinished
  have hruna : w.daemon.log[before.length]? = some (.runa n cmd env) := by
    rw [hlog]
    simp
  obtain ⟨hepoch, hle⟩ := h.last before.length cmd env hruna
  have hpresent : w.epochs[own.epoch]? = some ⟨w.cwd, w.daemon.log⟩ := by
    rw [hepoch]
    exact w.epochs_present
  obtain ⟨e, cmd', env', hepoch', hown⟩ := h.logged
  rw [hpresent, Option.some.injEq] at hepoch'
  rw [← hepoch'] at hown
  -- no command is accepted behind the latest RUNA
  have hpos : before.length = own.pos := by
    by_contra hne
    obtain ⟨k, hk⟩ : ∃ k, own.pos = before.length + (k + 1) :=
      ⟨own.pos - before.length - 1, by omega⟩
    dsimp only at hown
    rw [hlog, hk, List.getElem?_append_right (by omega), Nat.add_sub_cancel_left,
      List.getElem?_cons_succ] at hown
    have hmem := List.mem_of_getElem? hown
    rcases List.mem_append.mp hmem with hmid | hbehind
    · have := hquiet _ (List.mem_append_left _ hmid)
      cases this
    · rcases List.mem_cons.mp hbehind with hend | hpost
      · cases hend
      · have := hquiet _ (List.mem_append_right _ hpost)
        cases this
  have hsplit : w.daemon.log =
      (before ++ .runa n cmd env :: mid) ++ .jobEnd n (some r) :: post := by
    rw [hlog]
    simp
  refine ⟨hpresent, _, post, ⟨before, cmd, env, mid, post, hpos, rfl, hsplit, ?_⟩, hsplit, ?_⟩
  · intro o ho
    exact hquiet o (List.mem_append_left _ ho)
  · intro o ho
    exact hquiet o (List.mem_append_right _ ho)

/-- A part of what RESULT sends that makes `rc_stream` return a code is all
of it. -/
theorem fetched_whole
    {rc : Rc} (hinp : rc.inp.Steady) {ok : Bool} {fs : List Frame} {exit : ℕ}
    (hpart : rc.inp.pending <+: if ok then encodeStream fs exit else encodeFrames fs)
    (hcode : 0 ≤ (rcStream rc).1) : rc.inp.pending = encodeStream fs exit := by
  have hwhole : (if ok then encodeStream fs exit else encodeFrames fs) <+:
      encodeStream fs exit := by
    cases ok with
    | true => exact List.prefix_refl _
    | false => exact List.prefix_append _ _
  obtain ⟨rest, hrest⟩ := hpart.trans hwhole
  by_cases hnil : rest = []
  · rw [← hrest, hnil, List.append_nil]
  · have hcut := rcStream_cut hinp fs exit hnil hrest
    omega

/-- A code is returned for the client's own job only. -/
theorem World.Ok.fetch
    (h : w.Ok cfg frames) (hcfg : ReadsPolls cfg) {ok : Bytes → Captured → Bool}
    (hsends : ∀ dir r, SendsFrames cfg dir r (ok dir r) (frames dir r))
    {n : ℕ} {own : Submission} {p : Poll} (hawaits : w.Awaits n own)
    (hready : p.Ready n own) {o : Answers} {conf : HostConf} {dial : Dial} {reach : Reach}
    {d' : Daemon}
    (hattempt : attempt cfg o w.daemon n p reach (openLink conf dial) = some d')
    (hintact : reach = .result → w.daemon.Intact cfg w.cwd) {link : Link} {code : ℤ}
    {p' : Poll} (hfetch : Fetches conf dial n p link code p') :
    w.Owns frames own code p' := by
  obtain ⟨files, hinv⟩ := h.inv
  have hwant : p.want = statWant n ∨ p.want = resultLine n := by
    rcases hready with hfresh | hspent
    · exact .inl hfresh.1
    · exact .inr hspent
  have hreach := fetches_reach hcfg hwant hattempt hfetch
  subst hreach
  rw [hfetch.opened] at hattempt
  obtain ⟨hvalid, hid, hnamed, env, d₁, hctl, hsteady, hlog₁, hinv₁, hreads⟩ :=
    fetch_reads hcfg hinv hawaits.small hwant hattempt
  have hslot : w.daemon.res.slot = some (n, w.daemon.res.code) := by
    simp [Res.slot, hvalid, hid]
  obtain ⟨r, _, hfinished⟩ := (hinv.slot_iff _ _).mp hslot
  obtain ⟨hpresent, pre, post, hjob, hlog, hquiet⟩ := hawaits.finished hfinished
  obtain ⟨hsince, hsame⟩ := hintact rfl pre n r post hlog hquiet
  have hatol : atol (decimal n) = n := atol_decimal (hawaits.small.trans (by decide))
  have hbytes := hsends (workDir w.cwd pre) r w.cwd files d₁ hinv₁ pre n post
    (hlog₁.trans hlog) rfl hsince hsame env o (resultLine n) (decimal n) hctl hsteady
    (hcfg.says_result hawaits.small) hatol
  have hread := hreads _ hbytes
  obtain ⟨_, hfd1, hfd2, hmb⟩ : p.want = statWant n ∧ p.fd1.taken = [] ∧
      p.fd2.taken = [] ∧ p.mb = own.mb := by
    rcases hready with hfresh | hspent
    · exact hfresh
    · rw [hnamed] at hspent
      exact absurd hspent (statWant_ne_resultLine n)
  obtain ⟨inp, hstream⟩ := hfetch.stream
  let rc : Rc := ⟨(rcCmd link (ascii "STAT")).2.inp, p.fd1, p.fd2, p.mb⟩
  have hcode : 0 ≤ (rcStream rc).1 := by
    rw [hstream]
    exact hfetch.nonneg
  have hpending : rc.inp.pending = encodeStream (frames (workDir w.cwd pre) r) r.code :=
    fetched_whole hread.steady hread.part hcode
  have hpending' : rc.inp.pending =
      encodeStream (frames (workDir w.cwd pre) r) r.code ++ [] := by
    rw [List.append_nil]
    exact hpending
  obtain ⟨hexit, htaken⟩ := rcStream_nonneg hread.steady _ _ hpending' hcode
  refine ⟨_, n, pre, r, hpresent, hjob, ?_, ⟨rc, _, hread.steady, hpending, hfd1, hfd2, hmb,
    hstream, rfl, rfl⟩, ?_⟩
  · rw [← hexit, hstream]
  · intro hnone
    have hplain := htaken (hmb.trans hnone)
    rw [hstream] at hplain
    simpa [rc, hfd1, hfd2] using hplain

theorem World.Ok.poll
    (h : w.Ok cfg frames) (hcfg : ReadsPolls cfg) {ok : Bytes → Captured → Bool}
    (hsends : ∀ dir r, SendsFrames cfg dir r (ok dir r) (frames dir r))
    {c : ℕ} {jobid : ℤ} {own : Submission} {p : Poll}
    (hc : w.clients c = .polling jobid own p) {o : Answers} {conf : HostConf} {dial : Dial}
    {reach : Reach} {d' : Daemon}
    (hattempt : attempt cfg o w.daemon jobid p reach (openLink conf dial) = some d')
    (hintact : reach = .result → w.daemon.Intact cfg w.cwd) :
    World.Ok cfg frames
      { w with
        daemon := d'
        clients := Function.update w.clients c
          (.after jobid own (pollTurn conf jobid p dial)) } := by
  have hclient := h.clients c
  rw [hc] at hclient
  obtain ⟨n, rfl, hawaits, hready⟩ := hclient
  obtain ⟨files, hinv⟩ := h.inv
  obtain ⟨_, rest, hlog, hnone⟩ := attempt_keeps hcfg hinv o hawaits.small hattempt
  refine h.daemon rfl rfl ?_ hlog ?_ ?_
  · intro files hfiles
    exact (attempt_keeps hcfg hfiles o hawaits.small hattempt).1
  · intro o' ho' id hid
    rw [hnone o' ho'] at hid
    cases hid
  · intro c'
    by_cases hc' : c' = c
    · right
      subst hc'
      dsimp only
      rw [Function.update_self]
      rcases pollTurn_cases conf n p dial with ⟨hfails, hwant⟩ | ⟨link, code, p', hfetch⟩
      · cases hturn : pollTurn conf n p dial with
        | mk result p' =>
            rw [hturn] at hfails hwant
            dsimp only at hfails hwant
            rcases hfails with rfl | rfl
            · have hothers : ∀ o' ∈ rest, o'.submitted ≠ some n := by
                intro o' ho'
                rw [hnone o' ho']
                simp
              refine ⟨n, rfl, hawaits.daemon rfl rfl hlog hothers, ?_⟩
              rcases hwant with rfl | hspent
              · exact hready
              · exact .inr hspent
            · intro hcode
              omega
      · rw [hfetch.turn]
        intro _
        exact (h.fetch hcfg hsends hawaits hready hattempt hintact hfetch).grow
          (w.grows_daemon rfl rfl hlog)
    · left
      exact Function.update_of_ne hc' ..

theorem World.Ok.step
    (h : w.Ok cfg frames) (hcfg : ReadsPolls cfg) {ok : Bytes → Captured → Bool}
    (hsends : ∀ dir r, SendsFrames cfg dir r (ok dir r) (frames dir r))
    (act : Act) (hcareful : w.Careful cfg act) : (w.step cfg act).Ok cfg frames := by
  cases act with
  | event ev => exact h.event ev hcareful
  | restart plan cwd files => exact h.restart plan cwd files
  | submit c o link cmd fd1 fd2 mb =>
      unfold World.step
      dsimp only
      split
      · next jobid _ hsubmit =>
          split_ifs with hguard
          · exact h.submit hguard.1 (hcareful hguard.1) hsubmit hguard.2 c fd1 fd2 mb
          · exact h
      · exact h
  | poll c o conf dial reach =>
      unfold World.step
      dsimp only
      split
      · next jobid own p hc =>
          split
          · next d' hattempt => exact h.poll hcfg hsends hc hattempt hcareful
          · exact h
      · exact h

theorem World.Ok.run
    (h : w.Ok cfg frames) (hcfg : ReadsPolls cfg) {ok : Bytes → Captured → Bool}
    (hsends : ∀ dir r, SendsFrames cfg dir r (ok dir r) (frames dir r))
    (acts : List Act) (hcareful : CarefulRun cfg w acts) : (w.run cfg acts).Ok cfg frames := by
  induction acts generalizing w with
  | nil => exact h
  | cons act acts ih => exact ih (h.step hcfg hsends act hcareful.1) hcareful.2

end

/-- For any number of clients, any interleaving and any restarts: in a run
where no RUNA is given an id that a client polls for and no result is fetched
from other files than its own, a code that `poll_result` has returned and the
output it has written are those of the job that the client submitted. -/
theorem async_results_own (cfg : Cfg) (hcfg : ReadsPolls cfg) :
    ∃ frames : Bytes → Captured → List Frame,
      (∀ plan cwd files acts, CarefulRun cfg (World.init cfg plan cwd files) acts →
        ∀ c own code p,
          ((World.init cfg plan cwd files).run cfg acts).clients c =
            .returned own code p →
          0 ≤ code →
          ((World.init cfg plan cwd files).run cfg acts).Owns frames own code p) ∧
      (cfg.cv = none → cfg.maxout = 0 → ∀ dir r, Apart cfg dir cfg.rof cfg.ref →
        payload .out (frames dir r) = r.out ∧ payload .err (frames dir r) = r.err) := by
  choose ok frames hsends _ hplain using fun dir r => feed_result_since cfg dir r
  refine ⟨frames, ?_, ?_⟩
  · intro plan cwd files acts hcareful c own code p hc hcode
    have hrun := (World.ok_init cfg frames plan cwd files).run hcfg hsends acts hcareful
    have hclient := hrun.clients c
    rw [hc] at hclient
    exact hclient hcode
  · intro hcv hmaxout dir r hapart
    rw [hplain dir r hcv hmaxout .out, hplain dir r hcv hmaxout .err]
    exact (fileText_eq_iff cfg dir cfg.rof cfg.ref r.order r.out r.err).mpr (.inl hapart)

/-! ## Clients and a restart -/

theorem Daemon.intact_of_no_writes
    {cfg : Cfg} {cwd : Bytes} {d : Daemon} (hpaths : ∀ dir dir', SameCapture cfg dir dir')
    (hwrites : ∀ o ∈ d.log, o.writes = none) : d.Intact cfg cwd := by
  have hspares : ∀ (f : Bytes) (post : List Obs), (∀ o ∈ post, o.writes = none) →
      ∀ dir, Spares cfg f dir post := by
    intro f post
    induction post with
    | nil =>
        intro _ dir
        trivial
    | cons o post ih =>
        intro hpost dir
        refine ⟨by simp [hpost o (by simp)], ih (fun o' ho' => hpost o' (by simp [ho'])) _⟩
  intro pre jobid r post hlog hquiet
  have hpost : ∀ o ∈ post, o.writes = none := by
    intro o ho
    apply hwrites
    rw [hlog]
    simp [ho]
  exact ⟨⟨hquiet, hspares _ post hpost _, hspares _ post hpost _⟩, hpaths _ _⟩

def quietEvents (cfg : Cfg) : Daemon → List Ev → Bool
  | _, [] => true
  | d, ev :: evs => !d.submits cfg ev && quietEvents cfg (step cfg d ev) evs

theorem carefulRun_events
    {cfg : Cfg} {evs : List Ev} {acts : List Act} {w : World}
    (hquiet : quietEvents cfg w.daemon evs = true)
    (hacts : CarefulRun cfg { w with daemon := run cfg w.daemon evs } acts) :
    CarefulRun cfg w (evs.map .event ++ acts) := by
  induction evs generalizing w with
  | nil => exact hacts
  | cons ev evs ih =>
      simp only [quietEvents, Bool.and_eq_true, Bool.not_eq_true'] at hquiet
      refine ⟨?_, ih hquiet.2 hacts⟩
      intro hsub
      rw [hquiet.1] at hsub
      cases hsub

def openSession : List Ev := [newPeer] ++ rxAll {} (ascii "AUTH t" ++ [lf])

def submitLink (id : ℕ) : Link :=
  ⟨⟨.tcp, ⟨[], []⟩⟩, ⟨[], ascii "OK " ++ decimal id ++ [lf]⟩⟩

/-- A client submits a command whose child exits with this code. -/
def submitActs (c id : ℕ) (cmd : Bytes) (child : Child) : List Act :=
  (openSession ++ rxAll {} (ascii "RUNA " ++ cmd)).map .event ++
    [.submit c { child := some child } (submitLink id) cmd [] [] none]

def fetchDial (id : ℕ) (stream : Bytes) : Dial :=
  some ([], ⟨[], ascii "GCDS 1 os h ASYNC" ++ lf :: ascii "OK" ++ lf ::
    (statWant id ++ lf :: stream)⟩)

def fetchActs (c id : ℕ) (stream : Bytes) : List Act :=
  openSession.map .event ++ [.poll c {} sampleHost (fetchDial id stream) .result]

def quietWorld : World := World.init smallCfg [] (ascii "C:") fun _ => none

def firstChild : Child := ⟨ascii "a", [], .exited 3, [], []⟩

def secondChild : Child := ⟨ascii "b", [], .exited 5, [], []⟩

def Client.result : Client → Option (ℕ × ℕ × ℤ × Bytes)
  | .returned own code p => some (own.epoch, own.pos, code, p.fd1.taken)
  | _ => none

theorem Client.of_result
    {client : Client} {epoch pos : ℕ} {code : ℤ} {out : Bytes}
    (h : client.result = some (epoch, pos, code, out)) :
    ∃ own p, client = .returned own code p ∧ own.epoch = epoch ∧ own.pos = pos ∧
      p.fd1.taken = out := by
  cases client with
  | idle => cases h
  | polling jobid own p => cases h
  | returned own code' p =>
      simp only [Client.result, Option.some.injEq, Prod.mk.injEq] at h
      obtain ⟨hepoch, hpos, rfl, hout⟩ := h
      exact ⟨own, p, rfl, hepoch, hpos, hout⟩

/-- The id that a client polls for. -/
def Client.awaits : Client → Option ℤ
  | .polling jobid _ _ => some jobid
  | _ => none

/-- The client that acts. -/
def Act.client : Act → Option ℕ
  | .submit c .. => some c
  | .poll c .. => some c
  | _ => none

theorem World.step_clients
    {cfg : Cfg} {w : World} {act : Act} {c : ℕ} (hc : act.client ≠ some c) :
    (w.step cfg act).clients c = w.clients c := by
  cases act with
  | event ev => rfl
  | restart plan cwd files => rfl
  | submit c' o link cmd fd1 fd2 mb =>
      have hother : c ≠ c' := fun h => hc (by rw [h, Act.client])
      unfold World.step
      dsimp only
      split
      · split_ifs
        · exact Function.update_of_ne hother _ _
        · rfl
      · rfl
  | poll c' o conf dial reach =>
      have hother : c ≠ c' := fun h => hc (by rw [h, Act.client])
      unfold World.step
      dsimp only
      split
      · split
        · exact Function.update_of_ne hother _ _
        · rfl
      · rfl

theorem World.run_clients
    {cfg : Cfg} {w : World} {acts : List Act} {c : ℕ}
    (hc : ∀ act ∈ acts, act.client ≠ some c) : (w.run cfg acts).clients c = w.clients c := by
  induction acts generalizing w with
  | nil => rfl
  | cons act acts ih =>
      have hstep : (w.step cfg act).clients c = w.clients c :=
        World.step_clients (hc act (by simp))
      rw [← hstep]
      exact ih fun act' hact' => hc act' (by simp [hact'])

/-- Only the first `n` clients act, and none of these polls for the id. -/
theorem World.free_of_few
    {cfg : Cfg} {acts : List Act} {jobid : ℕ} (n : ℕ)
    (hfew : ∀ act ∈ acts, ∀ c ∈ act.client, c < n)
    (hfree : ∀ c < n, ((quietWorld.run cfg acts).clients c).awaits ≠ some (jobid : ℤ)) :
    (quietWorld.run cfg acts).Free jobid := by
  intro c id own p hpolls hid
  by_cases hc : c < n
  · apply hfree c hc
    rw [hpolls, Client.awaits, hid]
  · have hidle : (quietWorld.run cfg acts).clients c = .idle :=
      World.run_clients fun act hact hclient => hc (hfew act hact c hclient)
    rw [hidle] at hpolls
    cases hpolls

theorem carefulRun_append
    {cfg : Cfg} {acts acts' : List Act} {w : World} (h : CarefulRun cfg w acts)
    (h' : CarefulRun cfg (w.run cfg acts) acts') : CarefulRun cfg w (acts ++ acts') := by
  induction acts generalizing w with
  | nil => exact h'
  | cons act acts ih => exact ⟨h.1, ih h.2 h'⟩

/-- A first client has its result before the daemon is restarted; of the two
behind it one still polls when the other one submits. -/
def restartedActs : List Act :=
  submitActs 0 1 (ascii "x") firstChild ++
    fetchActs 0 1 (ascii "O 1" ++ lf :: ascii "aX 3" ++ [lf]) ++
    [.restart [] (ascii "C:") fun _ => none] ++
    submitActs 1 1 (ascii "y") firstChild ++ submitActs 2 2 (ascii "z") secondChild ++
    fetchActs 2 2 (ascii "O 1" ++ lf :: ascii "bX 5" ++ [lf])

def takenActs : List Act :=
  submitActs 0 1 (ascii "x") firstChild ++ [.restart [] (ascii "C:") fun _ => none] ++
    submitActs 1 1 (ascii "y") secondChild ++
    fetchActs 0 1 (ascii "O 1" ++ lf :: ascii "bX 5" ++ [lf])

theorem carefulRun_submit
    {cfg : Cfg} {w : World} (c id : ℕ) {cmd : Bytes} (child : Child)
    (hquiet : quietEvents cfg w.daemon (openSession ++ rxAll {} (ascii "RUNA " ++ cmd)) = true)
    (hfree : w.Free (nextJobid
      (run cfg w.daemon (openSession ++ rxAll {} (ascii "RUNA " ++ cmd))).lastJob)) :
    CarefulRun cfg w (submitActs c id cmd child) :=
  carefulRun_events hquiet ⟨fun _ => hfree, trivial⟩

theorem carefulRun_fetch
    {cfg : Cfg} {w : World} (c id : ℕ) (stream : Bytes)
    (hquiet : quietEvents cfg w.daemon openSession = true)
    (hpaths : ∀ dir dir', SameCapture cfg dir dir')
    (hwrites : ∀ o ∈ (run cfg w.daemon openSession).log, o.writes = none) :
    CarefulRun cfg w (fetchActs c id stream) :=
  carefulRun_events hquiet
    ⟨fun _ => Daemon.intact_of_no_writes hpaths hwrites, trivial⟩

theorem restartedActs_careful : CarefulRun smallCfg quietWorld restartedActs := by
  have hsmall : ∀ dir dir', SameCapture smallCfg dir dir' := fun _ _ => ⟨rfl, rfl⟩
  have hfirst : CarefulRun smallCfg quietWorld (submitActs 0 1 (ascii "x") firstChild) := by
    -- nobody polls yet
    refine carefulRun_submit 0 1 firstChild (by decide +kernel) ?_
    intro c id own p hc
    cases hc
  unfold restartedActs
  refine carefulRun_append (carefulRun_append (carefulRun_append (carefulRun_append
    (carefulRun_append hfirst ?_) ⟨trivial, trivial⟩) ?_) ?_) ?_
  · exact carefulRun_fetch 0 1 _ (by decide +kernel) hsmall (by decide +kernel)
  · exact carefulRun_submit 1 1 firstChild (by decide +kernel)
      (World.free_of_few 1 (by decide +kernel) (by decide +kernel))
  · -- the second client polls for another id
    exact carefulRun_submit 2 2 secondChild (by decide +kernel)
      (World.free_of_few 2 (by decide +kernel) (by decide +kernel))
  · exact carefulRun_fetch 2 2 _ (by decide +kernel) hsmall (by decide +kernel)

/-- Two clients have the results of their own jobs, one of the daemon before
the restart and one of the daemon behind it. -/
theorem async_results_own_restarted :
    ∃ frames own p own' p',
      (quietWorld.run smallCfg restartedActs).clients 0 = .returned own 3 p ∧
        own.epoch = 0 ∧ p.fd1.taken = ascii "a" ∧
        (quietWorld.run smallCfg restartedActs).Owns frames own 3 p ∧
      (quietWorld.run smallCfg restartedActs).clients 2 = .returned own' 5 p' ∧
        own'.epoch = 1 ∧ p'.fd1.taken = ascii "b" ∧
        (quietWorld.run smallCfg restartedActs).Owns frames own' 5 p' := by
  have hfirst : ((quietWorld.run smallCfg restartedActs).clients 0).result =
      some (0, 2, 3, ascii "a") := by
    decide +kernel
  have hthird : ((quietWorld.run smallCfg restartedActs).clients 2).result =
      some (1, 8, 5, ascii "b") := by
    decide +kernel
  obtain ⟨own, p, hclient, hepoch, -, hout⟩ := Client.of_result hfirst
  obtain ⟨own', p', hclient', hepoch', -, hout'⟩ := Client.of_result hthird
  obtain ⟨frames, howns, -⟩ := async_results_own smallCfg (readsPolls_plain rfl)
  have hall := howns [] (ascii "C:") (fun _ => none) restartedActs restartedActs_careful
  exact ⟨frames, own, p, own', p', hclient, hepoch, hout, hall 0 own 3 p hclient (by decide),
    hclient', hepoch', hout', hall 2 own' 5 p' hclient' (by decide)⟩

/-- The daemon is restarted behind the first job, and the second one gets
the id 1 again: its code and output go to the first client. -/
theorem async_result_of_another :
    ∃ own p, (quietWorld.run smallCfg takenActs).clients 0 = .returned own 5 p ∧
      p.fd1.taken = ascii "b" ∧
      ∀ frames, ¬ (quietWorld.run smallCfg takenActs).Owns frames own 5 p := by
  have hresult : ((quietWorld.run smallCfg takenActs).clients 0).result =
      some (0, 2, 5, ascii "b") := by
    decide +kernel
  have hlog : ((quietWorld.run smallCfg takenActs).epochs[0]?).map Epoch.log =
      some [.sessionStart, .auth, .runa 1 (ascii "x") [], .sessionEnd,
        .jobStart 1 (ascii "x") [], .jobEnd 1 (some ⟨3, ascii "a", [], []⟩)] := by
    decide +kernel
  obtain ⟨own, p, hclient, hepoch, _, hout⟩ := Client.of_result hresult
  refine ⟨own, p, hclient, hout, ?_⟩
  rintro frames ⟨e, jobid, pre, r, he, hjob, hstream⟩
  rw [hepoch] at he
  rw [he, Option.map_some, Option.some.injEq] at hlog
  obtain ⟨_, _, _, _, post, _, _, hend, _⟩ := hjob.at_pos
  have hmem : .jobEnd jobid (some r) ∈ e.log := by
    rw [hend]
    simp
  rw [hlog] at hmem
  have hcode : r.code = 3 := by
    simp at hmem
    rw [hmem.2]
  have hexit := hstream.exits
  rw [hcode] at hexit
  exact absurd hexit (by decide)

end GrandCross
