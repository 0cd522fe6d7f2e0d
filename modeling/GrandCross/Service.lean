import GrandCross.DaemonStep

/-!
# The service behind the sessions

Seen from outside, the daemon is a service with one result slot, a file
system and a working directory.  Its operations are the observations that
the daemon logs; an operation out of order has no successor.  The laws below
are about traces of that abstract service only: a job runs exactly once and
right behind the session that submitted it, and the slot holds the result of
the latest job until a command is accepted.
-/

namespace GrandCross

open CText

inductive Phase where
  | idle
  | session (authed : Bool)
  | accepted (jobid : ℕ) (cmd : Bytes) (env : List EnvEntry)
  | due (jobid : ℕ) (cmd : Bytes) (env : List EnvEntry)
  | running (jobid : ℕ)
  deriving DecidableEq

structure Service where
  phase : Phase
  slot : Option (ℕ × ℕ)
  last : ℕ
  cwd : Bytes
  files : Bytes → Option Bytes

def Service.setFile (cfg : Cfg) (s : Service) (path : Bytes)
    (content : Option Bytes → Option Bytes) : Service :=
  let f := cfg.resolve s.cwd path
  { s with files := Function.update s.files f (content (s.files f)) }

def Service.finish (cfg : Cfg) (s : Service) (jobid : ℕ) :
    Option Captured → Service
  | none => { s with phase := .idle, slot := none }
  | some r =>
      { s with
        phase := .idle
        slot := some (jobid, r.code)
        files := captureFiles cfg s.cwd s.files cfg.rof cfg.ref r.order r.out r.err }

def Service.step (cfg : Cfg) (s : Service) (o : Obs) : Option Service :=
  match s.phase, o with
  | .idle, .sessionStart => some { s with phase := .session false }
  | .session false, .auth => some { s with phase := .session true }
  | .session true, .chdir _ dir => some { s with cwd := dir }
  | .session true, .fopen _ => some s
  | .session true, .create path => some (s.setFile cfg path fun _ => some [])
  | .session true, .append path data =>
      some (s.setFile cfg path fun old => some (old.getD [] ++ data))
  | .session true, .unlink path => some (s.setFile cfg path fun _ => none)
  | .session true, .run _ _ _ => some { s with slot := none }
  | .session true, .runa jobid cmd env =>
      if jobid = nextJobid s.last then
        some { s with phase := .accepted jobid cmd env, slot := none, last := jobid }
      else none
  | .session _, .sessionEnd => some { s with phase := .idle }
  | .accepted jobid cmd env, .sessionEnd =>
      some { s with phase := .due jobid cmd env }
  | .due jobid cmd env, .jobStart jobid' cmd' env' =>
      if jobid' = jobid ∧ cmd' = cmd ∧ env' = env then
        some { s with phase := .running jobid }
      else none
  | .running _, .create path => some (s.setFile cfg path fun _ => some [])
  | .running jobid, .jobEnd jobid' result =>
      if jobid' = jobid then some (s.finish cfg jobid result) else none
  | _, _ => none

/-- The service after a trace, when every operation of it is in order. -/
def Service.replay (cfg : Cfg) (s : Service) (trace : List Obs) :
    Option Service :=
  trace.foldlM (Service.step cfg) s

@[simp] theorem Service.replay_nil (cfg : Cfg) (s : Service) :
    s.replay cfg [] = some s := rfl

theorem Service.replay_append
    {cfg : Cfg} {s s' : Service} {trace trace' : List Obs}
    (h : s.replay cfg trace = some s') :
    s.replay cfg (trace ++ trace') = s'.replay cfg trace' := by
  unfold Service.replay at *
  rw [List.foldlM_append, h]
  rfl

theorem Service.replay_concat
    {cfg : Cfg} {s s' s'' : Service} {trace : List Obs} {o : Obs}
    (h : s.replay cfg trace = some s') (hstep : s'.step cfg o = some s'') :
    s.replay cfg (trace ++ [o]) = some s'' := by
  rw [Service.replay_append h]
  simp [Service.replay, hstep]

theorem Service.replay_split
    {cfg : Cfg} {s s' : Service} {pre post : List Obs} {o : Obs}
    (h : s.replay cfg (pre ++ o :: post) = some s') :
    ∃ s₁ s₂, s.replay cfg pre = some s₁ ∧ s₁.step cfg o = some s₂ ∧
      s₂.replay cfg post = some s' := by
  unfold Service.replay at h
  rw [List.foldlM_append] at h
  obtain ⟨s₁, hpre, hrest⟩ := Option.bind_eq_some_iff.mp h
  rw [List.foldlM_cons] at hrest
  obtain ⟨s₂, hstep, hpost⟩ := Option.bind_eq_some_iff.mp hrest
  exact ⟨s₁, s₂, hpre, hstep, hpost⟩

theorem Service.replay_cons
    {cfg : Cfg} {s s' : Service} {trace : List Obs} {o : Obs}
    (h : s.replay cfg (o :: trace) = some s') :
    ∃ s₁, s.step cfg o = some s₁ ∧ s₁.replay cfg trace = some s' := by
  unfold Service.replay at h
  rw [List.foldlM_cons] at h
  exact Option.bind_eq_some_iff.mp h

/-- Every trace in order is reached from a shorter one: the induction on
traces from the end. -/
theorem Service.replay_last
    {cfg : Cfg} {s s' : Service} {trace : List Obs} {o : Obs}
    (h : s.replay cfg (trace ++ [o]) = some s') :
    ∃ s₁, s.replay cfg trace = some s₁ ∧ s₁.step cfg o = some s' := by
  obtain ⟨s₁, s₂, hpre, hstep, hpost⟩ := Service.replay_split h
  rw [Service.replay_nil, Option.some.injEq] at hpost
  exact ⟨s₁, hpre, hpost ▸ hstep⟩

/-! ## Steps backwards -/

@[simp] theorem Service.setFile_phase
    (cfg : Cfg) (s : Service) (path : Bytes)
    (content : Option Bytes → Option Bytes) :
    (s.setFile cfg path content).phase = s.phase := rfl

@[simp] theorem Service.setFile_slot
    (cfg : Cfg) (s : Service) (path : Bytes)
    (content : Option Bytes → Option Bytes) :
    (s.setFile cfg path content).slot = s.slot := rfl

@[simp] theorem Service.finish_phase
    (cfg : Cfg) (s : Service) (jobid : ℕ) (result : Option Captured) :
    (s.finish cfg jobid result).phase = .idle := by
  cases result <;> rfl

theorem Service.finish_slot
    (cfg : Cfg) (s : Service) (jobid : ℕ) (result : Option Captured) :
    (s.finish cfg jobid result).slot = result.map fun r => (jobid, r.code) := by
  cases result <;> rfl

/-- The phases between a RUNA and the end of its job. -/
def Phase.job : Phase → Option ℕ
  | .idle => none
  | .session _ => none
  | .accepted jobid _ _ => some jobid
  | .due jobid _ _ => some jobid
  | .running jobid => some jobid

/-- Operations that touch the slot from within a session. -/
def Obs.resets : Obs → Bool
  | .run _ _ _ => true
  | .runa _ _ _ => true
  | _ => false

section Backwards

variable {cfg : Cfg} {s s' : Service} {o : Obs}

theorem Service.step_accepted
    {jobid : ℕ} {cmd : Bytes} {env : List EnvEntry}
    (hstep : s.step cfg o = some s') (hphase : s.phase = .accepted jobid cmd env) :
    o = .sessionEnd ∧ s'.phase = .due jobid cmd env := by
  unfold Service.step at hstep
  rw [hphase] at hstep
  split at hstep <;> simp_all
  rw [← hstep]

theorem Service.step_due
    {jobid : ℕ} {cmd : Bytes} {env : List EnvEntry}
    (hstep : s.step cfg o = some s') (hphase : s.phase = .due jobid cmd env) :
    o = .jobStart jobid cmd env ∧ s'.phase = .running jobid := by
  unfold Service.step at hstep
  rw [hphase] at hstep
  split at hstep <;> simp_all
  rw [← hstep.2]

theorem Service.step_to_due
    {jobid : ℕ} {cmd : Bytes} {env : List EnvEntry}
    (hstep : s.step cfg o = some s') (hphase : s'.phase = .due jobid cmd env) :
    o = .sessionEnd ∧ s.phase = .accepted jobid cmd env := by
  unfold Service.step at hstep
  split at hstep <;> simp at hstep <;> grind [Service.setFile_phase, Service.finish_phase]

theorem Service.step_to_accepted
    {jobid : ℕ} {cmd : Bytes} {env : List EnvEntry}
    (hstep : s.step cfg o = some s') (hphase : s'.phase = .accepted jobid cmd env) :
    o = .runa jobid cmd env := by
  unfold Service.step at hstep
  split at hstep <;> simp at hstep <;>
    grind [Service.setFile_phase, Service.finish_phase]

/-- Outside a job the slot changes only when a command is accepted, and
outside a job only a RUNA leads into one. -/
theorem Service.step_outside
    (hstep : s.step cfg o = some s') (hjob : s.phase.job = none)
    (hresets : o.resets = false) :
    s'.phase.job = none ∧ s'.slot = s.slot := by
  unfold Service.step at hstep
  split at hstep <;> simp_all [Phase.job, Obs.resets] <;>
    subst hstep <;> simp_all

/-- Inside a job every operation keeps it, until its end fills the slot. -/
theorem Service.step_within
    {jobid : ℕ} (hstep : s.step cfg o = some s')
    (hjob : s.phase.job = some jobid) :
    o.resets = false ∧
      (s'.phase.job = some jobid ∧ s'.slot = s.slot ∨
        ∃ result, o = .jobEnd jobid result ∧ s'.phase.job = none ∧
          s'.slot = result.map fun r => (jobid, r.code)) := by
  unfold Service.step at hstep
  split at hstep <;> simp_all [Phase.job, Obs.resets]
  · subst hstep
    simp_all
  · obtain ⟨-, rfl⟩ := hstep
    simp
  · subst hstep
    simp_all
  · obtain ⟨rfl, rfl⟩ := hstep
    simp [Service.finish_slot]

theorem Service.step_resets
    (hstep : s.step cfg o = some s') (hresets : o.resets = true) :
    s'.slot = none ∧
      (s'.phase.job = none ∨
        ∃ jobid cmd env, o = .runa jobid cmd env ∧ s'.phase.job = some jobid) := by
  unfold Service.step at hstep
  split at hstep <;> simp_all [Obs.resets, Phase.job]
  · subst hstep
    simp_all
  · obtain ⟨-, rfl⟩ := hstep
    simp

theorem Service.step_runa
    {jobid : ℕ} {cmd : Bytes} {env : List EnvEntry}
    (hstep : s.step cfg (.runa jobid cmd env) = some s') :
    s'.phase = .accepted jobid cmd env := by
  unfold Service.step at hstep
  split at hstep <;> simp_all
  rw [← hstep.2]

theorem Service.step_jobStart
    {jobid : ℕ} {cmd : Bytes} {env : List EnvEntry}
    (hstep : s.step cfg (.jobStart jobid cmd env) = some s') :
    s.phase = .due jobid cmd env := by
  unfold Service.step at hstep
  split at hstep <;> simp_all

theorem Service.step_jobEnd
    {jobid : ℕ} {result : Option Captured}
    (hstep : s.step cfg (.jobEnd jobid result) = some s') :
    s.phase = .running jobid ∧ s' = s.finish cfg jobid result := by
  unfold Service.step at hstep
  split at hstep <;> simp_all

end Backwards

/-! ## Laws of traces -/

/-- The phases in which the daemon can wait. -/
def Phase.Waits : Phase → Prop
  | .accepted _ _ _ => False
  | .due _ _ _ => False
  | _ => True

section Traces

variable {cfg : Cfg} {s₀ s : Service}

/-- An accepted RUNA is followed by the end of its session and the start of
its job, with the same command and environment. -/
theorem Service.runa_followed
    {pre post : List Obs} {jobid : ℕ} {cmd : Bytes} {env : List EnvEntry}
    (h : s₀.replay cfg (pre ++ .runa jobid cmd env :: post) = some s)
    (hwaits : s.phase.Waits) :
    ∃ post', post = .sessionEnd :: .jobStart jobid cmd env :: post' := by
  obtain ⟨s₁, s₂, _, hruna, hpost⟩ := Service.replay_split h
  have haccepted := Service.step_runa hruna
  cases post with
  | nil =>
      rw [Service.replay_nil, Option.some.injEq] at hpost
      rw [← hpost, haccepted] at hwaits
      exact hwaits.elim
  | cons o post =>
      obtain ⟨s₃, hend, hbehind⟩ := Service.replay_cons hpost
      obtain ⟨rfl, hdue⟩ := Service.step_accepted hend haccepted
      cases post with
      | nil =>
          rw [Service.replay_nil, Option.some.injEq] at hbehind
          rw [← hbehind, hdue] at hwaits
          exact hwaits.elim
      | cons o post =>
          obtain ⟨s₄, hstart, _⟩ := Service.replay_cons hbehind
          obtain ⟨rfl, _⟩ := Service.step_due hstart hdue
          exact ⟨post, rfl⟩

theorem Service.jobStart_preceded
    {pre post : List Obs} {jobid : ℕ} {cmd : Bytes} {env : List EnvEntry}
    (hidle : s₀.phase = .idle)
    (h : s₀.replay cfg (pre ++ .jobStart jobid cmd env :: post) = some s) :
    ∃ pre', pre = pre' ++ [.runa jobid cmd env, .sessionEnd] := by
  obtain ⟨s₁, s₂, hpre, hstart, _⟩ := Service.replay_split h
  have hdue := Service.step_jobStart hstart
  rcases List.eq_nil_or_concat' pre with rfl | ⟨pre, o, rfl⟩
  · rw [Service.replay_nil, Option.some.injEq] at hpre
    rw [← hpre, hidle] at hdue
    cases hdue
  · obtain ⟨s₀', hbefore, hend⟩ := Service.replay_last hpre
    obtain ⟨rfl, haccepted⟩ := Service.step_to_due hend hdue
    rcases List.eq_nil_or_concat' pre with rfl | ⟨pre, o, rfl⟩
    · rw [Service.replay_nil, Option.some.injEq] at hbefore
      rw [← hbefore, hidle] at haccepted
      cases haccepted
    · obtain ⟨_, _, hruna⟩ := Service.replay_last hbefore
      have ho := Service.step_to_accepted hruna haccepted
      exact ⟨pre, by simp [ho]⟩

/-- Job `jobid` is the latest submitted one, it has ended with `r`, and no
command has been accepted since. -/
def Finished (trace : List Obs) (jobid : ℕ) (r : Captured) : Prop :=
  ∃ pre cmd env mid post,
    trace = pre ++ .runa jobid cmd env :: (mid ++ .jobEnd jobid (some r) :: post) ∧
      ∀ o ∈ mid ++ post, o.resets = false

def Latest (trace : List Obs) (jobid : ℕ) : Prop :=
  ∃ pre cmd env mid, trace = pre ++ .runa jobid cmd env :: mid ∧
    ∀ o ∈ mid, o.resets = false

theorem Finished.concat
    {trace : List Obs} {jobid : ℕ} {r : Captured} (h : Finished trace jobid r)
    {o : Obs} (ho : o.resets = false) : Finished (trace ++ [o]) jobid r := by
  obtain ⟨pre, cmd, env, mid, post, rfl, hquiet⟩ := h
  refine ⟨pre, cmd, env, mid, post ++ [o], by simp, ?_⟩
  intro o' ho'
  rw [← List.append_assoc, List.mem_append, List.mem_singleton] at ho'
  rcases ho' with hmem | rfl
  · exact hquiet o' hmem
  · exact ho

theorem Latest.concat
    {trace : List Obs} {jobid : ℕ} (h : Latest trace jobid) {o : Obs}
    (ho : o.resets = false) : Latest (trace ++ [o]) jobid := by
  obtain ⟨pre, cmd, env, mid, rfl, hquiet⟩ := h
  refine ⟨pre, cmd, env, mid ++ [o], by simp, ?_⟩
  intro o' ho'
  rcases List.mem_append.mp ho' with hmem | hmem
  · exact hquiet o' hmem
  · rwa [List.mem_singleton.mp hmem]

theorem Latest.finish
    {trace : List Obs} {jobid : ℕ} (h : Latest trace jobid) (r : Captured) :
    Finished (trace ++ [.jobEnd jobid (some r)]) jobid r := by
  obtain ⟨pre, cmd, env, mid, rfl, hquiet⟩ := h
  exact ⟨pre, cmd, env, mid, [], by simp, by simpa using hquiet⟩

structure Told (trace : List Obs) (s : Service) : Prop where
  job : ∀ jobid, s.phase.job = some jobid → Latest trace jobid ∧ s.slot = none
  slot : ∀ jobid code, s.slot = some (jobid, code) →
    ∃ r : Captured, r.code = code ∧ Finished trace jobid r

theorem Told.step
    {trace : List Obs} {s s' : Service} {o : Obs} (h : Told trace s)
    (hstep : s.step cfg o = some s') : Told (trace ++ [o]) s' := by
  by_cases hresets : o.resets = true
  · obtain ⟨hslot, hjob⟩ := Service.step_resets hstep hresets
    refine ⟨?_, by simp [hslot]⟩
    intro jobid hphase
    rcases hjob with hnone | ⟨jobid', cmd, env, rfl, hsome⟩
    · rw [hnone] at hphase
      cases hphase
    · rw [hsome, Option.some.injEq] at hphase
      subst hphase
      exact ⟨⟨trace, cmd, env, [], by simp, by simp⟩, hslot⟩
  · have hquiet : o.resets = false := by simpa using hresets
    cases hphase : s.phase.job with
    | none =>
        obtain ⟨hjob, hslot⟩ := Service.step_outside hstep hphase hquiet
        refine ⟨by simp [hjob], ?_⟩
        intro jobid code hcode
        rw [hslot] at hcode
        obtain ⟨r, hr, hfinished⟩ := h.slot jobid code hcode
        exact ⟨r, hr, hfinished.concat hquiet⟩
    | some jobid =>
        obtain ⟨hlatest, hempty⟩ := h.job jobid hphase
        obtain ⟨_, ⟨hjob, hslot⟩ | ⟨result, rfl, hjob, hslot⟩⟩ :=
          Service.step_within hstep hphase
        · refine ⟨?_, by simp [hslot, hempty]⟩
          intro jobid' hjob'
          rw [hjob, Option.some.injEq] at hjob'
          exact ⟨hjob' ▸ hlatest.concat hquiet, hslot.trans hempty⟩
        · refine ⟨by simp [hjob], ?_⟩
          intro jobid' code hcode
          cases result with
          | none => simp [hslot] at hcode
          | some r =>
              rw [hslot] at hcode
              simp only [Option.map_some, Option.some.injEq, Prod.mk.injEq] at hcode
              obtain ⟨rfl, hr⟩ := hcode
              exact ⟨r, hr, hlatest.finish r⟩

theorem Service.replay_told
    {trace : List Obs} (hidle : s₀.phase = .idle) (hslot : s₀.slot = none)
    (h : s₀.replay cfg trace = some s) : Told trace s := by
  induction trace using List.reverseRecOn generalizing s with
  | nil =>
      rw [Service.replay_nil, Option.some.injEq] at h
      subst h
      exact ⟨by simp [hidle, Phase.job], by simp [hslot]⟩
  | append_singleton trace o ih =>
      obtain ⟨s₁, hpre, hstep⟩ := Service.replay_last h
      exact (ih hpre).step hstep

theorem Service.replay_quiet
    {trace : List Obs} (h : s₀.replay cfg trace = some s)
    (hjob : s₀.phase.job = none) (hquiet : ∀ o ∈ trace, o.resets = false) :
    s.phase.job = none ∧ s.slot = s₀.slot := by
  induction trace using List.reverseRecOn generalizing s with
  | nil =>
      rw [Service.replay_nil, Option.some.injEq] at h
      subst h
      exact ⟨hjob, rfl⟩
  | append_singleton trace o ih =>
      obtain ⟨s₁, hpre, hstep⟩ := Service.replay_last h
      have hbefore := ih hpre fun o' ho' => hquiet o' (by simp [ho'])
      have hafter := Service.step_outside hstep hbefore.1 (hquiet o (by simp))
      exact ⟨hafter.1, hafter.2.trans hbefore.2⟩

/-- The slot holds exactly the result of the latest job, until a command is
accepted. -/
theorem Service.slot_iff_finished
    {trace : List Obs} (hidle : s₀.phase = .idle) (hslot : s₀.slot = none)
    (h : s₀.replay cfg trace = some s) (jobid code : ℕ) :
    s.slot = some (jobid, code) ↔
      ∃ r : Captured, r.code = code ∧ Finished trace jobid r := by
  constructor
  · intro hcode
    exact (Service.replay_told hidle hslot h).slot jobid code hcode
  · rintro ⟨r, rfl, pre, cmd, env, mid, post, rfl, hquiet⟩
    have hsplit : pre ++ .runa jobid cmd env ::
        (mid ++ .jobEnd jobid (some r) :: post) =
          (pre ++ .runa jobid cmd env :: mid) ++ .jobEnd jobid (some r) :: post := by
      simp
    rw [hsplit] at h
    obtain ⟨s₁, s₂, _, hend, hpost⟩ := Service.replay_split h
    obtain ⟨_, rfl⟩ := Service.step_jobEnd hend
    have hstay := Service.replay_quiet hpost (by simp [Phase.job])
      fun o ho => hquiet o (by simp [ho])
    rw [hstay.2, Service.finish_slot]
    rfl

end Traces

end GrandCross
