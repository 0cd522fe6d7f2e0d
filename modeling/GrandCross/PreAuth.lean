import GrandCross.Replies
import GrandCross.ServiceRefine

/-!
# Before authentication

A session that has not authenticated only reads its first line.  What it
sends is a function of the channel and of the bytes received, so two daemons
that differ in anything else answer alike; and nothing of the daemon changes
but that channel.  The same holds of the control sessions that are served
while a command runs.
-/

namespace GrandCross

open CText
open Transfer

/-- A received byte or a failed read, and the answers of the operating system
to the calls that it leads to. -/
abbrev Input := Option Byte × Answers

def receive (cfg : Cfg) (d : Daemon) (input : Input) : Daemon :=
  match input.1 with
  | some b => rx cfg input.2 d b
  | none => hup cfg input.2 d

def Ctl.inSession (c : Ctl) : Bool :=
  match c.phase with
  | .session _ => true
  | _ => false

/-- The inputs of one session: they are read until it is over. -/
def sessionOver (cfg : Cfg) : Daemon → List Input → Daemon
  | d, [] => d
  | d, input :: inputs =>
      if d.ctl.inSession then sessionOver cfg (receive cfg d input) inputs else d

def firstLine : Bytes → List (Option Byte) → Option Bytes
  | _, [] => none
  | _, none :: _ => none
  | buf, some b :: rest =>
      match lioGetByte lineMax buf b with
      | .more buf' => firstLine buf' rest
      | .ok line => some line
      | .elong => none

def authText (cfg : Cfg) : Bytes := ascii "AUTH" ++ sp :: cfg.token

/-- The channel behind a first line that does not authenticate.  The two kinds
of session differ in how they see a line and in what they say to an overlong
one. -/
def refusal (cfg : Cfg) (text : Bytes → Bytes) (long : Chan → Chan) (c : Chan) :
    Bytes → List (Option Byte) → Chan
  | _, [] => c
  | _, none :: _ => c
  | buf, some b :: rest =>
      match lioGetByte lineMax buf b with
      | .more buf' => refusal cfg text long c buf' rest
      | .ok line =>
          (handleAuth cfg c (cutAt sp (text line)).1 (cutAt sp (text line)).2).2
      | .elong => long c

def sayViolation (c : Chan) : Chan :=
  (lioPutLine c (ascii "ERR 400 protocol violation")).2

/-! ## One line at most -/

def preAuthReplies : List Bytes :=
  [ascii "OK", ascii "ERR 401 auth failed", ascii "ERR 400 protocol violation"]

def OneLine (c c' : Chan) : Prop :=
  ∃ msg ∈ preAuthReplies, ∃ part,
    c'.sent = c.sent ++ part ∧ part <+: msg ++ [lf]

theorem oneLine_refl (c : Chan) : OneLine c c :=
  ⟨ascii "OK", by decide, [], by simp, List.nil_prefix⟩

theorem oneLine_lioPutLine
    (c : Chan) {msg : Bytes} (hmsg : msg ∈ preAuthReplies) :
    OneLine c (lioPutLine c msg).2 := by
  obtain ⟨part, hsent, hpart, _⟩ := lioPutLine_part c msg
  exact ⟨msg, hmsg, part, hsent, hpart⟩

theorem oneLine_handleAuth
    (cfg : Cfg) (c : Chan) (cmd : Bytes) (arg : Option Bytes) :
    OneLine c (handleAuth cfg c cmd arg).2 := by
  unfold handleAuth
  by_cases hquit : cmd = ascii "QUIT"
  · rw [if_pos hquit]
    exact oneLine_lioPutLine c (by decide)
  · rw [if_neg hquit]
    split_ifs
    · exact oneLine_lioPutLine c (by decide)
    · exact oneLine_lioPutLine c (by decide)

theorem oneLine_refusal
    (cfg : Cfg) (text : Bytes → Bytes) {long : Chan → Chan} {c : Chan}
    (hlong : OneLine c (long c)) (buf : Bytes) (inputs : List (Option Byte)) :
    OneLine c (refusal cfg text long c buf inputs) := by
  induction inputs generalizing buf with
  | nil => exact oneLine_refl c
  | cons input inputs ih =>
      cases input with
      | none => exact oneLine_refl c
      | some b =>
          rw [refusal]
          split
          · exact ih _
          · exact oneLine_handleAuth ..
          · exact hlong

/-! ## The first line -/

theorem cutAt_eq_iff
    (word : Bytes) (hword : sp ∉ word) (text arg : Bytes) :
    cutAt sp text = (word, some arg) ↔ text = word ++ sp :: arg := by
  constructor
  · intro h
    have hjoin := cutAt_join sp text
    rw [h] at hjoin
    exact hjoin
  · rintro rfl
    exact cutAt_append_cons hword arg

/-- Only the AUTH line with the configured token is accepted. -/
theorem handleAuth_refuses
    (cfg : Cfg) (c : Chan) {text : Bytes} (htext : text ≠ authText cfg) :
    (handleAuth cfg c (cutAt sp text).1 (cutAt sp text).2).1 = false := by
  unfold handleAuth
  by_cases hquit : (cutAt sp text).1 = ascii "QUIT"
  · rw [if_pos hquit]
  · rw [if_neg hquit, if_pos]
    by_contra hboth
    push Not at hboth
    apply htext
    rw [authText, ← cutAt_eq_iff _ (by decide)]
    exact Prod.ext hboth.1 hboth.2

def NoAuth (cfg : Cfg) (text : Bytes → Bytes) (buf : Bytes)
    (inputs : List (Option Byte)) : Prop :=
  ∀ line, firstLine buf inputs = some line → text line ≠ authText cfg

theorem NoAuth.more
    {cfg : Cfg} {text : Bytes → Bytes} {buf buf' : Bytes} {b : Byte}
    {inputs : List (Option Byte)} (h : NoAuth cfg text buf (some b :: inputs))
    (hmore : lioGetByte lineMax buf b = .more buf') :
    NoAuth cfg text buf' inputs := by
  intro line hline
  apply h line
  rw [firstLine, hmore]
  exact hline

theorem NoAuth.line
    {cfg : Cfg} {text : Bytes → Bytes} {buf line : Bytes} {b : Byte}
    {inputs : List (Option Byte)} (h : NoAuth cfg text buf (some b :: inputs))
    (hok : lioGetByte lineMax buf b = .ok line) : text line ≠ authText cfg := by
  apply h line
  rw [firstLine, hok]

/-! ## Sessions -/

theorem sessionReturn_quiet
    (cfg : Cfg) (o : Answers) {d : Daemon} (hpending : d.job.pending = false) :
    sessionReturn cfg o d =
      { d with ctl := idleCtl cfg, log := d.log ++ [.sessionEnd] } := by
  have hnote : (d.note .sessionEnd).job.pending = false := hpending
  unfold sessionReturn runPending
  rw [hnote]
  rfl

theorem idleCtl_not_inSession (cfg : Cfg) : (idleCtl cfg).inSession = false := by
  unfold idleCtl
  cases cfg.kind <;> rfl

theorem sessionReturn_not_inSession (cfg : Cfg) (o : Answers) (d : Daemon) :
    (sessionReturn cfg o d).ctl.inSession = false := by
  have hfinish : ∀ (d : Daemon) (id : ℕ) (r : Option Captured),
      (jobFinish cfg d id r).ctl.inSession = false := by
    intro d id r
    cases r <;> exact idleCtl_not_inSession cfg
  have hjob : ∀ (d : Daemon) (job : Job),
      (liveExecJob cfg o d job).ctl.inSession = false := by
    intro d job
    unfold liveExecJob
    cases buildScript scriptMax job.cmd job.env with
    | none => exact hfinish _ _ _
    | some script =>
        dsimp only
        split_ifs
        · cases o.child with
          | none => exact hfinish _ _ _
          | some child => rfl
        · exact hfinish _ _ _
  unfold sessionReturn runPending
  dsimp only
  split_ifs
  · exact hjob _ _
  · cases o.child with
    | none => exact hfinish _ _ _
    | some child => exact hfinish _ _ _
  · exact idleCtl_not_inSession cfg

theorem sessionOver_idle
    (cfg : Cfg) {d : Daemon} (hctl : d.ctl = idleCtl cfg) (inputs : List Input) :
    sessionOver cfg d inputs = d := by
  cases inputs with
  | nil => rfl
  | cons input inputs =>
      have hout := idleCtl_not_inSession cfg
      rw [← hctl] at hout
      simp [sessionOver, hout]

/-- A daemon that has at most ended its session since, with `c` for its
channel and everything else in place. -/
def Untouched (d d' : Daemon) (c : Chan) : Prop :=
  ∃ ctl log, d' = { d with ctl := ctl, chan := c, log := log } ∧
    (log = d.log ∨ log = d.log ++ [.sessionEnd])

theorem untouched_sessionReturn
    (cfg : Cfg) (o : Answers) {d : Daemon} (hpending : d.job.pending = false)
    (c : Chan) (inputs : List Input) :
    Untouched d
      (sessionOver cfg (sessionReturn cfg o { d with chan := c }) inputs) c := by
  have hquiet := sessionReturn_quiet cfg o (d := { d with chan := c }) hpending
  rw [hquiet, sessionOver_idle cfg rfl]
  exact ⟨_, _, rfl, .inr rfl⟩

theorem sessionOver_refused
    (cfg : Cfg) {d : Daemon} (hpending : d.job.pending = false)
    (env : List EnvEntry) (buf : Bytes) (inputs : List Input)
    (hnot : NoAuth cfg (sessionText cfg) buf (inputs.map Prod.fst)) :
    Untouched d (sessionOver cfg { d with ctl := .session false env buf } inputs)
      (refusal cfg (sessionText cfg) sayViolation d.chan buf
        (inputs.map Prod.fst)) := by
  induction inputs generalizing buf with
  | nil => exact ⟨_, _, rfl, .inl rfl⟩
  | cons input inputs ih =>
      obtain ⟨received, o⟩ := input
      have hin : (Ctl.session false env buf).inSession = true := rfl
      simp only [sessionOver, hin, if_true, receive, List.map_cons]
      cases received with
      | none =>
          exact untouched_sessionReturn cfg o
            (d := { d with ctl := .session false env buf }) hpending d.chan inputs
      | some b =>
          simp only [rx, refusal]
          cases hbyte : lioGetByte lineMax buf b with
          | more buf' => exact ih buf' (hnot.more hbyte)
          | ok line =>
              have hrefused := handleAuth_refuses cfg d.chan (hnot.line hbyte)
              simp only [sessionLine, Bool.false_eq_true, if_false, hrefused]
              exact untouched_sessionReturn cfg o
                (d := { d with ctl := .session false env buf }) hpending _ inputs
          | elong =>
              exact untouched_sessionReturn cfg o
                (d := { d with ctl := .session false env buf }) hpending _ inputs

def sessionChan (cfg : Cfg) (c : Chan) (inputs : List (Option Byte)) : Chan :=
  if (lioPutLine c (greeting cfg)).1 then
    refusal cfg (sessionText cfg) sayViolation (lioPutLine c (greeting cfg)).2 []
      inputs
  else (lioPutLine c (greeting cfg)).2

theorem sessionRun_refused
    (cfg : Cfg) (o : Answers) (d : Daemon) (inputs : List Input)
    (hnot : NoAuth cfg (sessionText cfg) [] (inputs.map Prod.fst)) :
    Untouched
      { d with
        job := { d.job with pending := false }
        log := d.log ++ [.sessionStart] }
      (sessionOver cfg (sessionRun cfg o d) inputs)
      (sessionChan cfg d.chan (inputs.map Prod.fst)) := by
  unfold sessionRun sessionChan
  dsimp only
  split_ifs
  · exact sessionOver_refused cfg
      (d := { d with
        chan := (lioPutLine d.chan (greeting cfg)).2
        job := { d.job with pending := false }
        log := d.log ++ [.sessionStart] }) rfl [] [] inputs hnot
  · exact untouched_sessionReturn cfg o
      (d := { d with
        job := { d.job with pending := false }
        log := d.log ++ [.sessionStart] }) rfl _ inputs

/-- The greeting, perhaps cut, and at most one line behind it. -/
def GreetedOnce (cfg : Cfg) (c c' : Chan) : Prop :=
  ∃ msg ∈ preAuthReplies, ∃ part,
    c'.sent = c.sent ++ part ∧ part <+: greeting cfg ++ [lf] ++ (msg ++ [lf])

theorem greetedOnce_of
    {cfg : Cfg} {c c' : Chan}
    (hok : (lioPutLine c (greeting cfg)).1 = true →
      OneLine (lioPutLine c (greeting cfg)).2 c')
    (hfail : (lioPutLine c (greeting cfg)).1 = false →
      c' = (lioPutLine c (greeting cfg)).2) : GreetedOnce cfg c c' := by
  obtain ⟨part, hsent, hpart, hall⟩ := lioPutLine_part c (greeting cfg)
  cases hgreet : (lioPutLine c (greeting cfg)).1 with
  | true =>
      obtain ⟨msg, hmsg, line, hline, hcut⟩ := hok hgreet
      rw [hall hgreet] at hsent
      refine ⟨msg, hmsg, greeting cfg ++ [lf] ++ line, ?_, ?_⟩
      · rw [hline, hsent, List.append_assoc]
      · exact (List.prefix_append_right_inj _).mpr hcut
  | false =>
      refine ⟨ascii "OK", by decide, part, ?_, ?_⟩
      · rw [hfail hgreet, hsent]
      · exact hpart.trans (List.prefix_append _ _)

theorem greetedOnce_sessionChan
    (cfg : Cfg) (c : Chan) (inputs : List (Option Byte)) :
    GreetedOnce cfg c (sessionChan cfg c inputs) := by
  apply greetedOnce_of
  · intro hok
    rw [sessionChan, if_pos hok]
    exact oneLine_refusal _ _ (oneLine_lioPutLine _ (by decide)) _ _
  · intro hfail
    rw [sessionChan, if_neg (by simp [hfail])]

/-! ## Control sessions -/

/-- The inputs of a control session: whether it still goes on, and its
state. -/
def ctlOver (cfg : Cfg) (busy : ℕ) :
    Bool × CtlSess → List (Option Byte) → Bool × CtlSess
  | (false, cs), _ => (false, cs)
  | (true, cs), [] => (true, cs)
  | (true, cs), none :: _ => (false, cs)
  | (true, cs), some b :: rest => ctlOver cfg busy (ctlRx cfg busy cs b) rest

theorem ctlOver_refused
    (cfg : Cfg) (busy : ℕ) (buf : Bytes) (c : Chan) (inputs : List (Option Byte))
    (hnot : NoAuth cfg cstr buf inputs) :
    (ctlOver cfg busy (true, ⟨false, buf, c⟩) inputs).2.chan =
      refusal cfg cstr id c buf inputs := by
  induction inputs generalizing buf with
  | nil => rfl
  | cons input inputs ih =>
      cases input with
      | none => rfl
      | some b =>
          simp only [ctlOver, ctlRx, refusal]
          cases hbyte : lioGetByte lineMax buf b with
          | more buf' => exact ih buf' (hnot.more hbyte)
          | ok line =>
              have hrefused := handleAuth_refuses cfg c (hnot.line hbyte)
              simp [ctlLine, hrefused, ctlOver]
          | elong => simp [ctlOver]

theorem greetedOnce_ctlOver
    (cfg : Cfg) (busy : ℕ) (plan : List (Option ℕ)) (inputs : List (Option Byte))
    (hnot : NoAuth cfg cstr [] inputs) :
    GreetedOnce cfg ⟨.tcp, ⟨plan, []⟩⟩
      (ctlOver cfg busy (ctlSession cfg plan) inputs).2.chan := by
  apply greetedOnce_of
  · intro hok
    have hopen : ctlSession cfg plan =
        (true, ⟨false, [], (lioPutLine ⟨.tcp, ⟨plan, []⟩⟩ (greeting cfg)).2⟩) := by
      simp [ctlSession, hok]
    rw [hopen, ctlOver_refused cfg busy _ _ _ hnot]
    exact oneLine_refusal _ _ (oneLine_refl _) _ _
  · intro hfail
    simp [ctlSession, hfail, ctlOver]

/-- The daemon while a control session reads: nothing but that session
changes, and when it is over the supervision loop goes on where it was. -/
theorem receive_liveCtl
    (cfg : Cfg) {d : Daemon} {l : Live} {sel : Sel} {cs : CtlSess}
    (hctl : d.ctl = .liveCtl l sel cs) (input : Input) :
    receive cfg d input =
      match ctlOver cfg l.jobid (true, cs) [input.1] with
      | (true, cs') => { d with ctl := .liveCtl l sel cs' }
      | (false, _) => livePass cfg input.2 d l sel := by
  obtain ⟨received, o⟩ := input
  cases received with
  | none => simp [receive, hup, hctl, ctlOver]
  | some b =>
      cases hrx : ctlRx cfg l.jobid cs b with
      | mk more cs' =>
          cases more with
          | true => simp [receive, rx, hctl, ctlOver, hrx]
          | false => simp [receive, rx, hctl, ctlOver, hrx]

/-- The daemon has only served a control session: it still does, or it has
gone back to the supervision loop with the state it came with. -/
def ServedOnly (cfg : Cfg) (d : Daemon) (l : Live) (sel : Sel)
    (fate : Bool × CtlSess) (cs : CtlSess) (inputs : List Input) : Prop :=
  if fate.1 then
    inputs.foldl (receive cfg) { d with ctl := .liveCtl l sel cs } =
      { d with ctl := .liveCtl l sel fate.2 }
  else
    ∃ pre input post cs', inputs = pre ++ input :: post ∧
      pre.foldl (receive cfg) { d with ctl := .liveCtl l sel cs } =
        { d with ctl := .liveCtl l sel cs' } ∧
      (pre ++ [input]).foldl (receive cfg) { d with ctl := .liveCtl l sel cs } =
        livePass cfg input.2 { d with ctl := .liveCtl l sel cs' } l sel

theorem servedOnly_ctlOver
    (cfg : Cfg) (d : Daemon) (l : Live) (sel : Sel) (cs : CtlSess)
    (inputs : List Input) :
    ServedOnly cfg d l sel
      (ctlOver cfg l.jobid (true, cs) (inputs.map Prod.fst)) cs inputs := by
  induction inputs generalizing cs with
  | nil => simp [ServedOnly, ctlOver]
  | cons input inputs ih =>
      have hfirst := receive_liveCtl cfg (d := { d with ctl := .liveCtl l sel cs })
        rfl input
      have hsplit : ctlOver cfg l.jobid (true, cs) (input.1 :: inputs.map Prod.fst) =
          ctlOver cfg l.jobid (ctlOver cfg l.jobid (true, cs) [input.1])
            (inputs.map Prod.fst) := by
        cases input.1 with
        | none => simp [ctlOver]
        | some b =>
            simp only [ctlOver]
            cases ctlRx cfg l.jobid cs b with
            | mk more cs' => cases more <;> simp [ctlOver]
      rw [List.map_cons, hsplit]
      cases hone : ctlOver cfg l.jobid (true, cs) [input.1] with
      | mk more cs' =>
          rw [hone] at hfirst
          cases more with
          | false =>
              refine (if_neg (by simp [ctlOver])).mpr ?_
              exact ⟨[], input, inputs, cs, rfl, rfl, by simpa using hfirst⟩
          | true =>
              have hrest := ih cs'
              dsimp only at hfirst
              unfold ServedOnly at hrest ⊢
              split_ifs at hrest ⊢ with hmore
              · rw [List.foldl_cons, hfirst]
                exact hrest
              · obtain ⟨pre, last, post, cs'', rfl, hpre, hlast⟩ := hrest
                refine ⟨input :: pre, last, post, cs'', rfl, ?_, ?_⟩
                · rw [List.foldl_cons, hfirst]
                  exact hpre
                · rw [List.cons_append, List.foldl_cons, hfirst]
                  exact hlast

/-- Unless its first line authenticates, a session changes nothing, sends at
most the greeting and one line, and sends the same whatever the daemon
holds; and so does a control session. -/
theorem preAuth_silent (cfg : Cfg) (inputs : List Input) :
    (NoAuth cfg (sessionText cfg) [] (inputs.map Prod.fst) →
      ∀ (o : Answers) (d : Daemon),
        (sessionOver cfg (sessionRun cfg o d) inputs).res = d.res ∧
        (sessionOver cfg (sessionRun cfg o d) inputs).job.pending = false ∧
        (sessionOver cfg (sessionRun cfg o d) inputs).cwd = d.cwd ∧
        (sessionOver cfg (sessionRun cfg o d) inputs).files = d.files ∧
        ((sessionOver cfg (sessionRun cfg o d) inputs).log =
            d.log ++ [.sessionStart] ∨
          (sessionOver cfg (sessionRun cfg o d) inputs).log =
            d.log ++ [.sessionStart, .sessionEnd]) ∧
        GreetedOnce cfg d.chan (sessionOver cfg (sessionRun cfg o d) inputs).chan ∧
        ∀ (o' : Answers) (d' : Daemon) (inputs' : List Input),
          d'.chan = d.chan → inputs'.map Prod.fst = inputs.map Prod.fst →
          (sessionOver cfg (sessionRun cfg o' d') inputs').chan =
            (sessionOver cfg (sessionRun cfg o d) inputs).chan) ∧
    (NoAuth cfg cstr [] (inputs.map Prod.fst) →
      ∀ (d : Daemon) (l : Live) (sel : Sel) (plan : List (Option ℕ)),
        ((ctlSession cfg plan).1 = true →
          ServedOnly cfg d l sel
            (ctlOver cfg l.jobid (ctlSession cfg plan) (inputs.map Prod.fst))
            (ctlSession cfg plan).2 inputs) ∧
        GreetedOnce cfg ⟨.tcp, ⟨plan, []⟩⟩
          (ctlOver cfg l.jobid (ctlSession cfg plan)
            (inputs.map Prod.fst)).2.chan ∧
        ∀ busy, (ctlOver cfg busy (ctlSession cfg plan)
            (inputs.map Prod.fst)).2.chan =
          (ctlOver cfg l.jobid (ctlSession cfg plan)
            (inputs.map Prod.fst)).2.chan) := by
  constructor
  · intro hnot o d
    obtain ⟨ctl, log, hover, hlog⟩ := sessionRun_refused cfg o d inputs hnot
    have hlog' : log = d.log ++ [.sessionStart] ∨
        log = d.log ++ [.sessionStart, .sessionEnd] := by
      simpa using hlog
    rw [hover]
    refine ⟨rfl, rfl, rfl, rfl, hlog', greetedOnce_sessionChan .., ?_⟩
    intro o' d' inputs' hchan hinputs
    obtain ⟨ctl', log', hover', _⟩ := sessionRun_refused cfg o' d' inputs'
      (by rw [hinputs]; exact hnot)
    rw [hover', hchan, hinputs]
  · intro hnot d l sel plan
    refine ⟨?_, greetedOnce_ctlOver cfg l.jobid plan _ hnot, ?_⟩
    · intro hok
      have hopen : ctlSession cfg plan = (true, (ctlSession cfg plan).2) := by
        rw [← hok]
      rw [hopen]
      exact servedOnly_ctlOver cfg d l sel _ inputs
    · intro busy
      cases hok : (ctlSession cfg plan).1 with
      | false =>
          have hopen : ctlSession cfg plan = (false, (ctlSession cfg plan).2) := by
            rw [← hok]
          rw [hopen]
          simp [ctlOver]
      | true =>
          have hopen : ctlSession cfg plan =
              (true, ⟨false, [], (ctlSession cfg plan).2.chan⟩) := by
            rw [← hok]
            rfl
          rw [hopen, ctlOver_refused cfg busy _ _ _ hnot,
            ctlOver_refused cfg l.jobid _ _ _ hnot]

/-- A peer that asks for a command first, and then for the state. -/
def unasked : List Input := (ascii "RUN x" ++ lf :: ascii "STAT" ++ [lf]).map fun b => (some b, {})

def unheard : Daemon := Daemon.init smallCfg [] (ascii "/") fun _ => none

/-- Neither is answered beyond the refusal, whether the daemon is free or busy
with a job. -/
theorem preAuth_silent_run :
    (sessionOver smallCfg (sessionRun smallCfg {} unheard) unasked).res = unheard.res ∧
      (sessionOver smallCfg (sessionRun smallCfg {} unheard) unasked).files = unheard.files ∧
      GreetedOnce smallCfg unheard.chan
        (sessionOver smallCfg (sessionRun smallCfg {} unheard) unasked).chan ∧
      (ctlOver smallCfg 7 (ctlSession smallCfg []) (unasked.map Prod.fst)).2.chan =
        (ctlOver smallCfg 1 (ctlSession smallCfg []) (unasked.map Prod.fst)).2.chan := by
  have hfirst : firstLine [] (unasked.map Prod.fst) = some (ascii "RUN x") := by
    decide +kernel
  have hsession : NoAuth smallCfg (sessionText smallCfg) [] (unasked.map Prod.fst) := by
    intro line hline
    rw [hfirst, Option.some.injEq] at hline
    rw [← hline]
    decide
  have hcontrol : NoAuth smallCfg cstr [] (unasked.map Prod.fst) := by
    intro line hline
    rw [hfirst, Option.some.injEq] at hline
    rw [← hline]
    decide
  obtain ⟨hres, -, -, hfiles, -, hgreeted, -⟩ :=
    (preAuth_silent smallCfg unasked).1 hsession {} unheard
  obtain ⟨-, -, hbusy⟩ :=
    (preAuth_silent smallCfg unasked).2 hcontrol unheard
      (Live.start .job [] 1 ⟨[], [], .exited 0, [], []⟩) {} []
  exact ⟨hres, hfiles, hgreeted, hbusy 7⟩

end GrandCross
