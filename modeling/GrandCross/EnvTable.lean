import GrandCross.LastWrite
import GrandCross.ServiceRefine

/-!
# The environment of a session

The table that ENV lines fill.  Its history is the list of the lines that
were answered `OK` since the session began; the table holds the last of them
for every name, and it is the environment of every command that the session
starts.
-/

namespace GrandCross

open CText

/-! ## One ENV line -/

/-- What an ENV line is answered, and the table behind it. -/
def envAnswer (max : ℕ) (env : List EnvEntry) (arg : Option Bytes) :
    Bytes × List EnvEntry :=
  match arg.map (cutAt 61) with
  | some (name, some val) =>
      if envNameOk name && name.length < envnMax && val.length < envvMax then
        match envSet max env name val with
        | none => (ascii "ERR 431 too many env", env)
        | some env' => (ascii "OK", env')
      else (ascii "ERR 431 env too long", env)
  | _ => (ascii "ERR 400 bad env", env)

theorem doEnv_eq
    (cfg : Cfg) (o : Answers) (d : Daemon) (env : List EnvEntry)
    (arg : Option Bytes) :
    doEnv cfg o d env arg =
      reply cfg o d (envAnswer cfg.build.envMax env arg).2
        (envAnswer cfg.build.envMax env arg).1 := by
  unfold doEnv envAnswer
  rcases arg.map (cutAt 61) with _ | ⟨name, _ | val⟩
  · rfl
  · rfl
  · dsimp only
    split_ifs
    · cases envSet cfg.build.envMax env name val <;> rfl
    · rfl

/-- The entry of a line that is answered `OK`. -/
def acceptedEntry (max : ℕ) (env : List EnvEntry) (arg : Option Bytes) :
    Option EnvEntry :=
  match arg.map (cutAt 61) with
  | some (name, some val) =>
      if (envAnswer max env arg).1 = ascii "OK" then some ⟨name, val⟩ else none
  | _ => none

/-- `[A-Za-z_][A-Za-z0-9_]*`. -/
def EnvName (name : Bytes) : Prop :=
  ∃ b rest, name = b :: rest ∧ isAlphaUnderscore b = true ∧
    ∀ c ∈ rest, isAlphaUnderscore c = true ∨ isDigit c = true

theorem envNameOk_iff (name : Bytes) : envNameOk name = true ↔ EnvName name := by
  cases name with
  | nil => simp [envNameOk, EnvName]
  | cons b rest => simp [envNameOk, EnvName]

theorem envSet_eq (max : ℕ) (env : List EnvEntry) (name val : Bytes) :
    envSet max env name val =
      if name ∉ env.map EnvEntry.name ∧ max ≤ env.length then none
      else some (writeEntry EnvEntry.name env ⟨name, val⟩) := by
  have hfind : (env.findIdx fun e => e.name = name) = env.length ↔
      name ∉ env.map EnvEntry.name :=
    @findIdx_key_eq_length _ _ _ EnvEntry.name env ⟨name, val⟩
  unfold envSet writeEntry
  dsimp only
  split_ifs <;> simp_all

/-- What holds of a line that is accepted. -/
structure Accepted (max : ℕ) (env : List EnvEntry) (arg : Option Bytes)
    (e : EnvEntry) : Prop where
  split : arg.map (cutAt 61) = some (e.name, some e.val)
  name : EnvName e.name
  short : e.name.length < envnMax ∧ e.val.length < envvMax
  room : e.name ∈ env.map EnvEntry.name ∨ env.length < max

theorem envAnswer_of_accepted
    {max : ℕ} {env : List EnvEntry} {arg : Option Bytes} {e : EnvEntry}
    (h : Accepted max env arg e) :
    envAnswer max env arg = (ascii "OK", writeEntry EnvEntry.name env e) ∧
      acceptedEntry max env arg = some e := by
  have hok : (envNameOk e.name && decide (e.name.length < envnMax) &&
      decide (e.val.length < envvMax)) = true := by
    simp [(envNameOk_iff e.name).mpr h.name, h.short.1, h.short.2]
  have hroom : ¬(e.name ∉ env.map EnvEntry.name ∧ max ≤ env.length) := by
    rcases h.room with hknown | hspace
    · exact fun hfull => hfull.1 hknown
    · omega
  have hanswer : envAnswer max env arg =
      (ascii "OK", writeEntry EnvEntry.name env e) := by
    unfold envAnswer
    rw [h.split]
    dsimp only
    rw [if_pos hok, envSet_eq, if_neg hroom]
  refine ⟨hanswer, ?_⟩
  unfold acceptedEntry
  rw [h.split]
  dsimp only
  rw [hanswer, if_pos rfl]

theorem acceptedEntry_rejected
    {max : ℕ} {env : List EnvEntry} {arg : Option Bytes}
    (h : (envAnswer max env arg).1 ≠ ascii "OK") :
    acceptedEntry max env arg = none := by
  unfold acceptedEntry
  split
  · exact if_neg h
  · rfl

/-- Every line is accepted, or it is answered by an error and the table stays
as it is. -/
theorem accepted_or_rejected
    (max : ℕ) (env : List EnvEntry) (arg : Option Bytes) :
    (∃ e, Accepted max env arg e) ∨
      ∃ msg, msg ≠ ascii "OK" ∧ envAnswer max env arg = (msg, env) := by
  unfold envAnswer
  rcases hsplit : arg.map (cutAt 61) with _ | ⟨name, _ | val⟩
  · exact .inr ⟨_, by decide, rfl⟩
  · exact .inr ⟨_, by decide, rfl⟩
  · dsimp only
    split_ifs with hok
    · rw [envSet_eq]
      split_ifs with hfull
      · exact .inr ⟨_, by decide, rfl⟩
      · simp only [Bool.and_eq_true, decide_eq_true_eq] at hok
        refine .inl ⟨⟨name, val⟩, hsplit, (envNameOk_iff name).mp hok.1.1,
          ⟨hok.1.2, hok.2⟩, ?_⟩
        by_contra hno
        push Not at hno
        exact hfull hno
    · exact .inr ⟨_, by decide, rfl⟩

/-! ## The table behind a history -/

structure EnvTable (max : ℕ) (history env : List EnvEntry) : Prop where
  writes : LastWrites EnvEntry.name history env
  names : ∀ e ∈ env, EnvName e.name ∧ e.name.length < envnMax
  room : env.length ≤ max

theorem envTable_nil (max : ℕ) : EnvTable max [] [] :=
  ⟨lastWrites_nil _, by simp, Nat.zero_le max⟩

/-- An ENV line writes its entry when it is accepted, and nothing
otherwise. -/
theorem EnvTable.answer
    {max : ℕ} {history env : List EnvEntry} (h : EnvTable max history env)
    (arg : Option Bytes) :
    EnvTable max (history ++ (acceptedEntry max env arg).toList)
      (envAnswer max env arg).2 := by
  rcases accepted_or_rejected max env arg with
    ⟨e, haccepted⟩ | ⟨msg, hmsg, hanswer⟩
  · obtain ⟨hanswer, hentry⟩ := envAnswer_of_accepted haccepted
    rw [hanswer, hentry]
    refine ⟨h.writes.write e, ?_, ?_⟩
    · intro e' hmem
      rcases mem_writeEntry hmem with hold | rfl
      · exact h.names e' hold
      · exact ⟨haccepted.name, haccepted.short.1⟩
    · rw [length_writeEntry]
      have hold := h.room
      split_ifs with hknown
      · omega
      · have hspace := haccepted.room.resolve_left hknown
        omega
  · rw [acceptedEntry_rejected (by rwa [hanswer]), hanswer]
    simpa using h

/-! ## What a session starts -/

/-- The table of a supervised command: none while a job runs. -/
def Live.table (l : Live) : Option (List EnvEntry) :=
  if l.mode = .job then none else some l.env

/-- The table of a session, wherever it waits. -/
def Ctl.table : Ctl → Option (List EnvEntry)
  | .session _ env _ => some env
  | .putHdr env _ _ => some env
  | .putData env _ _ _ => some env
  | .live l => l.table
  | .liveLine l _ _ => l.table
  | .liveData l _ _ _ => l.table
  | .liveCtl l _ _ => l.table
  | .accept => none
  | .hello _ => none
  | .down => none

/-- The environment that a command is given. -/
def Obs.env : Obs → Option (List EnvEntry)
  | .run _ _ env => some env
  | .runa _ _ env => some env
  | .jobStart _ _ env => some env
  | _ => none

/-- Within a session with the table `env`. -/
def Obs.Within (env : List EnvEntry) (o : Obs) : Prop :=
  o ≠ .sessionStart ∧ ∀ e, o.env = some e → e = env

/-- The log of a session with the table `env`, from `d₀` on. -/
def Grown (env : List EnvEntry) (d₀ d : Daemon) : Prop :=
  ∃ rest, d.log = d₀.log ++ rest ∧ ∀ o ∈ rest, o.Within env

/-- A session with the table `env` is handling an event. -/
structure Stays (env : List EnvEntry) (d₀ d : Daemon) : Prop where
  grown : Grown env d₀ d
  job : d.job.pending = true → d.job.env = env

/-- The daemon waits again, with the table `env'` if the session goes on. -/
structure EnvStays (env env' : List EnvEntry) (d₀ d : Daemon) : Prop where
  grown : Grown env d₀ d
  table : ∀ e, d.ctl.table = some e → e = env'

section Handlers

variable {cfg : Cfg} {env env' : List EnvEntry} {d₀ d : Daemon}

theorem Grown.refl (env : List EnvEntry) (d : Daemon) : Grown env d d :=
  ⟨[], by simp, by simp⟩

theorem Grown.op
    (h : Grown env d₀ d) {d' : Daemon} {o : Obs} (hlog : d'.log = d.log ++ [o])
    (ho : o.Within env) : Grown env d₀ d' := by
  obtain ⟨rest, hrest, hwithin⟩ := h
  refine ⟨rest ++ [o], by rw [hlog, hrest, List.append_assoc], ?_⟩
  intro o' hmem
  rcases List.mem_append.mp hmem with hold | hnew
  · exact hwithin o' hold
  · rwa [List.mem_singleton.mp hnew]

theorem Grown.same
    (h : Grown env d₀ d) {d' : Daemon} (hlog : d'.log = d.log) :
    Grown env d₀ d' := by
  unfold Grown
  rwa [hlog]

theorem within_of_env_none
    {o : Obs} (hstart : o ≠ .sessionStart) (henv : o.env = none) :
    o.Within env :=
  ⟨hstart, by simp [henv]⟩

theorem Stays.refl (h : d.job.pending = false) : Stays env d d :=
  ⟨.refl env d, by simp [h]⟩

theorem Stays.op
    (h : Stays env d₀ d) {d' : Daemon} {o : Obs} (hlog : d'.log = d.log ++ [o])
    (hstart : o ≠ .sessionStart) (henv : o.env = none) (hjob : d'.job = d.job) :
    Stays env d₀ d' :=
  ⟨h.grown.op hlog (within_of_env_none hstart henv), hjob ▸ h.job⟩

theorem Stays.same
    (h : Stays env d₀ d) {d' : Daemon} (hlog : d'.log = d.log)
    (hjob : d'.job = d.job) : Stays env d₀ d' :=
  ⟨h.grown.same hlog, hjob ▸ h.job⟩

theorem Stays.chan (h : Stays env d₀ d) (c : Chan) :
    Stays env d₀ { d with chan := c } :=
  h.same rfl rfl

theorem Stays.unlink (h : Stays env d₀ d) (path : Bytes) :
    Stays env d₀ (unlink cfg d path) :=
  h.op rfl (by simp) rfl rfl

theorem Stays.fopen (h : Stays env d₀ d) (path : Bytes) :
    Stays env d₀ (d.note (.fopen path)) :=
  h.op rfl (by simp) rfl rfl

theorem Grown.openTrunc
    (h : Grown env d₀ d) (cfg : Cfg) (ok : Bool) (path : Bytes) :
    Grown env d₀ (openTrunc cfg d ok path) := by
  cases ok with
  | false => exact h
  | true => exact h.op rfl (within_of_env_none (by simp) rfl)

theorem Stays.acceptRun (h : Stays env d₀ d) (mode : LiveMode) (cmd : Bytes) :
    Stays env d₀ (acceptRun d mode cmd env) :=
  ⟨h.grown.op rfl ⟨by simp, by simp [Obs.env]⟩, h.job⟩

/-- The daemon goes on waiting in the session. -/
theorem Stays.wait (h : Stays env d₀ d) {c : Ctl} (hc : c.table = some env') :
    EnvStays env env' d₀ { d with ctl := c } := by
  refine ⟨h.grown, ?_⟩
  intro e he
  rw [hc, Option.some.injEq] at he
  exact he.symm

theorem keeps_of_table_none (h : Grown env d₀ d) (hnone : d.ctl.table = none) :
    EnvStays env env' d₀ d :=
  ⟨h, by simp [hnone]⟩

@[simp] theorem idleCtl_table (cfg : Cfg) : (idleCtl cfg).table = none := by
  unfold idleCtl
  split <;> rfl

theorem Grown.keeps_jobFinish
    (h : Grown env d₀ d) (jobid : ℕ) (result : Option Captured) :
    EnvStays env env' d₀ (jobFinish cfg d jobid result) := by
  cases result with
  | none =>
      exact keeps_of_table_none (h.op rfl (within_of_env_none (by simp) rfl))
        (idleCtl_table cfg)
  | some r =>
      exact keeps_of_table_none (h.op rfl (within_of_env_none (by simp) rfl))
        (idleCtl_table cfg)

theorem Grown.keeps_liveExecJob
    (h : Grown env d₀ d) (o : Answers) (job : Job) :
    EnvStays env env' d₀ (liveExecJob cfg o d job) := by
  have herr := (h.openTrunc cfg o.openOut cfg.rof).openTrunc cfg o.openErr cfg.ref
  unfold liveExecJob
  split
  · exact h.keeps_jobFinish _ none
  · dsimp only
    split_ifs
    · split
      · exact herr.keeps_jobFinish _ none
      · exact keeps_of_table_none herr rfl
    · exact herr.keeps_jobFinish _ none

/-- A job that the session has submitted starts with the table of the
session. -/
theorem Stays.keeps_sessionReturn (h : Stays env d₀ d) (o : Answers) :
    EnvStays env env' d₀ (sessionReturn cfg o d) := by
  have hend : Grown env d₀ (d.note .sessionEnd) :=
    h.grown.op rfl (within_of_env_none (by simp) rfl)
  have hstart (hpending : d.job.pending = true) : Grown env d₀
      { d.note .sessionEnd with
        job := { d.job with pending := false }
        log := (d.note .sessionEnd).log ++
          [.jobStart d.job.jobid d.job.cmd d.job.env] } :=
    hend.op rfl ⟨by simp, by simpa [Obs.env] using h.job hpending⟩
  unfold sessionReturn runPending
  split_ifs with hpending hlive
  · exact (hstart hpending).keeps_liveExecJob o d.job
  · split
    · exact (hstart hpending).keeps_jobFinish _ none
    · exact (hstart hpending).keeps_jobFinish _ _
  · exact keeps_of_table_none hend (idleCtl_table cfg)

theorem Stays.keeps_reply (h : Stays env d₀ d) (o : Answers) (msg : Bytes) :
    EnvStays env env' d₀ (reply cfg o d env' msg) := by
  have hchan := h.chan (lioPutLine d.chan msg).2
  unfold reply
  split_ifs
  · exact hchan.wait rfl
  · exact hchan.keeps_sessionReturn o

theorem Stays.keeps_replyCapture
    (h : Stays env d₀ d) (o : Answers) (sent : Bool × Chan) (code : ℕ) :
    EnvStays env env d₀ (replyCapture cfg o d env sent code) := by
  unfold replyCapture
  split_ifs
  · exact (h.chan sent.2).keeps_reply o _
  · exact (h.chan sent.2).keeps_sessionReturn o

theorem Stays.keeps_runBlocking (h : Stays env d₀ d) (o : Answers) :
    EnvStays env env d₀ (runBlocking cfg o d env) := by
  unfold runBlocking
  split
  · exact ((h.unlink cfg.outf).unlink cfg.errf).keeps_reply o _
  · next child _ =>
      have hran : Stays env d₀
          { d with
            files := captureFiles cfg d.cwd d.files cfg.outf cfg.errf child.order child.out
              child.err } :=
        h.same rfl rfl
      exact ((hran.unlink cfg.outf).unlink cfg.errf).keeps_replyCapture o _ _

theorem Stays.keeps_liveExec
    (h : Stays env d₀ d) (o : Answers) {mode : LiveMode} (hmode : mode ≠ .job)
    (cmd : Bytes) : EnvStays env env d₀ (liveExec cfg o d mode env cmd) := by
  unfold liveExec
  split
  · exact h.keeps_reply o _
  · split
    · exact h.keeps_reply o _
    · exact h.wait (if_neg hmode)

/-! ## The commands -/

theorem Stays.keeps_doRun
    (h : Stays env d₀ d) (o : Answers) (arg : Option Bytes) :
    EnvStays env env d₀ (doRun cfg o d env arg) := by
  cases arg with
  | none => exact h.keeps_reply o _
  | some cmd =>
      have hrun := h.acceptRun .run cmd
      simp only [doRun]
      split_ifs
      · exact hrun.keeps_liveExec o (by decide) cmd
      · exact hrun.keeps_runBlocking o

theorem Stays.keeps_doRuni
    (h : Stays env d₀ d) (o : Answers) (arg : Option Bytes) :
    EnvStays env env d₀ (doRuni cfg o d env arg) := by
  unfold doRuni
  split_ifs
  · cases arg with
    | none => exact h.keeps_reply o _
    | some cmd => exact (h.acceptRun .runi cmd).keeps_liveExec o (by decide) cmd
  · exact h.keeps_reply o _

theorem Stays.keeps_doRuna
    (h : Stays env d₀ d) (o : Answers) (arg : Option Bytes) :
    EnvStays env env d₀ (doRuna cfg o d env arg) := by
  cases arg with
  | none => exact h.keeps_reply o _
  | some cmd =>
      have hruna : Stays env d₀ (acceptRuna d cmd env) :=
        ⟨h.grown.op rfl ⟨by simp, by simp [Obs.env]⟩, fun _ => rfl⟩
      exact (hruna.chan _).keeps_sessionReturn o

theorem Stays.keeps_doResult
    (h : Stays env d₀ d) (o : Answers) (arg : Option Bytes) :
    EnvStays env env d₀ (doResult cfg o d env arg) := by
  unfold doResult
  split_ifs
  · exact h.keeps_reply o _
  · exact ((h.fopen cfg.rof).fopen cfg.ref).keeps_replyCapture o _ _

theorem Stays.keeps_doCwd
    (h : Stays env d₀ d) (o : Answers) (arg : Option Bytes) :
    EnvStays env env d₀ (doCwd cfg o d env arg) := by
  unfold doCwd
  split
  · next path dir _ =>
      have hchdir : Stays env d₀
          { d with cwd := dir, log := d.log ++ [.chdir path dir] } :=
        h.op rfl (by simp) rfl rfl
      exact hchdir.keeps_reply o _
  · exact h.keeps_reply o _

theorem Stays.keeps_doPut
    (h : Stays env d₀ d) (o : Answers) (path : Option Bytes) :
    EnvStays env env d₀ (doPut cfg o d env path) := by
  unfold doPut
  split
  · exact h.keeps_reply o _
  · exact h.keeps_reply o _
  · next b p =>
      have hopen : Stays env d₀ (openTrunc cfg d true (b :: p)) :=
        h.op rfl (by simp) rfl rfl
      dsimp only
      split_ifs
      · exact (hopen.chan _).wait rfl
      · exact (hopen.chan _).keeps_sessionReturn o
      · exact h.keeps_reply o _

theorem Stays.keeps_doGet
    (h : Stays env d₀ d) (o : Answers) (path : Option Bytes) :
    EnvStays env env d₀ (doGet cfg o d env path) := by
  unfold doGet
  split
  · exact h.keeps_reply o _
  · exact h.keeps_reply o _
  · next b p =>
      split
      · exact h.keeps_reply o _
      · have hopen := h.fopen (b :: p)
        dsimp only
        split_ifs
        · exact (hopen.chan _).keeps_reply o _
        · exact (hopen.chan _).keeps_sessionReturn o
        · exact (hopen.chan _).keeps_sessionReturn o

/-- Only an ENV line changes the table. -/
theorem Stays.keeps_sessionCmd
    (h : Stays env d₀ d) (o : Answers) (verb : Verb) (arg : Option Bytes) :
    EnvStays env (if verb = .env then (envAnswer cfg.build.envMax env arg).2 else env)
      d₀ (sessionCmd cfg o d env verb arg) := by
  cases verb with
  | ping => exact h.keeps_reply o _
  | stat => exact h.keeps_reply o _
  | cwd => exact h.keeps_doCwd o arg
  | env =>
      simp only [sessionCmd, doEnv_eq]
      exact h.keeps_reply o _
  | run => exact h.keeps_doRun o arg
  | runa => exact h.keeps_doRuna o arg
  | result => exact h.keeps_doResult o arg
  | runi => exact h.keeps_doRuni o arg
  | put => exact h.keeps_doPut o arg
  | get => exact h.keeps_doGet o arg
  | quit => exact (h.chan _).keeps_sessionReturn o
  | unknown => exact h.keeps_reply o _

/-! ## Transfers and supervised commands -/

theorem Stays.keeps_putAbort
    (h : Stays env d₀ d) (o : Answers) (put : Put) (msg : Option Bytes) :
    EnvStays env env d₀ (putAbort cfg o d put msg) := by
  have hgone : Stays env d₀ (GrandCross.unlink cfg d put.path) := h.unlink put.path
  cases msg with
  | none => exact hgone.keeps_sessionReturn o
  | some m => exact (hgone.chan _).keeps_sessionReturn o

theorem Stays.keeps_doPutHeader
    (h : Stays env d₀ d) (o : Answers) (put : Put) (line : Bytes) :
    EnvStays env env d₀ (doPutHeader cfg o d env put line) := by
  unfold doPutHeader
  split
  · dsimp only
    split_ifs
    · exact h.keeps_reply o _
    · exact (h.unlink put.path).keeps_reply o _
    · exact h.keeps_putAbort o put _
    · exact h.wait rfl
  · exact h.keeps_putAbort o put _

theorem Stays.keeps_doPutData
    (h : Stays env d₀ d) (o : Answers) (put : Put) (data : Bytes) :
    EnvStays env env d₀ (doPutData cfg o d env put data) := by
  unfold doPutData
  split_ifs
  · exact (h.unlink put.path).keeps_reply o _
  · have happend : Stays env d₀
        { d with
          files := Function.update d.files (cfg.resolve d.cwd put.path)
            (some ((d.files (cfg.resolve d.cwd put.path)).getD [] ++ data))
          log := d.log ++ [.append put.path data] } :=
      h.op rfl (by simp) rfl rfl
    exact happend.wait rfl
  · exact (h.unlink put.path).keeps_reply o _

theorem Live.Same.table {l l' : Live} (h : l.Same l') : l'.table = l.table := by
  simp only [Live.table, h.mode, h.env]

theorem Live.table_run {l : Live} (hmode : l.mode ≠ .job) : l.table = some l.env :=
  if_neg hmode

/-- The daemon waits in the supervision loop of `l`. -/
theorem Stays.watch
    (h : Stays env d₀ d) {l : Live} (hl : l.table ∈ [none, some env]) {c : Ctl}
    (hc : c.table = l.table) : EnvStays env env d₀ { d with ctl := c } := by
  refine ⟨h.grown, ?_⟩
  intro e he
  rw [hc] at he
  simp only [List.mem_cons, List.not_mem_nil, or_false, he, reduceCtorEq, false_or,
    Option.some.injEq] at hl
  exact hl

theorem Pumped.stays
    {l : Live} {r : Daemon × Live} (hr : Pumped d l r) (h : Stays env d₀ d) :
    Stays env d₀ r.1 := by
  rw [hr.daemon]
  exact h.chan _

theorem Stays.keeps_liveReturn
    (h : Stays env d₀ d) {l : Live} (hl : l.table ∈ [none, some env])
    (o : Answers) : EnvStays env env d₀ (liveReturn cfg o d l) := by
  unfold liveReturn
  split
  · exact h.grown.keeps_jobFinish _ _
  · next hmode =>
      rw [Live.table_run hmode] at hl
      have henv : l.env = env := by simpa using hl
      rw [henv]
      exact (h.chan _).keeps_reply o _

theorem Stays.keeps_liveTail
    (h : Stays env d₀ d) {l : Live} (hl : l.table ∈ [none, some env])
    (o : Answers) (sel : Sel) : EnvStays env env d₀ (liveTail cfg o d l sel) := by
  rw [← (same_liveWatch cfg l sel).table] at hl
  unfold liveTail
  dsimp only
  split_ifs
  · exact h.keeps_liveReturn hl o
  · exact h.watch hl rfl
  · exact h.keeps_liveReturn hl o
  · exact h.watch hl rfl

theorem Stays.keeps_livePass
    (h : Stays env d₀ d) {l : Live} (hl : l.table ∈ [none, some env])
    (o : Answers) (sel : Sel) : EnvStays env env d₀ (livePass cfg o d l sel) := by
  have hout := pumped_pumpReady cfg d l .out sel.out
  have herr := hout.trans (pumped_pumpReady cfg _ _ .err sel.err)
  have hcap := herr.trans (pumped_liveCap cfg _ _)
  have htable := hl
  rw [← hcap.same.table] at htable
  unfold livePass
  dsimp only
  split_ifs
  · exact h.keeps_liveTail hl o sel
  · split
    · exact (hcap.stays h).watch htable rfl
    · exact (hcap.stays h).keeps_sessionReturn o
  · exact (hcap.stays h).keeps_liveTail htable o sel
  · exact (herr.stays h).keeps_sessionReturn o
  · exact (hout.stays h).keeps_sessionReturn o

theorem Stays.keeps_liveSelect
    (h : Stays env d₀ d) {l : Live} (hl : l.table ∈ [none, some env])
    (o : Answers) (sel : Sel) : EnvStays env env d₀ (liveSelect cfg o d l sel) := by
  unfold liveSelect
  split
  · split_ifs
    · exact h.watch hl rfl
    · exact h.keeps_livePass hl o sel
    · exact h.keeps_livePass hl o sel
  · exact h.keeps_livePass hl o sel

theorem Stays.keeps_runiFrame
    (h : Stays env d₀ d) {l : Live} (hl : l.table ∈ [none, some env])
    (o : Answers) (sel : Sel) (line : Bytes) :
    EnvStays env env d₀ (runiFrame cfg o d l sel line) := by
  unfold runiFrame
  split
  · rw [← (same_killChild l).table] at hl
    exact h.keeps_liveTail hl o sel
  · dsimp only
    split_ifs
    · exact h.keeps_sessionReturn o
    · exact Stays.keeps_liveTail (l := { l with inp := none }) h hl o sel
    · exact h.watch hl rfl
  · exact h.keeps_sessionReturn o

/-! ## Steps -/

/-- The ENV line that the event completes: the table it meets and its
argument. -/
def Daemon.envLine (cfg : Cfg) (d : Daemon) (ev : Ev) :
    Option (List EnvEntry × Option Bytes) :=
  match d.ctl, ev with
  | .session true env buf, .rx b _ =>
      let line := cutAt sp (sessionText cfg buf)
      if b = lf ∧ verbOf line.1 = .env then some (env, line.2) else none
  | _, _ => none

/-- The table behind the event, where `env` is the one before it. -/
def Daemon.tableBehind (cfg : Cfg) (d : Daemon) (ev : Ev) (env : List EnvEntry) :
    List EnvEntry :=
  match d.envLine cfg ev with
  | some (env, arg) => (envAnswer cfg.build.envMax env arg).2
  | none => env

theorem Stays.keeps_sessionLine
    (h : Stays env d₀ d) (o : Answers) (authed : Bool) (buf : Bytes) :
    EnvStays env
      (if authed = true ∧ verbOf (cutAt sp (sessionText cfg buf)).1 = .env then
        (envAnswer cfg.build.envMax env (cutAt sp (sessionText cfg buf)).2).2
      else env)
      d₀ (sessionLine cfg o d authed env buf) := by
  cases authed with
  | true =>
      simp only [sessionLine, if_true, true_and]
      exact h.keeps_sessionCmd o _ _
  | false =>
      simp only [sessionLine, Bool.false_eq_true, if_false, false_and]
      split_ifs
      · have hauth : Stays env d₀
            { d with
              chan := (handleAuth cfg d.chan (cutAt sp (sessionText cfg buf)).1
                (cutAt sp (sessionText cfg buf)).2).2
              log := d.log ++ [.auth] } :=
          h.op rfl (by simp) rfl rfl
        exact hauth.wait rfl
      · exact (h.chan _).keeps_sessionReturn o

theorem Stays.keeps_rx_session
    (h : Stays env d₀ d) (o : Answers) {authed : Bool} {buf : Bytes}
    (hctl : d.ctl = .session authed env buf) (b : Byte) :
    EnvStays env (d.tableBehind cfg (.rx b o) env) d₀ (rx cfg o d b) := by
  simp only [rx, hctl]
  split
  · next buf' hmore =>
      have hlf : b ≠ lf := by
        rintro rfl
        rw [lioGetByte_lf] at hmore
        cases hmore
      have hline : d.tableBehind cfg (.rx b o) env = env := by
        unfold Daemon.tableBehind Daemon.envLine
        rw [hctl]
        cases authed <;> simp [hlf]
      rw [hline]
      exact h.wait rfl
  · next line hok =>
      obtain rfl := lioGetByte_ok_eq hok
      obtain rfl := lioGetByte_ok_lf hok
      have hline : d.tableBehind cfg (.rx lf o) env =
          if authed = true ∧ verbOf (cutAt sp (sessionText cfg line)).1 = .env then
            (envAnswer cfg.build.envMax env (cutAt sp (sessionText cfg line)).2).2
          else env := by
        unfold Daemon.tableBehind Daemon.envLine
        rw [hctl]
        cases authed
        · simp
        · dsimp only
          split_ifs <;> simp_all
      rw [hline]
      exact h.keeps_sessionLine o authed line
  · refine Stays.keeps_sessionReturn ?_ o
    exact h.same rfl rfl

theorem envLine_none
    (hctl : ∀ env buf, d.ctl ≠ .session true env buf) (ev : Ev) :
    d.envLine cfg ev = none := by
  unfold Daemon.envLine
  split
  · next hsession => exact absurd hsession (hctl _ _)
  · rfl

theorem tableBehind_of_not_session
    (hctl : ∀ env buf, d.ctl ≠ .session true env buf) (ev : Ev) :
    d.tableBehind cfg ev env = env := by
  simp [Daemon.tableBehind, envLine_none hctl]

theorem Stays.keeps_rx
    (h : Stays env d₀ d) (hbusy : d.ctl.phase ≠ .idle)
    (htable : d.ctl.table ∈ [none, some env]) (o : Answers) (b : Byte) :
    EnvStays env (d.tableBehind cfg (.rx b o) env) d₀ (rx cfg o d b) := by
  by_cases hsession : ∃ authed env' buf, d.ctl = .session authed env' buf
  · obtain ⟨authed, env', buf, hctl⟩ := hsession
    obtain rfl : env' = env := by simpa [hctl, Ctl.table] using htable
    exact h.keeps_rx_session o hctl b
  · rw [tableBehind_of_not_session fun env' buf hctl =>
      hsession ⟨true, env', buf, hctl⟩]
    unfold rx
    split
    · next hctl => exact absurd (by rw [hctl]; rfl) hbusy
    · next hctl => exact absurd (by rw [hctl]; rfl) hbusy
    · next hctl => exact absurd ⟨_, _, _, hctl⟩ hsession
    · next env' put buf hctl =>
        obtain rfl : env' = env := by simpa [hctl, Ctl.table] using htable
        split
        · exact h.wait rfl
        · exact h.keeps_doPutHeader o put _
        · exact h.keeps_putAbort o put none
    · next env' put len buf hctl =>
        obtain rfl : env' = env := by simpa [hctl, Ctl.table] using htable
        split_ifs
        · exact h.wait rfl
        · exact h.keeps_doPutData o put _
    · next l hctl =>
        rw [hctl] at htable
        have := h.watch htable (c := d.ctl) (by rw [hctl]; rfl)
        exact this
    · next l sel buf hctl =>
        rw [hctl] at htable
        split
        · exact h.watch htable rfl
        · exact h.keeps_runiFrame htable o sel _
        · exact h.keeps_sessionReturn o
    · next l sel len buf hctl =>
        rw [hctl] at htable
        split_ifs
        · exact h.watch htable rfl
        · refine h.keeps_liveTail ?_ o sel
          rwa [(same_writeStdin l _).table]
    · next l sel cs hctl =>
        rw [hctl] at htable
        split_ifs
        · exact h.watch htable rfl
        · exact h.keeps_livePass htable o sel
    · next hctl => exact absurd (by rw [hctl]; rfl) hbusy

theorem Stays.keeps_hup
    (h : Stays env d₀ d) (hbusy : d.ctl.phase ≠ .idle)
    (htable : d.ctl.table ∈ [none, some env]) (o : Answers) :
    EnvStays env env d₀ (hup cfg o d) := by
  unfold hup
  split
  · next hctl => exact absurd (by rw [hctl]; rfl) hbusy
  · next hctl => exact absurd (by rw [hctl]; rfl) hbusy
  · exact h.keeps_sessionReturn o
  · exact h.keeps_putAbort o _ none
  · exact h.keeps_putAbort o _ none
  · next l hctl =>
      rw [hctl] at htable
      exact h.watch htable (c := d.ctl) (by rw [hctl]; rfl)
  · exact h.keeps_sessionReturn o
  · exact h.keeps_sessionReturn o
  · next l sel cs hctl =>
      rw [hctl] at htable
      exact h.keeps_livePass htable o sel
  · next hctl => exact absurd (by rw [hctl]; rfl) hbusy

/-- The daemon stays where it is. -/
theorem Stays.rest
    (h : Stays env d₀ d) (htable : d.ctl.table ∈ [none, some env]) :
    EnvStays env env d₀ d := by
  refine ⟨h.grown, ?_⟩
  intro e he
  rw [he] at htable
  simpa using htable

/-- One event outside the waits between sessions: no session starts, every
command gets the table, and only an ENV line changes it. -/
theorem keeps_step
    (hpending : d.job.pending = false) (hbusy : d.ctl.phase ≠ .idle)
    (htable : d.ctl.table ∈ [none, some env]) (ev : Ev) :
    EnvStays env (d.tableBehind cfg ev env) d (step cfg d ev) := by
  have h : Stays env d d := .refl hpending
  have hline : ∀ ev' : Ev, (∀ b o, ev' ≠ .rx b o) →
      d.tableBehind cfg ev' env = env := by
    intro ev' hnot
    have hnone : d.envLine cfg ev' = none := by
      unfold Daemon.envLine
      split
      · exact absurd rfl (hnot _ _)
      · rfl
    simp [Daemon.tableBehind, hnone]
  cases ev with
  | accept peer plan o =>
      rw [hline _ (by simp)]
      simp only [step]
      split
      · next hctl => exact absurd (by rw [hctl]; rfl) hbusy
      · exact h.rest htable
  | rx b o => exact h.keeps_rx hbusy htable o b
  | hup o =>
      rw [hline _ (by simp)]
      exact h.keeps_hup hbusy htable o
  | select sel o =>
      rw [hline _ (by simp)]
      simp only [step]
      split
      · next l hctl =>
          rw [hctl] at htable
          exact h.keeps_liveSelect htable o sel
      · exact h.rest htable

theorem keeps_sessionRun (o : Answers) :
    ∃ d₁ : Daemon, d₁.log = d.log ++ [.sessionStart] ∧
      ∀ env, EnvStays env [] d₁ (sessionRun cfg o d) := by
  refine ⟨{ d with
    job := { d.job with pending := false }
    log := d.log ++ [.sessionStart] }, rfl, ?_⟩
  intro env
  have h : Stays env
      { d with
        job := { d.job with pending := false }
        log := d.log ++ [.sessionStart] }
      { d with
        job := { d.job with pending := false }
        log := d.log ++ [.sessionStart] } := .refl rfl
  simp only [sessionRun]
  split_ifs
  · exact (h.chan _).wait rfl
  · exact (h.chan _).keeps_sessionReturn o

/-- Between sessions an event starts one with an empty table, or does
nothing. -/
theorem opens_step (hidle : d.ctl.phase = .idle) (ev : Ev) :
    (step cfg d ev).log = d.log ∧ (step cfg d ev).ctl.table = none ∨
      ∃ d₁ : Daemon, d₁.log = d.log ++ [.sessionStart] ∧
        ∀ env, EnvStays env [] d₁ (step cfg d ev) := by
  cases hctl : d.ctl with
  | accept =>
      cases ev with
      | accept peer plan o =>
          simp only [step, hctl]
          split_ifs
          · exact .inr (keeps_sessionRun
              (d := { d with ctl := .accept, chan := ⟨.tcp, ⟨plan, []⟩⟩ }) o)
          · exact .inl ⟨rfl, by rw [hctl]; rfl⟩
      | rx b o => exact .inl (by simp [step, rx, hctl, Ctl.table])
      | hup o => exact .inl (by simp [step, hup, hctl, Ctl.table])
      | select sel o => exact .inl (by simp [step, hctl, Ctl.table])
  | hello buf =>
      cases ev with
      | rx b o =>
          simp only [step, rx, hctl]
          split
          · exact .inl ⟨rfl, rfl⟩
          · split_ifs
            · exact .inr (keeps_sessionRun o)
            · exact .inl ⟨rfl, rfl⟩
          · exact .inl ⟨rfl, rfl⟩
      | accept peer plan o => exact .inl (by simp [step, hctl, Ctl.table])
      | hup o => exact .inl (by simp [step, hup, hctl, Ctl.table])
      | select sel o => exact .inl (by simp [step, hctl, Ctl.table])
  | down =>
      cases ev with
      | rx b o => exact .inl (by simp [step, rx, hctl, Ctl.table])
      | accept peer plan o => exact .inl (by simp [step, hctl, Ctl.table])
      | hup o => exact .inl (by simp [step, hup, hctl, Ctl.table])
      | select sel o => exact .inl (by simp [step, hctl, Ctl.table])
  | session authed env buf => simp [hctl, Ctl.phase] at hidle
  | putHdr env put buf => simp [hctl, Ctl.phase] at hidle
  | putData env put len buf => simp [hctl, Ctl.phase] at hidle
  | live l =>
      simp only [hctl, Ctl.phase, Live.phase] at hidle
      split_ifs at hidle
  | liveLine l sel buf =>
      simp only [hctl, Ctl.phase, Live.phase] at hidle
      split_ifs at hidle
  | liveData l sel len buf =>
      simp only [hctl, Ctl.phase, Live.phase] at hidle
      split_ifs at hidle
  | liveCtl l sel cs =>
      simp only [hctl, Ctl.phase, Live.phase] at hidle
      split_ifs at hidle

end Handlers

/-! ## Runs -/

/-- The history of the session's table behind the event: it is empty when a
session starts, and grows by the entry of an accepted line. -/
def historyStep (cfg : Cfg) (d : Daemon) (history : List EnvEntry) (ev : Ev) :
    List EnvEntry :=
  if ((step cfg d ev).log.drop d.log.length).contains .sessionStart then []
  else
    match d.envLine cfg ev with
    | some (env, arg) => history ++ (acceptedEntry cfg.build.envMax env arg).toList
    | none => history

/-- The ENV lines that were accepted since the latest session start. -/
def envHistory (cfg : Cfg) (d : Daemon) (history : List EnvEntry) :
    List Ev → List EnvEntry
  | [] => history
  | ev :: evs => envHistory cfg (step cfg d ev) (historyStep cfg d history ev) evs

/-- The table in effect, if there is one, is that of the history. -/
def Daemon.Tabled (cfg : Cfg) (d : Daemon) (history : List EnvEntry) : Prop :=
  ∀ env, d.ctl.table = some env → EnvTable cfg.build.envMax history env

section Runs

variable {cfg : Cfg} {d d' : Daemon} {history : List EnvEntry}

theorem Grown.fresh {env : List EnvEntry} (h : Grown env d d') :
    ∀ o ∈ d'.log.drop d.log.length, o.Within env := by
  obtain ⟨rest, hlog, hwithin⟩ := h
  rw [hlog, List.drop_left]
  exact hwithin

theorem Grown.no_start {env : List EnvEntry} (h : Grown env d d') :
    (d'.log.drop d.log.length).contains .sessionStart = false := by
  rw [List.contains_eq_mem, decide_eq_false_iff_not]
  exact fun hmem => (h.fresh _ hmem).1 rfl

/-- What is within every table starts no command. -/
theorem env_none_of_within
    {o : Obs} (h : ∀ env, o.Within env) : o.env = none := by
  by_contra hsome
  obtain ⟨e, he⟩ := Option.ne_none_iff_exists'.mp hsome
  have hnil := (h []).2 e he
  have hone := (h [⟨[], []⟩]).2 e he
  rw [hnil] at hone
  cases hone

theorem table_none_of_keeps
    (h : ∀ env, EnvStays env env d d') : d'.ctl.table = none := by
  by_contra hsome
  obtain ⟨e, he⟩ := Option.ne_none_iff_exists'.mp hsome
  have hnil := (h []).table e he
  have hone := (h [⟨[], []⟩]).table e he
  rw [hnil] at hone
  cases hone

theorem envLine_eq_some
    {ev : Ev} {env : List EnvEntry} {arg : Option Bytes}
    (h : d.envLine cfg ev = some (env, arg)) : d.ctl.table = some env := by
  unfold Daemon.envLine at h
  split at h
  · next env' buf b o hctl =>
      dsimp only at h
      split_ifs at h
      obtain ⟨rfl, -⟩ : env' = env ∧ _ := by simpa using h
      rw [hctl]
      rfl
  · cases h

/-- One event: the table goes on agreeing with the history, and every command
that starts is given the table of the history so far. -/
theorem Daemon.Tabled.step
    (h : d.Tabled cfg history) (hpending : d.job.pending = false) (ev : Ev) :
    (GrandCross.step cfg d ev).Tabled cfg (historyStep cfg d history ev) ∧
      ∀ o ∈ (GrandCross.step cfg d ev).log.drop d.log.length,
        ∀ env, o.env = some env → EnvTable cfg.build.envMax history env := by
  by_cases hidle : d.ctl.phase = .idle
  · rcases @opens_step cfg d hidle ev with ⟨hlog, hnone⟩ | ⟨d₁, hlog, hkeeps⟩
    · rw [hlog]
      simp [Daemon.Tabled, hnone]
    · have hfresh : (GrandCross.step cfg d ev).log.drop d.log.length =
          .sessionStart :: (GrandCross.step cfg d ev).log.drop d₁.log.length := by
        obtain ⟨rest, hrest, -⟩ := (hkeeps []).grown
        rw [hrest, List.drop_left, hlog, List.append_assoc, List.drop_left]
        rfl
      constructor
      · intro env henv
        have hstart : historyStep cfg d history ev = [] := by
          unfold historyStep
          rw [hfresh]
          simp
        rw [hstart, (hkeeps []).table env henv]
        exact envTable_nil _
      · intro o ho env henv
        rw [hfresh] at ho
        rcases List.mem_cons.mp ho with rfl | hmem
        · cases henv
        · have hsilent := env_none_of_within
            fun env => (hkeeps env).grown.fresh o hmem
          rw [hsilent] at henv
          cases henv
  · cases htable : d.ctl.table with
    | none =>
        -- a job is running: no session, no table
        have hbehind : ∀ env, d.tableBehind cfg ev env = env := fun env =>
          tableBehind_of_not_session (by
            intro env' buf hctl
            rw [hctl] at htable
            cases htable) ev
        have hkeeps : ∀ env, EnvStays env env d (GrandCross.step cfg d ev) := by
          intro env
          have hstep : EnvStays env (d.tableBehind cfg ev env) d
              (GrandCross.step cfg d ev) :=
            keeps_step hpending hidle (by simp [htable]) ev
          rwa [hbehind] at hstep
        constructor
        · simp [Daemon.Tabled, table_none_of_keeps hkeeps]
        · intro o ho env henv
          have hsilent := env_none_of_within fun env => (hkeeps env).grown.fresh o ho
          rw [hsilent] at henv
          cases henv
    | some env =>
        have hkeeps : EnvStays env (d.tableBehind cfg ev env) d
            (GrandCross.step cfg d ev) :=
          keeps_step hpending hidle (by simp [htable]) ev
        have henv := h env htable
        constructor
        · intro env' henv'
          rw [hkeeps.table env' henv']
          unfold historyStep Daemon.tableBehind
          rw [hkeeps.grown.no_start]
          cases hline : d.envLine cfg ev with
          | none => exact henv
          | some line =>
              obtain ⟨env'', arg⟩ := line
              have hsame := envLine_eq_some hline
              rw [htable, Option.some.injEq] at hsame
              subst hsame
              exact henv.answer arg
        · intro o ho env' henv'
          rw [(hkeeps.grown.fresh o ho).2 env' henv']
          exact henv

theorem Daemon.Tabled.run
    {s₀ : Origin} (h : d.Tabled cfg history) (hinv : Inv cfg s₀ d)
    (hids : ∀ jobid, s₀.ids jobid) (evs : List Ev) :
    (GrandCross.run cfg d evs).Tabled cfg (envHistory cfg d history evs) := by
  induction evs generalizing d history with
  | nil => exact h
  | cons ev evs ih =>
      have hnext := hinv.step ev fun _ => hids _
      exact ih (h.step hinv.inside.pending ev).1 hnext

/-- What an ENV line does that the event completes. -/
structure EnvLine (cfg : Cfg) (d : Daemon) (ev : Ev) (env : List EnvEntry)
    (arg : Option Bytes) : Prop where
  /-- The answer is all that the daemon sends, and the session goes on with the
  table behind it unless the answer is lost. -/
  answered : ∃ o, step cfg d ev =
    reply cfg o d (envAnswer cfg.build.envMax env arg).2
      (envAnswer cfg.build.envMax env arg).1
  table : (step cfg d ev).ctl.table =
    if (lioPutLine d.chan (envAnswer cfg.build.envMax env arg).1).1 then
      some (envAnswer cfg.build.envMax env arg).2
    else none
  rejected : (envAnswer cfg.build.envMax env arg).1 ≠ ascii "OK" →
    (envAnswer cfg.build.envMax env arg).2 = env
  /-- A known name is overwritten, however full the table is. -/
  known : ∀ e : EnvEntry, arg = some (e.name ++ 61 :: e.val) → EnvName e.name →
    e.name.length < envnMax → e.val.length < envvMax →
    e.name ∈ env.map EnvEntry.name →
    (envAnswer cfg.build.envMax env arg).1 = ascii "OK" ∧
      e ∈ (envAnswer cfg.build.envMax env arg).2 ∧
      (envAnswer cfg.build.envMax env arg).2.length = env.length

theorem reply_table
    (hpending : d.job.pending = false) (o : Answers) (env : List EnvEntry)
    (msg : Bytes) :
    (reply cfg o d env msg).ctl.table =
      if (lioPutLine d.chan msg).1 then some env else none := by
  unfold reply
  split_ifs
  · rfl
  · have hnot : (Daemon.note { d with chan := (lioPutLine d.chan msg).2 }
        .sessionEnd).job.pending = false := hpending
    unfold sessionReturn runPending
    rw [hnot]
    exact idleCtl_table cfg

theorem step_envLine
    {ev : Ev} {env : List EnvEntry} {arg : Option Bytes}
    (h : d.envLine cfg ev = some (env, arg)) :
    ∃ o, step cfg d ev = doEnv cfg o d env arg := by
  unfold Daemon.envLine at h
  split at h
  · next env' buf b o hctl =>
      dsimp only at h
      split_ifs at h with hline
      obtain ⟨rfl, rfl⟩ : env' = env ∧ _ = arg := by simpa using h
      refine ⟨o, ?_⟩
      simp only [step, rx, hctl, hline.1, lioGetByte_lf, sessionLine, if_true,
        hline.2, sessionCmd]
  · cases h

theorem envName_no_eq {name : Bytes} (h : EnvName name) : (61 : Byte) ∉ name := by
  obtain ⟨b, rest, rfl, hb, hrest⟩ := h
  intro hmem
  rcases List.mem_cons.mp hmem with rfl | hmem
  · revert hb
    decide
  · have := hrest 61 hmem
    revert this
    decide

theorem envLine_done
    (hpending : d.job.pending = false) {ev : Ev} {env : List EnvEntry}
    {arg : Option Bytes} (h : d.envLine cfg ev = some (env, arg)) :
    EnvLine cfg d ev env arg := by
  obtain ⟨o, hstep⟩ := step_envLine h
  rw [doEnv_eq] at hstep
  refine ⟨⟨o, hstep⟩, ?_, ?_, ?_⟩
  · rw [hstep]
    exact reply_table hpending o _ _
  · intro hmsg
    rcases accepted_or_rejected cfg.build.envMax env arg with ⟨e, he⟩ | ⟨msg, _, hanswer⟩
    · exact absurd (by rw [(envAnswer_of_accepted he).1]) hmsg
    · rw [hanswer]
  · intro e harg hname hshort hval hknown
    have hsplit : arg.map (cutAt 61) = some (e.name, some e.val) := by
      rw [harg, Option.map_some, cutAt_append_cons (envName_no_eq hname)]
    have haccepted : Accepted cfg.build.envMax env arg e :=
      ⟨hsplit, hname, ⟨hshort, hval⟩, .inl hknown⟩
    rw [(envAnswer_of_accepted haccepted).1]
    refine ⟨rfl, mem_writeEntry_self _ _ _, ?_⟩
    rw [length_writeEntry, if_pos hknown]
    rfl

/-- In every run, the table in effect holds the last accepted value of every
name, in the order of their first ones, and the commands get that table. -/
theorem env_table_last_write
    (cfg : Cfg) (plan : List (Option ℕ)) (cwd : Bytes)
    (files : Bytes → Option Bytes) (evs : List Ev) (d : Daemon)
    (hd : d = run cfg (Daemon.init cfg plan cwd files) evs)
    (history : List EnvEntry)
    (hhistory : history = envHistory cfg (Daemon.init cfg plan cwd files) [] evs) :
    (∀ env, d.ctl.table = some env → EnvTable cfg.build.envMax history env) ∧
    (∀ ev, ∀ o ∈ (step cfg d ev).log.drop d.log.length, ∀ env,
      o.env = some env → EnvTable cfg.build.envMax history env) ∧
    (∀ ev env arg, d.envLine cfg ev = some (env, arg) → EnvLine cfg d ev env arg) := by
  have hinv : Inv cfg (Origin.init cwd files) d := by
    rw [hd]
    exact inv_reachable cfg plan cwd files evs
  have htabled : d.Tabled cfg history := by
    have hnone : (Daemon.init cfg plan cwd files).ctl.table = none :=
      idleCtl_table cfg
    rw [hd, hhistory]
    refine Daemon.Tabled.run ?_ (inv_init cfg plan cwd files) (fun _ => trivial) evs
    simp [Daemon.Tabled, hnone]
  refine ⟨htabled, ?_, ?_⟩
  · intro ev
    exact (htabled.step hinv.inside.pending ev).2
  · intro ev env arg hline
    exact envLine_done hinv.inside.pending hline

/-- Three accepted lines for two names, then a command. -/
theorem env_table_last_write_run :
    EnvTable 16 [⟨ascii "A", ascii "1"⟩, ⟨ascii "B", ascii "2"⟩, ⟨ascii "A", ascii "3"⟩]
      [⟨ascii "A", ascii "3"⟩, ⟨ascii "B", ascii "2"⟩] := by
  have htold := env_table_last_write smallCfg [] [] (fun _ => none)
    (newPeer :: rxAll {} (ascii "AUTH t" ++ [lf] ++ ascii "ENV A=1" ++ [lf] ++
      ascii "ENV B=2" ++ [lf] ++ ascii "ENV A=3" ++ [lf] ++ ascii "RUN x"))
    _ rfl [⟨ascii "A", ascii "1"⟩, ⟨ascii "B", ascii "2"⟩, ⟨ascii "A", ascii "3"⟩]
    (by decide +kernel)
  exact htold.2.1 (.rx lf {})
    (.run .run (ascii "x") [⟨ascii "A", ascii "3"⟩, ⟨ascii "B", ascii "2"⟩])
    (by decide +kernel) _ rfl

end Runs

end GrandCross
