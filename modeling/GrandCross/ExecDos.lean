import GrandCross.Conf
import GrandCross.EnvScript
import Mathlib.Logic.Function.Basic

/-!
# Commands on DOS

`daemon/exec_dos.c` has no child process that could take the session's
environment with it: the variables are put into the environment of the daemon
itself and deleted behind the command.  A variable of this name that the daemon
had before is gone with it.
-/

namespace GrandCross.Dos

open CText

/-! ## The environment of the process -/

abbrev Environ := Bytes → Option Bytes

/-- `putenv`: `N=v` sets and `N=` deletes. -/
def putenv (env : Environ) (entry : Bytes) : Environ :=
  match cutAt 61 entry with
  | (name, some val) => Function.update env name (if val = [] then none else some val)
  | (_, none) => env

def Environ.without (env : Environ) (names : List Bytes) : Environ :=
  fun name => if names.contains name then none else env name

theorem Environ.without_of_mem
    {env : Environ} {names : List Bytes} {name : Bytes} (hname : name ∈ names) :
    env.without names name = none :=
  if_pos (List.contains_iff_mem.mpr hname)

theorem Environ.without_of_not_mem
    {env : Environ} {names : List Bytes} {name : Bytes} (hname : name ∉ names) :
    env.without names name = env name :=
  if_neg fun hin => hname (List.contains_iff_mem.mp hin)

/-! ## The code -/

/-- One row of `g_envbuf`. -/
def envbufMax : ℕ := envnMax + envvMax

def envbufCat (dst src : Bytes) : Bytes := (gcdsStrlcat dst src envbufMax).1

def setEntry (e : EnvEntry) : Bytes :=
  envbufCat (envbufCat (envbufCat [] e.name) (ascii "=")) e.val

def restoreEntry (e : EnvEntry) : Bytes :=
  envbufCat (envbufCat [] e.name) (ascii "=")

def setEnv (env : Environ) (table : List EnvEntry) : Environ :=
  table.foldl (fun env e => putenv env (setEntry e)) env

def restoreEnv (env : Environ) (table : List EnvEntry) : Environ :=
  table.foldl (fun env e => putenv env (restoreEntry e)) env

def dosArgvMax : ℕ := 32

/-- The loop of `split_args`: `buf` is `g_cmdcopy`, in which blanks become
NULs, and `argv` holds where the words start in it. -/
def splitScan : ℕ → ℕ → Bool → Bytes → List ℕ → Bytes × List ℕ
  | 0, _, _, buf, argv => (buf, argv)
  | fuel + 1, i, inWord, buf, argv =>
      match buf[i]? with
      | none => (buf, argv)
      | some b =>
          if b = nul then (buf, argv)
          else if isBlank b then splitScan fuel (i + 1) false (buf.set i nul) argv
          else if inWord then splitScan fuel (i + 1) true buf argv
          -- The loop ends here; this word and those behind it get no entry.
          else if dosArgvMax ≤ argv.length then (buf, argv)
          else splitScan fuel (i + 1) true buf (argv ++ [i])

/-- The strings that pointers into a buffer point to. -/
def strings (buf : Bytes) (argv : List ℕ) : List Bytes :=
  argv.map fun i => cstr (buf.drop i)

/-- `split_args`: the strings of `g_argv`. -/
def splitArgs (cmdline : Bytes) : List Bytes :=
  let copy := (gcdsStrlcpy cmdline lineMax).1
  let res := splitScan copy.length 0 false copy []
  strings res.1 res.2

/-- `<`, `>` or `|`. -/
def hasShellMeta (s : Bytes) : Bool := s.any fun b => b = 60 ∨ b = 62 ∨ b = 124

/-- What the system returns to `run_command`: whether the two capture files
can be opened, and the two ways to spawn, each with the environment that the
child takes over. -/
structure System where
  openOut : Bool
  openErr : Bool
  spawnvp : List Bytes → Environ → ℤ
  spawnl : Bytes → List Bytes → Environ → ℤ

inductive Spawn where
  | vp (argv : List Bytes) (env : Environ)
  | l (path : Bytes) (args : List Bytes) (env : Environ)

/-- What `run_command` returns, what it leaves and what it has started. -/
structure Done where
  rc : ℤ
  env : Environ
  spawned : List Spawn

/-- The direct spawn, unless the line needs the shell or has no word. -/
def spawnDirect (sys : System) (env : Environ) (cmdline : Bytes) : ℤ × List Spawn :=
  if hasShellMeta cmdline = false ∧ 1 ≤ (splitArgs cmdline).length then
    (sys.spawnvp (splitArgs cmdline) env, [.vp (splitArgs cmdline) env])
  else (-1, [])

def runCommand (sys : System) (env : Environ) (table : List EnvEntry)
    (cmdline : Bytes) : Done :=
  let comspec := (env (ascii "COMSPEC")).getD (ascii "COMMAND.COM")
  let inner := setEnv env table
  if sys.openOut = false ∨ sys.openErr = false then
    -- `goto restore_env`
    ⟨-1, restoreEnv inner table, []⟩
  else
    let direct := spawnDirect sys inner cmdline
    let shellArgs := [comspec, ascii "/C", cmdline]
    let rc := if direct.1 < 0 then sys.spawnl comspec shellArgs inner else direct.1
    let shell := if direct.1 < 0 then [Spawn.l comspec shellArgs inner] else []
    ⟨if rc < 0 then -1 else if 255 < rc then 255 else rc, restoreEnv inner table,
      direct.2 ++ shell⟩

/-! ## What is left of the environment -/

theorem envbufCat_fits
    {dst src : Bytes} (h : dst.length + src.length < envbufMax) :
    envbufCat dst src = dst ++ src := by
  unfold envbufCat
  rw [gcdsStrlcat_fits h]

theorem restoreEntry_eq
    {e : EnvEntry} (hn : e.name.length < envnMax) :
    restoreEntry e = e.name ++ [61] := by
  have hsize : envbufMax = envnMax + 192 := rfl
  have hequals : (ascii "=").length = 1 := rfl
  have hname : envbufCat [] e.name = e.name :=
    envbufCat_fits (by rw [List.length_nil]; omega)
  unfold restoreEntry
  rw [hname, envbufCat_fits (by omega)]
  rfl

theorem setEntry_eq
    {e : EnvEntry} (hn : e.name.length < envnMax) (hv : e.val.length < envvMax) :
    setEntry e = e.name ++ 61 :: e.val := by
  have hsize : envbufMax = envnMax + envvMax := rfl
  have hfront : setEntry e = envbufCat (restoreEntry e) e.val := rfl
  rw [hfront, restoreEntry_eq hn, envbufCat_fits (by simp; omega), List.append_assoc]
  rfl

theorem putenv_entry
    (env : Environ) {name : Bytes} (hname : (61 : Byte) ∉ name) (val : Bytes) :
    putenv env (name ++ 61 :: val) =
      Function.update env name (if val = [] then none else some val) := by
  unfold putenv
  rw [cutAt_append_cons hname]

/-- Fit for the buffer and for `putenv`. -/
structure Settable (e : EnvEntry) : Prop where
  name_short : e.name.length < envnMax
  val_short : e.val.length < envvMax
  name_plain : (61 : Byte) ∉ e.name

theorem equals_not_in_name {name : Bytes} (hname : envNameOk name = true) :
    (61 : Byte) ∉ name := by
  intro hequals
  cases name with
  | nil => exact List.not_mem_nil hequals
  | cons b rest =>
      simp only [envNameOk, Bool.and_eq_true, List.all_eq_true] at hname
      rcases List.mem_cons.mp hequals with rfl | hrest
      · exact absurd hname.1 (by decide)
      · exact absurd (hname.2 61 hrest) (by decide)

theorem settable_of_session
    {max : ℕ} {table : List EnvEntry} (htable : SessionEnv max table) :
    ∀ e ∈ table, Settable e :=
  htable.forall_mem fun _ _ hname hn hv => ⟨hn, hv, equals_not_in_name hname⟩

theorem setEnv_other
    {table : List EnvEntry} (htable : ∀ e ∈ table, Settable e) (env : Environ)
    {name : Bytes} (hname : name ∉ table.map EnvEntry.name) :
    setEnv env table name = env name := by
  induction table generalizing env with
  | nil => rfl
  | cons e table ih =>
      obtain ⟨he, htable⟩ := List.forall_mem_cons.mp htable
      rw [List.map_cons, List.mem_cons, not_or] at hname
      have hrest := ih htable (putenv env (setEntry e)) hname.2
      have hfirst : putenv env (setEntry e) name = env name := by
        rw [setEntry_eq he.name_short he.val_short, putenv_entry env he.name_plain]
        exact Function.update_of_ne hname.1 _ _
      exact hrest.trans hfirst

theorem restoreEnv_eq
    {table : List EnvEntry} (htable : ∀ e ∈ table, Settable e) (env : Environ) :
    restoreEnv env table = env.without (table.map EnvEntry.name) := by
  induction table generalizing env with
  | nil =>
      funext name
      simp [restoreEnv, Environ.without]
  | cons e table ih =>
      obtain ⟨he, htable⟩ := List.forall_mem_cons.mp htable
      have hfirst : putenv env (restoreEntry e) = Function.update env e.name none := by
        rw [restoreEntry_eq he.name_short, putenv_entry env he.name_plain, if_pos rfl]
      have hrest := ih htable (putenv env (restoreEntry e))
      rw [hfirst] at hrest
      refine (congrArg (restoreEnv · table) hfirst).trans (hrest.trans ?_)
      funext name
      by_cases hname : name = e.name
      · simp [Environ.without, hname]
      · simp [Environ.without, hname]

/-- Whatever the outcome, the command leaves the environment without the names
of the session. -/
theorem runCommand_env
    {table : List EnvEntry} (htable : ∀ e ∈ table, Settable e) (sys : System)
    (env : Environ) (cmdline : Bytes) :
    (runCommand sys env table cmdline).env = env.without (table.map EnvEntry.name) := by
  have hleft : (runCommand sys env table cmdline).env =
      restoreEnv (setEnv env table) table := by
    simp only [runCommand]
    split_ifs <;> rfl
  rw [hleft, restoreEnv_eq htable]
  funext name
  by_cases hname : name ∈ table.map EnvEntry.name
  · rw [Environ.without_of_mem hname, Environ.without_of_mem hname]
  · rw [Environ.without_of_not_mem hname, Environ.without_of_not_mem hname]
    exact setEnv_other htable env hname

theorem without_eq_iff (env : Environ) (names : List Bytes) :
    env.without names = env ↔ ∀ name ∈ names, env name = none := by
  constructor
  · intro heq name hname
    rw [← heq]
    exact Environ.without_of_mem hname
  · intro hnone
    funext name
    by_cases hname : name ∈ names
    · rw [Environ.without_of_mem hname, hnone name hname]
    · exact Environ.without_of_not_mem hname

/-- The environment of the daemon is as before exactly when none of the
session's variables was set in it. -/
theorem runCommand_keeps_iff
    {max : ℕ} {table : List EnvEntry} (htable : SessionEnv max table) (sys : System)
    (env : Environ) (cmdline : Bytes) :
    (runCommand sys env table cmdline).env = env ↔
      ∀ e ∈ table, env e.name = none := by
  rw [runCommand_env (settable_of_session htable), without_eq_iff]
  exact List.forall_mem_map

def plainSystem : System where
  openOut := true
  openErr := true
  spawnvp _ _ := 0
  spawnl _ _ _ := 0

def pathEnviron : Environ :=
  fun name => if name = ascii "PATH" then some (ascii "C:\\DOS") else none

theorem singleton_session
    {name val : Bytes} (hname : envNameOk name = true) (hn : name.length < envnMax)
    (hv : val.length < envvMax) : SessionEnv 16 [⟨name, val⟩] :=
  SessionEnv.set SessionEnv.empty hname hn hv rfl

theorem runCommand_keeps_path :
    (runCommand plainSystem pathEnviron [⟨ascii "INCLUDE", ascii "C:\\WATCOM\\H"⟩]
      (ascii "wcl hello.c")).env = pathEnviron := by
  refine (runCommand_keeps_iff (singleton_session (by decide) (by decide) (by decide))
    plainSystem pathEnviron (ascii "wcl hello.c")).mpr ?_
  intro e he
  rw [List.mem_singleton.mp he]
  decide

theorem runCommand_loses_path :
    ¬ (runCommand plainSystem pathEnviron [⟨ascii "PATH", ascii "C:\\WATCOM"⟩]
      (ascii "wcl hello.c")).env = pathEnviron := by
  intro heq
  have hpath := congrFun heq (ascii "PATH")
  have htable : SessionEnv 16 [⟨ascii "PATH", ascii "C:\\WATCOM"⟩] :=
    singleton_session (by decide) (by decide) (by decide)
  rw [runCommand_env (settable_of_session htable)] at hpath
  exact absurd hpath (by decide)

/-! ## The commands of all sessions -/

end GrandCross.Dos
