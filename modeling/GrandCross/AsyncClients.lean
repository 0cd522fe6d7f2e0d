import GrandCross.ResultStable
import GrandCross.ClientPoll

/-!
# Clients that wait for their jobs

Any number of clients, each submitting a job with RUNA and then polling for
it, against a daemon that may be restarted at any time.  The daemon serves
one session after the other, so what a client asks in one of them is a step
of its own; the connection may break at any byte.
-/

namespace GrandCross

open CText
open Transfer

/-! ## The parties -/

/-- One life of the daemon: where it was started, and its log. -/
structure Epoch where
  cwd : Bytes
  log : List Obs

/-- The RUNA of a client, by its place in the log of a daemon, and the
mapping that the client applies to the output. -/
structure Submission where
  epoch : ℕ
  pos : ℕ
  mb : Option MapBack

inductive Client where
  | idle
  | polling (jobid : ℤ) (own : Submission) (p : Poll)
  | returned (own : Submission) (code : ℤ) (p : Poll)

structure World where
  daemon : Daemon
  cwd : Bytes
  past : List Epoch
  clients : ℕ → Client

def World.init (cfg : Cfg) (plan : List (Option ℕ)) (cwd : Bytes)
    (files : Bytes → Option Bytes) : World where
  daemon := Daemon.init cfg plan cwd files
  cwd := cwd
  past := []
  clients := fun _ => .idle

/-- All lives of the daemon, the present one last. -/
def World.epochs (w : World) : List Epoch := w.past ++ [⟨w.cwd, w.daemon.log⟩]

/-! ## What a client does in a session -/

/-- What `gcds_strlcat` leaves in `line` for a command. -/
def runaLine (cmd : Bytes) : Bytes :=
  (gcdsStrlcat (gcdsStrlcat [] (ascii "RUNA ") lineMax).1 cmd lineMax).1

def rcSubmit (link : Link) (cmd : Bytes) : Option ℤ :=
  match rcCmd link (runaLine cmd) with
  | (some reply, _) =>
      if gcdsStarts reply (ascii "OK ") then some (atol (reply.drop 3)) else none
  | (none, _) => none

/-- The connection of an attempt, when it gets past AUTH. -/
def openLink (conf : HostConf) (dial : Dial) : Option Link :=
  match rcOpen conf dial with
  | none => none
  | some (link, _) =>
      match rcAuth conf link with
      | (true, link') => some link'
      | (false, _) => none

def sentSince (d d' : Daemon) : Bytes := d'.chan.sent.drop d.chan.sent.length

/-- The client gets to read these bytes, or a part before the connection
breaks. -/
structure Link.Reads (link : Link) (bytes : Bytes) : Prop where
  steady : link.inp.Steady
  part : link.inp.pending <+: bytes

instance (link : Link) (bytes : Bytes) : Decidable (link.Reads bytes) :=
  decidable_of_iff (link.inp.Steady ∧ link.inp.pending <+: bytes)
    ⟨fun h => ⟨h.1, h.2⟩, fun h => ⟨h.1, h.2⟩⟩

/-- How far an attempt of `poll_result` comes. -/
inductive Reach where
  /-- Not past AUTH. -/
  | away
  /-- To a control session. -/
  | control
  /-- The command loop receives STAT. -/
  | stat
  /-- It receives RESULT as well. -/
  | result
  deriving DecidableEq

def hearStat (cfg : Cfg) (o : Answers) (d : Daemon) : Daemon :=
  feed cfg o d (ascii "STAT" ++ [lf])

def hearResult (cfg : Cfg) (o : Answers) (d : Daemon) (jobid : ℤ) : Daemon :=
  feed cfg o (hearStat cfg o d) (resultLine jobid ++ [lf])

def Ctl.inCommand : Ctl → Bool
  | .session true _ [] => true
  | _ => false

def Ctl.busyLine : Ctl → Option Bytes
  | .liveCtl l _ _ => some (ascii "OK busy " ++ decimal l.jobid)
  | _ => none

/-- The daemon behind an attempt; `none` if an attempt cannot go this way.
Broken writes of the daemon show as a part that the client reads. -/
def attempt (cfg : Cfg) (o : Answers) (d : Daemon) (jobid : ℤ) (p : Poll) :
    Reach → Option Link → Option Daemon
  | .away, none => some d
  | .control, some link =>
      match d.ctl.busyLine with
      | some line => if link.Reads (line ++ [lf]) then some d else none
      | none => none
  | .stat, some link =>
      if d.ctl.inCommand ∧ d.chan.Steady ∧
          link.Reads (sentSince d (hearStat cfg o d)) then
        some (hearStat cfg o d)
      else none
  | .result, some link =>
      if d.ctl.inCommand ∧ d.chan.Steady ∧
          (rcCmd link (ascii "STAT")).1 = some p.want ∧
          link.Reads (sentSince d (hearResult cfg o d jobid)) then
        some (hearResult cfg o d jobid)
      else none
  | _, _ => none

def Client.after (jobid : ℤ) (own : Submission) : Option ℤ × Poll → Client
  | (none, p) => .polling jobid own p
  | (some code, p) => .returned own code p

/-! ## Steps of the whole -/

inductive Act where
  /-- Anything that happens to the daemon, from any peer. -/
  | event (ev : Ev)
  /-- The daemon goes down and is started again. -/
  | restart (plan : List (Option ℕ)) (cwd : Bytes) (files : Bytes → Option Bytes)
  /-- The last byte of the RUNA of client `c` arrives, and it reads the reply. -/
  | submit (c : ℕ) (o : Answers) (link : Link) (cmd : Bytes)
      (fd1 fd2 : List (Option ℕ)) (mb : Option MapBack)
  /-- Client `c` makes an attempt. -/
  | poll (c : ℕ) (o : Answers) (conf : HostConf) (dial : Dial) (reach : Reach)

def World.submit (cfg : Cfg) (w : World) (c : ℕ) (o : Answers) (jobid : ℤ)
    (fd1 fd2 : List (Option ℕ)) (mb : Option MapBack) : World :=
  { w with
    daemon := step cfg w.daemon (.rx lf o)
    clients := Function.update w.clients c
      (.polling jobid ⟨w.past.length, w.daemon.log.length, mb⟩
        ⟨statWant jobid, ⟨fd1, []⟩, ⟨fd2, []⟩, mb⟩) }

def World.step (cfg : Cfg) (w : World) : Act → World
  | .event ev => { w with daemon := GrandCross.step cfg w.daemon ev }
  | .restart plan cwd files =>
      { w with
        daemon := Daemon.init cfg plan cwd files
        cwd := cwd
        past := w.epochs }
  | .submit c o link cmd fd1 fd2 mb =>
      match w.clients c, rcSubmit link cmd with
      | .idle, some jobid =>
          if w.daemon.submits cfg (.rx lf o) = true ∧
              link.Reads (sentSince w.daemon (GrandCross.step cfg w.daemon (.rx lf o))) then
            w.submit cfg c o jobid fd1 fd2 mb
          else w
      | _, _ => w
  | .poll c o conf dial reach =>
      match w.clients c with
      | .polling jobid own p =>
          match attempt cfg o w.daemon jobid p reach (openLink conf dial) with
          | some d' =>
              { w with
                daemon := d'
                clients := Function.update w.clients c
                  (.after jobid own (pollTurn conf jobid p dial)) }
          | none => w
      | _ => w

def World.run (cfg : Cfg) (w : World) (acts : List Act) : World :=
  acts.foldl (World.step cfg) w

/-! ## Reading what was sent -/

theorem Link.Reads.mono
    {link : Link} {bytes bytes' : Bytes} (h : link.Reads bytes)
    (hbytes : bytes <+: bytes') : link.Reads bytes' :=
  ⟨h.steady, h.part.trans hbytes⟩

theorem rcCmd_reads
    {link : Link} {line rest cmd reply : Bytes} (h : link.Reads (line ++ lf :: rest))
    (hclean : LineClean line) (hnul : nul ∉ line)
    (hreply : (rcCmd link cmd).1 = some reply) :
    reply = line ∧ (rcCmd link cmd).2.Reads rest := by
  unfold rcCmd at hreply ⊢
  dsimp only at hreply ⊢
  split_ifs at hreply ⊢ with hsend
  cases hget : lioGetLine lineMax link.inp with
  | mk result inp =>
      rw [hget] at hreply
      cases result with
      | ok got =>
          obtain ⟨hgot, hsteady, hpart⟩ := lioGetLoop_ok h.steady hclean h.part hget
          rw [List.nil_append] at hgot
          subst hgot
          simp only [cstr_eq_self hnul, Option.some.injEq] at hreply
          exact ⟨hreply.symm, hsteady, hpart⟩
      | eio => cases hreply
      | elong => cases hreply

theorem wordLine_clean
    {word : Bytes} (hword : LineClean word ∧ nul ∉ word) (n : ℕ) :
    LineClean (word ++ decimal n) ∧ nul ∉ word ++ decimal n := by
  refine ⟨hword.1.append (lineClean_decimal n), ?_⟩
  rw [List.mem_append, not_or]
  exact ⟨hword.2, (decimal_clean n).1⟩

theorem rcSubmit_reads
    {link : Link} {n : ℕ} (hn : n ≤ jobMax)
    (h : link.Reads (ascii "OK " ++ decimal n ++ [lf])) {cmd : Bytes} {jobid : ℤ}
    (hsubmit : rcSubmit link cmd = some jobid) : jobid = n := by
  obtain ⟨hclean, hnul⟩ :=
    wordLine_clean (by decide : LineClean (ascii "OK ") ∧ nul ∉ ascii "OK ") n
  have hatol : atol (decimal n) = n := atol_decimal (hn.trans (by decide))
  have hstarts : gcdsStarts (ascii "OK " ++ decimal n) (ascii "OK ") = true := by
    simp [gcdsStarts]
  have hdrop : (ascii "OK " ++ decimal n).drop 3 = decimal n := rfl
  unfold rcSubmit at hsubmit
  cases hcmd : rcCmd link (runaLine cmd) with
  | mk reply link' =>
      rw [hcmd] at hsubmit
      cases reply with
      | none => cases hsubmit
      | some reply =>
          have hreply := (rcCmd_reads h hclean hnul (by rw [hcmd])).1
          rw [hreply] at hsubmit
          simp only [hstarts, hdrop, hatol, if_true, Option.some.injEq] at hsubmit
          exact hsubmit.symm

/-! ## Attempts that return a code -/

structure Fetches (conf : HostConf) (dial : Dial) (jobid : ℤ) (p : Poll)
    (link : Link) (code : ℤ) (p' : Poll) : Prop where
  opened : openLink conf dial = some link
  turn : pollTurn conf jobid p dial = (some code, p')
  nonneg : 0 ≤ code
  stat : (rcCmd link (ascii "STAT")).1 = some p.want
  stream : ∃ inp, rcStream ⟨(rcCmd link (ascii "STAT")).2.inp, p.fd1, p.fd2, p.mb⟩ =
    (code, ⟨inp, p'.fd1, p'.fd2, p'.mb⟩)

/-- The attempt fails, and `want` is as it was or used up. -/
def Passes (jobid : ℤ) (p : Poll) (r : Option ℤ × Poll) : Prop :=
  (r.1 = none ∨ r.1 = some (-1)) ∧ (r.2 = p ∨ r.2.want = resultLine jobid)

theorem pollStat_cases (jobid : ℤ) (p : Poll) (line : Bytes) (link : Link) :
    Passes jobid p (pollStat jobid p line link) ∨
      line = p.want ∧ ∃ code p' inp, pollStat jobid p line link = (some code, p') ∧
        0 ≤ code ∧ rcStream ⟨link.inp, p.fd1, p.fd2, p.mb⟩ =
          (code, ⟨inp, p'.fd1, p'.fd2, p'.mb⟩) := by
  unfold pollStat
  split_ifs with hwant
  · dsimp only
    split_ifs with hsend hcode
    · exact .inl ⟨.inl rfl, .inr rfl⟩
    · exact .inr ⟨hwant, _, _, (rcStream ⟨link.inp, p.fd1, p.fd2, p.mb⟩).2.inp, rfl,
        by omega, rfl⟩
    · exact .inl ⟨.inl rfl, .inr rfl⟩
  · exact .inl ⟨.inl rfl, .inl rfl⟩
  · exact .inl ⟨.inr rfl, .inl rfl⟩

theorem pollTurn_of_openLink
    {conf : HostConf} {dial : Dial} {link : Link}
    (hlink : openLink conf dial = some link) (jobid : ℤ) (p : Poll) :
    pollTurn conf jobid p dial =
      match rcCmd link (ascii "STAT") with
      | (none, _) => (none, p)
      | (some line, link') => pollStat jobid p line link' := by
  unfold openLink at hlink
  unfold pollTurn
  cases hopen : rcOpen conf dial with
  | none => simp [hopen] at hlink
  | some opened =>
      rw [hopen] at hlink
      dsimp only at hlink ⊢
      cases hauth : rcAuth conf opened.1 with
      | mk authed link' =>
          cases authed with
          | false => simp [hauth] at hlink
          | true =>
              simp only [hauth, Option.some.injEq] at hlink
              subst hlink
              rfl

theorem pollTurn_away
    {conf : HostConf} {dial : Dial} (hlink : openLink conf dial = none)
    (jobid : ℤ) (p : Poll) : Passes jobid p (pollTurn conf jobid p dial) := by
  unfold openLink at hlink
  unfold pollTurn
  cases hopen : rcOpen conf dial with
  | none => exact ⟨.inl rfl, .inl rfl⟩
  | some opened =>
      rw [hopen] at hlink
      dsimp only at hlink ⊢
      cases hauth : rcAuth conf opened.1 with
      | mk authed link' =>
          cases authed with
          | false => exact ⟨.inr rfl, .inl rfl⟩
          | true => simp [hauth] at hlink

theorem pollTurn_cases (conf : HostConf) (jobid : ℤ) (p : Poll) (dial : Dial) :
    Passes jobid p (pollTurn conf jobid p dial) ∨
      ∃ link code p', Fetches conf dial jobid p link code p' := by
  cases hlink : openLink conf dial with
  | none => exact .inl (pollTurn_away hlink jobid p)
  | some link =>
      have hturn := pollTurn_of_openLink hlink jobid p
      cases hcmd : rcCmd link (ascii "STAT") with
      | mk line link' =>
          rw [hcmd] at hturn
          cases line with
          | none =>
              rw [hturn]
              exact .inl ⟨.inl rfl, .inl rfl⟩
          | some line =>
              dsimp only at hturn
              rcases pollStat_cases jobid p line link' with
                hpasses | ⟨hwant, code, p', inp, hstat, hcode, hstream⟩
              · rw [hturn]
                exact .inl hpasses
              · refine .inr ⟨link, code, p', hlink, hturn.trans hstat, hcode, ?_, inp, ?_⟩
                · rw [hcmd, hwant]
                · rw [hcmd]
                  exact hstream

end GrandCross
