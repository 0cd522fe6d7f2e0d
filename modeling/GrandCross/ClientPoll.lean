import GrandCross.ClientStream
import GrandCross.Exec

/-!
# Polling for an asynchronous result

`rc_open`, `rc_auth` and `rc_cmd` of `remote.c`, and the retry loop of
`poll_result` in `asyncjob.c`.  A connection attempt is given by what the
peer will send and by how the reads and writes on it split or fail, so a
list of attempts determines the whole loop.
-/

namespace GrandCross

open CText
open Transfer

/-- The `serial`/`addr` and `token` entries of a host in the configuration. -/
structure HostConf where
  kind : ChanKind
  token : Option Bytes

/-- What `ser_open` or `net_connect` gives: nothing, or a channel with the
bytes that the peer will send on it. -/
abbrev Dial := Option (List (Option ℕ) × Source)

structure Link where
  chan : Chan
  inp : Source
  deriving DecidableEq

structure Greet where
  ostag : Bytes
  rhost : Bytes
  capAsync : Bool
  capIx : Bool
  capLive : Bool
  deriving DecidableEq

/-! ## Opening a connection -/

/-- The tokens of `strtok(line, " ")`. -/
def strtok (line : Bytes) : List Bytes :=
  (line.splitOnP (· == sp)).filter (· ≠ [])

def parseGreet (line : Bytes) : Option Greet :=
  match strtok line with
  | magic :: ver :: ostag :: rhost :: caps =>
      if magic = ascii "GCDS" ∧ 1 ≤ atol ver then
        some
          { ostag := (gcdsStrlcpy ostag 32).1
            rhost := (gcdsStrlcpy rhost 64).1
            capAsync := caps.contains (ascii "ASYNC")
            capIx := caps.contains (ascii "INTERACTIVE")
            capLive := caps.contains (ascii "LIVE") }
      else none
  | _ => none

/-- The greeting loop of `rc_open`.  On a serial line overlong lines and
lines that are no greeting are dropped; every turn reads at least a byte. -/
def greetLoop (kind : ChanKind) : ℕ → Source → Option (Bytes × Source)
  | 0, _ => none
  | fuel + 1, inp =>
      match lioGetLine lineMax inp with
      | (.ok line, inp') =>
          if gcdsStarts (cstr line) (ascii "GCDS ") then some (cstr line, inp')
          else if kind = .tcp then none
          else greetLoop kind fuel inp'
      | (.elong, inp') =>
          if kind = .ser then greetLoop kind fuel inp' else none
      | (.eio, _) => none

/-- A serial peer is first rid of a stale session, then called to attention. -/
def rcHail (c : Chan) : Option Chan :=
  match c.kind with
  | .tcp => some c
  | .ser =>
      let w := lioPutLine c (ascii "QUIT")
      if w.1 then
        let w' := lioPutLine w.2 (ascii "HELLO")
        if w'.1 then some w'.2 else none
      else none

def rcOpen (conf : HostConf) (dial : Dial) : Option (Link × Greet) :=
  match dial with
  | none => none
  | some (plan, inp) =>
      match rcHail ⟨conf.kind, ⟨plan, []⟩⟩ with
      | none => none
      | some chan =>
          match greetLoop conf.kind (inp.pending.length + 1) inp with
          | none => none
          | some (line, inp') =>
              (parseGreet line).map fun greet => (⟨chan, inp'⟩, greet)

/-! ## Commands -/

/-- `rc_cmd` where its sends return: one that raises SIGPIPE ends the client
and is told apart below. -/
def rcCmd (link : Link) (line : Bytes) : Option Bytes × Link :=
  let w := lioPutLine link.chan line
  if w.1 then
    match lioGetLine lineMax link.inp with
    | (.ok reply, inp) => (some (cstr reply), ⟨w.2, inp⟩)
    | (_, inp) => (none, ⟨w.2, inp⟩)
  else (none, ⟨w.2, link.inp⟩)

def authLine (token : Bytes) : Bytes :=
  (gcdsStrlcat (gcdsStrlcat [] (ascii "AUTH ") lineMax).1 token lineMax).1

def rcAuth (conf : HostConf) (link : Link) : Bool × Link :=
  match conf.token with
  | none => (false, link)
  | some token =>
      match rcCmd link (authLine token) with
      | (some reply, link') => (reply = ascii "OK", link')
      | (none, link') => (false, link')

/-! ## The retry loop -/

/-- `sprintf("%ld")` of a `long`. -/
def ldText : ℤ → Bytes
  | .ofNat n => decimal n
  | .negSucc n => minus :: decimal (n + 1)

def statWant (jobid : ℤ) : Bytes := ascii "OK result " ++ ldText jobid

def resultLine (jobid : ℤ) : Bytes := ascii "RESULT " ++ ldText jobid

/-- What `poll_result` carries from one attempt to the next: its `want`
buffer, and the local output of the process. -/
structure Poll where
  want : Bytes
  fd1 : Sink
  fd2 : Sink
  mb : Option MapBack

/-- The `code` of `rc_stream` on this link, with the local output behind it. -/
def pollStream (p : Poll) (link : Link) : ℤ × Poll :=
  let r := rcStream ⟨link.inp, p.fd1, p.fd2, p.mb⟩
  (r.1, { p with fd1 := r.2.fd1, fd2 := r.2.fd2, mb := r.2.mb })

/-- `poll_result` with the answer to STAT read: `none` to poll again. -/
def pollStat (jobid : ℤ) (p : Poll) (line : Bytes) (link : Link) :
    Option ℤ × Poll :=
  if line = p.want then
    -- the request is printed into `want` itself
    let p := { p with want := resultLine jobid }
    let w := lioPutLine link.chan p.want
    if w.1 then
      let r := pollStream p ⟨w.2, link.inp⟩
      if r.1 < 0 then (none, r.2) else (some r.1, r.2)
    else (none, p)
  else if gcdsStarts line (ascii "OK busy") then (none, p)
  else (some (-1), p)

def pollTurn (conf : HostConf) (jobid : ℤ) (p : Poll) (dial : Dial) :
    Option ℤ × Poll :=
  match rcOpen conf dial with
  | none => (none, p)
  | some (link, _) =>
      match rcAuth conf link with
      | (false, _) => (some (-1), p)
      | (true, link') =>
          match rcCmd link' (ascii "STAT") with
          | (none, _) => (none, p)
          | (some line, link'') => pollStat jobid p line link''

def pollLoop (conf : HostConf) (jobid : ℤ) : Poll → List Dial → Option ℤ × Poll
  | p, [] => (none, p)
  | p, dial :: dials =>
      match pollTurn conf jobid p dial with
      | (some code, p') => (some code, p')
      | (none, p') => pollLoop conf jobid p' dials

/-- `poll_result` over the coming attempts; `none` while it still polls.  No
send raises SIGPIPE. -/
def pollResult (conf : HostConf) (jobid : ℤ) (fd1 fd2 : Sink)
    (mb : Option MapBack) (dials : List Dial) : Option ℤ × Poll :=
  pollLoop conf jobid ⟨statWant jobid, fd1, fd2, mb⟩ dials

/-! ## The signal of a broken connection -/

/-- An attempt, and whether a send that fails on it raises SIGPIPE, which
nothing in the client ignores. -/
structure Attempt where
  dial : Dial
  sigpipe : Bool

inductive PollEnd where
  | polling
  | returned (code : ℤ)
  | killed
  deriving DecidableEq

/-- A send that fails raises the signal on TCP only. -/
def sendKills (conf : HostConf) (sigpipe : Bool) (link : Link) (line : Bytes) : Bool :=
  decide (conf.kind = .tcp) && sigpipe && !(lioPutLine link.chan line).1

/-- The sends of an attempt: AUTH, STAT, and the request where the job is
named. -/
def Attempt.kills (conf : HostConf) (jobid : ℤ) (p : Poll) (a : Attempt) : Bool :=
  match rcOpen conf a.dial with
  | none => false
  | some (link, _) =>
      conf.token.any (fun token => sendKills conf a.sigpipe link (authLine token)) ||
        match rcAuth conf link with
        | (false, _) => false
        | (true, link) =>
            sendKills conf a.sigpipe link (ascii "STAT") ||
              match rcCmd link (ascii "STAT") with
              | (none, _) => false
              | (some line, link) =>
                  decide (line = p.want) && sendKills conf a.sigpipe link (resultLine jobid)

def pollAttempts (conf : HostConf) (jobid : ℤ) : Poll → List Attempt → PollEnd × Poll
  | p, [] => (.polling, p)
  | p, a :: attempts =>
      if a.kills conf jobid p then (.killed, p)
      else
        match pollTurn conf jobid p a.dial with
        | (some code, p') => (.returned code, p')
        | (none, p') => pollAttempts conf jobid p' attempts

/-- `poll_result` in a process that SIGPIPE can end. -/
def pollRun (conf : HostConf) (jobid : ℤ) (fd1 fd2 : Sink) (mb : Option MapBack)
    (attempts : List Attempt) : PollEnd × Poll :=
  pollAttempts conf jobid ⟨statWant jobid, fd1, fd2, mb⟩ attempts

/-! ## Failed and successful attempts -/

inductive FailKind where
  | connect
  | sendStat
  | stat
  | sendResult
  | cut
  deriving DecidableEq, Repr

def Answered (conf : HostConf) (dial : Dial) (line : Bytes) (link : Link) :
    Prop :=
  ∃ link₀ greet link₁, rcOpen conf dial = some (link₀, greet) ∧
    rcAuth conf link₀ = (true, link₁) ∧
    rcCmd link₁ (ascii "STAT") = (some line, link)

/-- The ways in which an attempt may fail without being fatal. -/
inductive Fails (conf : HostConf) (jobid : ℤ) (dial : Dial) : FailKind → Prop
  | connect (hopen : rcOpen conf dial = none) : Fails conf jobid dial .connect
  | sendStat {link₀ link₁ greet} (hopen : rcOpen conf dial = some (link₀, greet))
      (hauth : rcAuth conf link₀ = (true, link₁))
      (hsend : (lioPutLine link₁.chan (ascii "STAT")).1 = false) :
      Fails conf jobid dial .sendStat
  | stat {link₀ link₁ greet} (hopen : rcOpen conf dial = some (link₀, greet))
      (hauth : rcAuth conf link₀ = (true, link₁))
      (hsend : (lioPutLine link₁.chan (ascii "STAT")).1 = true)
      (hstat : (rcCmd link₁ (ascii "STAT")).1 = none) :
      Fails conf jobid dial .stat
  | sendResult {link} (hanswer : Answered conf dial (statWant jobid) link)
      (hsend : (lioPutLine link.chan (resultLine jobid)).1 = false) :
      Fails conf jobid dial .sendResult
  | cut {link fs code rest} (hanswer : Answered conf dial (statWant jobid) link)
      (hsend : (lioPutLine link.chan (resultLine jobid)).1 = true)
      (hinp : link.inp.Steady) (hrest : rest ≠ [])
      (hcut : link.inp.pending ++ rest = encodeStream fs code) :
      Fails conf jobid dial .cut

/-- AUTH succeeds, STAT names the job and the whole stream arrives. -/
structure Succeeds (conf : HostConf) (jobid : ℤ) (dial : Dial) (code : ℕ) :
    Prop where
  intro ::
  fetch : ∃ link fs rest, Answered conf dial (statWant jobid) link ∧
    (lioPutLine link.chan (resultLine jobid)).1 = true ∧
    link.inp.Steady ∧ link.inp.pending = encodeStream fs code ++ rest

theorem pollTurn_of_answered
    {conf : HostConf} {dial : Dial} {line : Bytes} {link : Link}
    (hanswer : Answered conf dial line link) (jobid : ℤ) (p : Poll) :
    pollTurn conf jobid p dial = pollStat jobid p line link := by
  obtain ⟨link₀, greet, link₁, hopen, hauth, hcmd⟩ := hanswer
  simp only [pollTurn, hopen, hauth, hcmd]

/-- The failures in front of the answer to STAT. -/
def FailKind.Early (kind : FailKind) : Prop :=
  kind = .connect ∨ kind = .sendStat ∨ kind = .stat

theorem pollTurn_unanswered
    {conf : HostConf} {dial : Dial} {link₀ link₁ : Link} {greet : Greet}
    (hopen : rcOpen conf dial = some (link₀, greet))
    (hauth : rcAuth conf link₀ = (true, link₁))
    (hstat : (rcCmd link₁ (ascii "STAT")).1 = none) (jobid : ℤ) (p : Poll) :
    pollTurn conf jobid p dial = (none, p) := by
  simp only [pollTurn, hopen, hauth]
  cases hcmd : rcCmd link₁ (ascii "STAT") with
  | mk reply link =>
      rw [hcmd] at hstat
      dsimp only at hstat
      rw [hstat]

theorem rcCmd_unsent
    {link : Link} {line : Bytes} (h : (lioPutLine link.chan line).1 = false) :
    (rcCmd link line).1 = none := by
  simp [rcCmd, h]

theorem pollTurn_early
    {conf : HostConf} {jobid : ℤ} {dial : Dial} {kind : FailKind}
    (hfails : Fails conf jobid dial kind) (hearly : kind.Early) (p : Poll) :
    pollTurn conf jobid p dial = (none, p) := by
  cases hfails with
  | connect hopen => simp only [pollTurn, hopen]
  | sendStat hopen hauth hsend => exact pollTurn_unanswered hopen hauth (rcCmd_unsent hsend) _ _
  | stat hopen hauth _ hstat => exact pollTurn_unanswered hopen hauth hstat _ _
  | sendResult => simp [FailKind.Early] at hearly
  | cut => simp [FailKind.Early] at hearly

theorem statWant_ne_resultLine (jobid : ℤ) :
    statWant jobid ≠ resultLine jobid := by
  intro h
  have hstat : (statWant jobid).head? = some 79 := rfl
  have hresult : (resultLine jobid).head? = some 82 := rfl
  rw [h, hresult] at hstat
  exact absurd hstat (by decide)

/-- Once the request is in `want`, the answer that names the job is taken for
an unexpected status. -/
theorem pollStat_spent
    {jobid : ℤ} {p : Poll} (hwant : p.want = resultLine jobid) (link : Link) :
    pollStat jobid p (statWant jobid) link = (some (-1), p) := by
  have hne : ¬ statWant jobid = p.want := by
    rw [hwant]
    exact statWant_ne_resultLine jobid
  have hbusy : gcdsStarts (statWant jobid) (ascii "OK busy") = false := rfl
  unfold pollStat
  rw [if_neg hne, hbusy]
  rfl

theorem Fails.answered
    {conf : HostConf} {jobid : ℤ} {dial : Dial} {kind : FailKind}
    (hfails : Fails conf jobid dial kind) :
    kind.Early ∨ ∃ link, Answered conf dial (statWant jobid) link := by
  cases hfails with
  | connect => exact .inl (.inl rfl)
  | sendStat => exact .inl (.inr (.inl rfl))
  | stat => exact .inl (.inr (.inr rfl))
  | sendResult hanswer => exact .inr ⟨_, hanswer⟩
  | cut hanswer => exact .inr ⟨_, hanswer⟩

/-- A failure behind the answer to STAT overwrites `want`. -/
theorem pollTurn_late
    {conf : HostConf} {jobid : ℤ} {dial : Dial} {kind : FailKind}
    (hfails : Fails conf jobid dial kind) (hlate : ¬ kind.Early)
    {p : Poll} (hwant : p.want = statWant jobid) :
    ∃ p', p'.want = resultLine jobid ∧
      pollTurn conf jobid p dial = (none, p') := by
  cases hfails with
  | connect => simp [FailKind.Early] at hlate
  | sendStat => simp [FailKind.Early] at hlate
  | stat => simp [FailKind.Early] at hlate
  | sendResult hanswer hsend =>
      refine ⟨{ p with want := resultLine jobid }, rfl, ?_⟩
      rw [pollTurn_of_answered hanswer]
      simp [pollStat, hwant, hsend]
  | @cut link fs code rest hanswer hsend hinp hrest hcut =>
      have hcode : (rcStream ⟨link.inp, p.fd1, p.fd2, p.mb⟩).1 = -1 :=
        rcStream_cut hinp fs code hrest hcut
      refine ⟨(pollStream { p with want := resultLine jobid }
        ⟨(lioPutLine link.chan (resultLine jobid)).2, link.inp⟩).2, rfl, ?_⟩
      rw [pollTurn_of_answered hanswer]
      simp [pollStat, hwant, hsend, pollStream, hcode]

/-! ## What the signal leaves -/

theorem sendKills_sent
    {link : Link} {line : Bytes} (h : (lioPutLine link.chan line).1 = true)
    (conf : HostConf) (sigpipe : Bool) : sendKills conf sigpipe link line = false := by
  simp [sendKills, h]

theorem rcCmd_sent_line
    {link link' : Link} {line reply : Bytes} (h : rcCmd link line = (some reply, link')) :
    (lioPutLine link.chan line).1 = true := by
  by_contra hsend
  have hnone := rcCmd_unsent (by simpa using hsend : (lioPutLine link.chan line).1 = false)
  rw [h] at hnone
  cases hnone

/-- Where AUTH succeeds, its line was sent. -/
theorem rcAuth_spares
    {conf : HostConf} {link link' : Link} (h : rcAuth conf link = (true, link'))
    (sigpipe : Bool) :
    conf.token.any (fun token => sendKills conf sigpipe link (authLine token)) = false := by
  unfold rcAuth at h
  cases htoken : conf.token with
  | none => rfl
  | some token =>
      rw [htoken] at h
      dsimp only at h
      cases hcmd : rcCmd link (authLine token) with
      | mk reply link₁ =>
          cases reply with
          | none =>
              rw [hcmd] at h
              simp at h
          | some reply => exact sendKills_sent (rcCmd_sent_line hcmd) conf sigpipe

theorem kills_opened
    {conf : HostConf} {jobid : ℤ} {p : Poll} {a : Attempt} {link₀ link₁ : Link} {greet : Greet}
    (hopen : rcOpen conf a.dial = some (link₀, greet))
    (hauth : rcAuth conf link₀ = (true, link₁)) :
    a.kills conf jobid p =
      (sendKills conf a.sigpipe link₁ (ascii "STAT") ||
        match rcCmd link₁ (ascii "STAT") with
        | (none, _) => false
        | (some line, link) =>
            decide (line = p.want) && sendKills conf a.sigpipe link (resultLine jobid)) := by
  simp only [Attempt.kills, hopen, hauth, rcAuth_spares hauth a.sigpipe, Bool.false_or]

/-- A failed attempt that the client lives through and that leaves `want` as it
is: on TCP no failed STAT raises the signal. -/
def Attempt.Spared (conf : HostConf) (jobid : ℤ) (a : Attempt) : Prop :=
  Fails conf jobid a.dial .connect ∨ Fails conf jobid a.dial .stat ∨
    (Fails conf jobid a.dial .sendStat ∧ (conf.kind = .tcp → a.sigpipe = false))

theorem Attempt.Spared.turn
    {conf : HostConf} {jobid : ℤ} {a : Attempt} (h : a.Spared conf jobid) (p : Poll) :
    a.kills conf jobid p = false ∧ pollTurn conf jobid p a.dial = (none, p) := by
  rcases h with hconnect | hstat | ⟨hsend, hsig⟩
  · refine ⟨?_, pollTurn_early hconnect (.inl rfl) p⟩
    cases hconnect with
    | connect hopen => simp only [Attempt.kills, hopen]
  · refine ⟨?_, pollTurn_early hstat (.inr (.inr rfl)) p⟩
    cases hstat with
    | @stat link₀ link₁ greet hopen hauth hsend hreply =>
        rw [kills_opened hopen hauth, sendKills_sent hsend]
        cases hcmd : rcCmd link₁ (ascii "STAT") with
        | mk reply link =>
            rw [hcmd] at hreply
            dsimp only at hreply
            rw [hreply]
            rfl
  · refine ⟨?_, pollTurn_early hsend (.inr (.inl rfl)) p⟩
    cases hsend with
    | @sendStat link₀ link₁ greet hopen hauth hfail =>
        have hnone := rcCmd_unsent hfail
        have hspared : sendKills conf a.sigpipe link₁ (ascii "STAT") = false := by
          unfold sendKills
          by_cases htcp : conf.kind = .tcp
          · simp [hsig htcp]
          · simp [htcp]
        rw [kills_opened hopen hauth, hspared]
        cases hcmd : rcCmd link₁ (ascii "STAT") with
        | mk reply link =>
            rw [hcmd] at hnone
            dsimp only at hnone
            rw [hnone]
            rfl

/-- An attempt that fails early and is not spared ends the client. -/
theorem kills_of_early
    {conf : HostConf} {jobid : ℤ} {a : Attempt} {kind : FailKind}
    (hfails : Fails conf jobid a.dial kind) (hearly : kind.Early)
    (hnot : ¬ a.Spared conf jobid) (p : Poll) : a.kills conf jobid p = true := by
  rcases hearly with rfl | rfl | rfl
  · exact absurd (.inl hfails) hnot
  · have hsig : conf.kind = .tcp ∧ a.sigpipe = true := by
      by_contra hno
      refine hnot (.inr (.inr ⟨hfails, fun htcp => ?_⟩))
      simpa [htcp] using hno
    cases hfails with
    | sendStat hopen hauth hfail =>
        rw [kills_opened hopen hauth]
        simp [sendKills, hsig.1, hsig.2, hfail]
  · exact absurd (.inr (.inl hfails)) hnot

/-! ## The loop -/

section Loop

variable {conf : HostConf} {jobid : ℤ} {p : Poll} {failed : List Attempt}

theorem pollAttempts_spared
    (hspared : ∀ a ∈ failed, a.Spared conf jobid) (attempts : List Attempt) :
    pollAttempts conf jobid p (failed ++ attempts) = pollAttempts conf jobid p attempts := by
  induction failed with
  | nil => rfl
  | cons a failed ih =>
      obtain ⟨hlives, hturn⟩ := (hspared a (by simp)).turn p
      rw [List.cons_append, pollAttempts, hlives, hturn]
      exact ih fun other hother => hspared other (by simp [hother])

/-- With the request in `want`, no attempt brings the code home any more. -/
theorem pollAttempts_spent
    (hwant : p.want = resultLine jobid)
    (hfailed : ∀ a ∈ failed, ∃ kind, Fails conf jobid a.dial kind) {success : Attempt}
    {link : Link} (hanswer : Answered conf success.dial (statWant jobid) link)
    (rest : List Attempt) (n : ℕ) :
    (pollAttempts conf jobid p (failed ++ success :: rest)).1 ≠ .returned n := by
  have hgone : ∀ a : Attempt, ∀ link, Answered conf a.dial (statWant jobid) link →
      ∀ attempts, (pollAttempts conf jobid p (a :: attempts)).1 ≠ .returned n := by
    intro a link hanswer attempts
    rw [pollAttempts]
    by_cases hkills : a.kills conf jobid p = true
    · rw [if_pos hkills]
      simp
    · rw [if_neg hkills, pollTurn_of_answered hanswer, pollStat_spent hwant]
      simp
  induction failed with
  | nil => exact hgone success link hanswer rest
  | cons a failed ih =>
      obtain ⟨kind, hfails⟩ := hfailed a (by simp)
      rcases hfails.answered with hearly | ⟨link', hanswer'⟩
      · rw [List.cons_append, pollAttempts]
        by_cases hkills : a.kills conf jobid p = true
        · rw [if_pos hkills]
          simp
        · rw [if_neg hkills, pollTurn_early hfails hearly]
          exact ih fun other hother => hfailed other (by simp [hother])
      · exact hgone a link' hanswer' _

theorem pollAttempts_lost
    (hwant : p.want = statWant jobid)
    (hfailed : ∀ a ∈ failed, ∃ kind, Fails conf jobid a.dial kind)
    (hlost : ∃ a ∈ failed, ¬ a.Spared conf jobid) {success : Attempt} {link : Link}
    (hanswer : Answered conf success.dial (statWant jobid) link) (rest : List Attempt) (n : ℕ) :
    (pollAttempts conf jobid p (failed ++ success :: rest)).1 ≠ .returned n := by
  induction failed with
  | nil => simp at hlost
  | cons a failed ih =>
      have hfailed' : ∀ other ∈ failed, ∃ kind, Fails conf jobid other.dial kind :=
        fun other hother => hfailed other (by simp [hother])
      rw [List.cons_append, pollAttempts]
      by_cases hspared : a.Spared conf jobid
      · obtain ⟨hlives, hturn⟩ := hspared.turn p
        rw [hlives, hturn]
        apply ih hfailed'
        obtain ⟨other, hother, hnot⟩ := hlost
        rcases List.mem_cons.mp hother with rfl | hmem
        · exact absurd hspared hnot
        · exact ⟨other, hmem, hnot⟩
      · obtain ⟨kind, hfails⟩ := hfailed a (by simp)
        by_cases hkills : a.kills conf jobid p = true
        · rw [if_pos hkills]
          simp
        · have hlate : ¬ kind.Early := fun hearly =>
            hkills (kills_of_early hfails hearly hspared p)
          obtain ⟨p', hwant', hturn⟩ := pollTurn_late hfails hlate hwant
          rw [if_neg hkills, hturn]
          exact pollAttempts_spent hwant' hfailed' hanswer rest n

end Loop

theorem pollTurn_success
    {conf : HostConf} {jobid : ℤ} {dial : Dial} {code : ℕ}
    (hsucc : Succeeds conf jobid dial code) {p : Poll}
    (hwant : p.want = statWant jobid) (hfd1 : p.fd1.Steady)
    (hfd2 : p.fd2.Steady) :
    (pollTurn conf jobid p dial).1 = some ((code % 256 : ℕ) : ℤ) := by
  obtain ⟨link, fs, rest, hanswer, hsend, hinp, hpending⟩ := hsucc.fetch
  have hrc : Rc.Steady ⟨link.inp, p.fd1, p.fd2, p.mb⟩ := ⟨hinp, hfd1, hfd2⟩
  obtain ⟨rc', _, hstream⟩ := rcStream_complete hrc fs code hpending
  have hcode : ¬ ((code % 256 : ℕ) : ℤ) < 0 := by omega
  rw [pollTurn_of_answered hanswer]
  simp only [pollStat, hwant, if_true, hsend, pollStream, hstream]
  rw [if_neg hcode]

/-- The attempt that succeeds has sent its lines. -/
theorem Succeeds.lives
    {conf : HostConf} {jobid : ℤ} {a : Attempt} {code : ℕ}
    (hsucc : Succeeds conf jobid a.dial code) (p : Poll) : a.kills conf jobid p = false := by
  obtain ⟨link, fs, rest, ⟨link₀, greet, link₁, hopen, hauth, hcmd⟩, hsend, -, -⟩ := hsucc.fetch
  rw [kills_opened hopen hauth, sendKills_sent (rcCmd_sent_line hcmd), hcmd]
  simp only [sendKills_sent hsend, Bool.and_false, Bool.or_false]

/-- `poll_result` returns the code of the first whole fetch exactly when every
failed attempt before it had failed by the time STAT would be answered, and no
STAT that failed on TCP raised SIGPIPE: a failure behind that answer makes it
give up with -1, and the signal ends the client. -/
theorem pollResult_eq_code_iff
    (conf : HostConf) (jobid : ℤ) (fd1 fd2 : Sink) (mb : Option MapBack)
    (hfd1 : fd1.Steady) (hfd2 : fd2.Steady)
    (failed : List Attempt) (success : Attempt) (rest : List Attempt) (code : ℕ)
    (hfailed : ∀ a ∈ failed, ∃ kind, Fails conf jobid a.dial kind)
    (hsucc : Succeeds conf jobid success.dial code) :
    (pollRun conf jobid fd1 fd2 mb (failed ++ success :: rest)).1 =
        .returned ((code % 256 : ℕ) : ℤ) ↔
      ∀ a ∈ failed, a.Spared conf jobid := by
  constructor
  · intro hcode
    by_contra hlost
    push Not at hlost
    obtain ⟨link, _, _, hanswer, _⟩ := hsucc.fetch
    exact pollAttempts_lost (p := ⟨statWant jobid, fd1, fd2, mb⟩) rfl hfailed hlost hanswer rest
      (code % 256) hcode
  · intro hspared
    have hturn := pollTurn_success hsucc (p := ⟨statWant jobid, fd1, fd2, mb⟩)
      rfl hfd1 hfd2
    rw [pollRun, pollAttempts_spared hspared, pollAttempts, hsucc.lives]
    revert hturn
    cases pollTurn conf jobid ⟨statWant jobid, fd1, fd2, mb⟩ success.dial with
    | mk result p' =>
        intro hturn
        dsimp only at hturn
        rw [hturn]
        rfl

def sampleHost : HostConf := ⟨.tcp, some (ascii "t")⟩

def sampleLink (sent rest : String) : Link :=
  ⟨⟨.tcp, ⟨[], ascii sent⟩⟩, ⟨[], ascii rest⟩⟩

def wholeDial : Dial :=
  some ([], ⟨[], ascii "GCDS 1 os h\nOK\nOK result 1\nO 3\nabcX 7\n"⟩)

def cutDial : Dial :=
  some ([], ⟨[], ascii "GCDS 1 os h\nOK\nOK result 1\nO 3\nab"⟩)

def sampleFrame : Frame := ⟨.out, ascii "abc", by decide, by decide⟩

theorem wholeDial_succeeds : Succeeds sampleHost 1 wholeDial 7 := by
  have hanswer : Answered sampleHost wholeDial (statWant 1)
      (sampleLink "AUTH t\nSTAT\n" "O 3\nabcX 7\n") :=
    ⟨sampleLink "" "OK\nOK result 1\nO 3\nabcX 7\n",
      ⟨ascii "os", ascii "h", false, false, false⟩,
      sampleLink "AUTH t\n" "OK result 1\nO 3\nabcX 7\n",
      by decide, by decide, by decide⟩
  exact ⟨_, [sampleFrame], [], hanswer, by decide, by decide, by decide⟩

theorem cutDial_fails : Fails sampleHost 1 cutDial .cut := by
  have hanswer : Answered sampleHost cutDial (statWant 1)
      (sampleLink "AUTH t\nSTAT\n" "O 3\nab") :=
    ⟨sampleLink "" "OK\nOK result 1\nO 3\nab",
      ⟨ascii "os", ascii "h", false, false, false⟩,
      sampleLink "AUTH t\n" "OK result 1\nO 3\nab",
      by decide, by decide, by decide⟩
  have hcut : (sampleLink "AUTH t\nSTAT\n" "O 3\nab").inp.pending ++
      ascii "cX 7\n" = encodeStream [sampleFrame] 7 := by
    decide
  exact .cut hanswer (by decide) (by decide) (by decide) hcut

/-- A daemon that closes the connection behind its answer to AUTH: the answer to
STAT is lost. -/
def goneDial : Dial := some ([], ⟨[], ascii "GCDS 1 os h\nOK\n"⟩)

/-- The same, found out by the send of STAT. -/
def brokenDial : Dial :=
  some ([some 5, some 1, none], ⟨[], ascii "GCDS 1 os h\nOK\n"⟩)

theorem goneDial_fails : Fails sampleHost 1 goneDial .stat :=
  .stat (by decide : rcOpen sampleHost goneDial =
      some (sampleLink "" "OK\n", ⟨ascii "os", ascii "h", false, false, false⟩))
    (by decide : rcAuth sampleHost (sampleLink "" "OK\n") = (true, sampleLink "AUTH t\n" ""))
    (by decide) (by decide)

/-- A refused connection and a lost answer are survived. -/
theorem pollResult_after_refusal :
    (pollRun sampleHost 1 ⟨[], []⟩ ⟨[], []⟩ none
      [⟨none, true⟩, ⟨goneDial, true⟩, ⟨wholeDial, true⟩]).1 =
        .returned ((7 % 256 : ℕ) : ℤ) := by
  have hspared : ∀ a ∈ [(⟨none, true⟩ : Attempt), ⟨goneDial, true⟩],
      a.Spared sampleHost 1 := by
    intro a ha
    rcases List.mem_pair.mp ha with rfl | rfl
    · exact .inl (.connect rfl)
    · exact .inr (.inl goneDial_fails)
  have hfailed : ∀ a ∈ [(⟨none, true⟩ : Attempt), ⟨goneDial, true⟩],
      ∃ kind, Fails sampleHost 1 a.dial kind := by
    intro a ha
    rcases List.mem_pair.mp ha with rfl | rfl
    · exact ⟨.connect, .connect rfl⟩
    · exact ⟨.stat, goneDial_fails⟩
  exact (pollResult_eq_code_iff sampleHost 1 ⟨[], []⟩ ⟨[], []⟩ none (by decide) (by decide)
    [⟨none, true⟩, ⟨goneDial, true⟩] ⟨wholeDial, true⟩ [] 7 hfailed wholeDial_succeeds).mpr
    hspared

/-- A broken fetch is not: the next attempt, though whole, ends in -1. -/
theorem pollResult_after_cut :
    Fails sampleHost 1 cutDial .cut ∧ Succeeds sampleHost 1 wholeDial 7 ∧
      (pollRun sampleHost 1 ⟨[], []⟩ ⟨[], []⟩ none
        [⟨cutDial, false⟩, ⟨wholeDial, false⟩]).1 ≠ .returned ((7 % 256 : ℕ) : ℤ) :=
  ⟨cutDial_fails, wholeDial_succeeds, by decide⟩

example : (pollRun sampleHost 1 ⟨[], []⟩ ⟨[], []⟩ none
    [⟨brokenDial, true⟩, ⟨wholeDial, true⟩]).1 = .killed := by
  decide

end GrandCross
