import GrandCross.GcdsRun
import GrandCross.IxStdin
import GrandCross.TransferWhole

/-!
# An interactive run of gcds

`gcds -i` against a daemon with RUNI: the lines are those of a plain run, and
behind them the two ends talk to each other.  The daemon takes frames only
from what the client has sent; the client listens to what the daemon sends.
-/

namespace GrandCross

open CText
open Transfer

/-! ## The daemon -/

section

variable {cfg : Cfg} {d : Daemon}

theorem playTurns_run (cfg : Cfg) (d : Daemon) (turns : List Turn) :
    ∃ evs, playTurns cfg d turns = run cfg d evs := by
  have hserve : ∀ (o : Answers) (inputs : List Input) (d : Daemon),
      ∃ evs, ctlServe cfg o d inputs = run cfg d evs := by
    intro o inputs
    induction inputs with
    | nil =>
        intro d
        unfold ctlServe
        split_ifs
        · exact ⟨[.hup o], rfl⟩
        · exact ⟨[], rfl⟩
    | cons input inputs ih =>
        intro d
        unfold ctlServe
        split_ifs
        · obtain ⟨evs, hevs⟩ := ih (receive cfg d input)
          rw [hevs]
          cases hinput : input.1 with
          | some b => exact ⟨.rx b input.2 :: evs, by simp [receive, hinput, run, step]⟩
          | none => exact ⟨.hup input.2 :: evs, by simp [receive, hinput, run, step]⟩
        · exact ⟨[], rfl⟩
  have hplay : ∀ (t : Turn) (d : Daemon), ∃ evs, t.play cfg d = run cfg d evs := by
    intro t d
    obtain ⟨evs, hevs⟩ := hserve t.answers t.ctl (step cfg d (.select t.sel t.answers))
    unfold Turn.play
    rw [hevs]
    cases t.frame with
    | none => exact ⟨.select t.sel t.answers :: evs, rfl⟩
    | some f =>
        refine ⟨.select t.sel t.answers :: (evs ++ f.encode.map fun b => .rx b t.answers), ?_⟩
        dsimp only
        rw [feed_eq_run]
        simp [run]
  induction turns generalizing d with
  | nil => exact ⟨[], rfl⟩
  | cons t turns ih =>
      unfold playTurns
      split_ifs
      · obtain ⟨first, hfirst⟩ := hplay t d
        obtain ⟨rest, hrest⟩ := ih (t.play cfg d)
        refine ⟨first ++ rest, ?_⟩
        rw [hrest, hfirst]
        simp [run]
      · exact ⟨[], rfl⟩

theorem Grows.ctlServe {c : Chan} (h : Grows c d) (o : Answers) (inputs : List Input) :
    Grows c (ctlServe cfg o d inputs) := by
  induction inputs generalizing d with
  | nil =>
      unfold GrandCross.ctlServe
      split_ifs
      · exact h.hup o
      · exact h
  | cons input inputs ih =>
      unfold GrandCross.ctlServe
      split_ifs
      · exact ih (h.receive input)
      · exact h

theorem Grows.playTurns {c : Chan} (h : Grows c d) (turns : List Turn) :
    Grows c (playTurns cfg d turns) := by
  induction turns generalizing d with
  | nil => exact h
  | cons t turns ih =>
      unfold GrandCross.playTurns
      split_ifs
      · apply ih
        have hserved : Grows c (GrandCross.ctlServe cfg t.answers
            (step cfg d (.select t.sel t.answers)) t.ctl) :=
          (h.select t.sel t.answers).ctlServe t.answers t.ctl
        unfold Turn.play
        cases t.frame with
        | none => exact hserved
        | some f => exact hserved.feed t.answers f.encode
      · exact h

theorem goesOn_playTurns (cfg : Cfg) (turns : List Turn) : GoesOn (playTurns cfg · turns) := by
  refine ⟨fun d hidle => ?_, fun h => h.playTurns turns⟩
  cases turns with
  | nil => rfl
  | cons t turns => exact if_neg (by rw [hidle]; exact Bool.false_ne_true)

/-- A RUNI of a command that can be started, or not. -/
theorem doRuni_starts
    (d : Daemon) (hix : cfg.build.ix = true ∧ cfg.ix = true) (o : Answers) {cmd : Bytes}
    (hcmd : cmd.length ≤ 1023) :
    doRuni cfg o d [] (some cmd) =
      match o.child with
      | none => reply cfg o (acceptRun d .runi cmd []) [] (ascii "ERR 500 exec failed")
      | some child =>
          { acceptRun d .runi cmd [] with ctl := .live (Live.start .runi [] 0 child) } := by
  have hscript : buildScript scriptMax cmd [] = some (scriptText [] cmd) :=
    buildScript_room (by simp) (by simp) hcmd
  have hexec : doRuni cfg o d [] (some cmd) =
      liveExec cfg o (acceptRun d .runi cmd []) .runi [] cmd := by
    simp only [doRuni, hix.1, hix.2, Bool.and_self, if_true]
  rw [hexec]
  unfold liveExec
  cases o.child with
  | none => simp only [hscript]
  | some child => simp only [hscript]

end

/-! ## The client -/

theorem ixServer_typed
    {base : Bytes} {turns : List IxTurn} {st : IxState} (h : IxTyped base turns st)
    (signal : Bool) : IxTyped base turns (ixServer st signal).2 := by
  unfold ixServer
  split
  · exact h
  · split
    · exact ⟨h.steady, h.sent, h.stdinOpen, h.sentK⟩
    · exact ⟨h.steady, h.sent, h.stdinOpen, h.sentK⟩

/-- Whatever the client hears, it has sent what is typed in the turns it took. -/
theorem IxTyped.loop
    {base : Bytes} {played : List IxTurn} {st : IxState} (h : IxTyped base played st)
    (turns : List IxTurn) :
    ∃ before after, turns = before ++ after ∧ (ixLoop st turns).2.chan.sent =
      base ++ (typedFrames (played ++ before)).flatMap ClientFrame.encode := by
  induction turns generalizing played st with
  | nil => exact ⟨[], [], rfl, by rw [List.append_nil]; exact h.sent⟩
  | cons t turns ih =>
      rw [ixLoop]
      by_cases hk : t.interrupt = true ∧ st.sentK = true
      · refine ⟨[], t :: turns, rfl, ?_⟩
        have hgives : ixTurn st t = (some (-1), st) := by
          rw [ixTurn, if_pos hk.1, ixInterrupt, if_pos hk.2]
          rfl
        rw [hgives, List.append_nil]
        exact h.sent
      · obtain ⟨st', htyped, -, hturn⟩ := h.turn hk
        have hstep : IxTyped base (played ++ [t]) (ixTurn st t).2 := by
          rw [hturn]
          split_ifs
          · exact ixServer_typed htyped t.signal
          · exact htyped
        cases hres : ixTurn st t with
        | mk code st'' =>
            rw [hres] at hstep
            cases code with
            | some code => exact ⟨[t], turns, rfl, hstep.sent⟩
            | none =>
                obtain ⟨before, after, hsplit, hsent⟩ := ih hstep
                refine ⟨t :: before, after, by rw [hsplit]; rfl, ?_⟩
                rw [List.append_assoc] at hsent
                exact hsent

/-- A daemon that could not start the command. -/
theorem ixLoop_refused
    {base : Bytes} {played : List IxTurn} {st : IxState} (h : IxTyped base played st)
    (hrc : st.rc.Steady) (hmb : st.rc.mb = none)
    (hpending : st.rc.inp.pending = ascii "ERR 500 exec failed" ++ [lf])
    (turns : List IxTurn) :
    ((ixLoop st turns).1 = none ∨ (ixLoop st turns).1 = some (-1)) ∧
      (ixLoop st turns).2.rc.fd1 = st.rc.fd1 ∧ (ixLoop st turns).2.rc.fd2 = st.rc.fd2 := by
  induction turns generalizing played st with
  | nil => exact ⟨.inl rfl, rfl, rfl⟩
  | cons t turns ih =>
      rw [ixLoop]
      by_cases hk : t.interrupt = true ∧ st.sentK = true
      · have hgives : ixTurn st t = (some (-1), st) := by
          rw [ixTurn, if_pos hk.1, ixInterrupt, if_pos hk.2]
          rfl
        rw [hgives]
        exact ⟨.inr rfl, rfl, rfl⟩
      · obtain ⟨st', htyped, hsame, hturn⟩ := h.turn hk
        rw [hturn]
        rw [← hsame] at hrc hmb hpending ⊢
        split_ifs
        · obtain ⟨inp, hget, hframe⟩ := rcOutFrame_refused hrc hmb hpending
          cases hsignal : t.signal with
          | true => exact ⟨.inr rfl, rfl, rfl⟩
          | false =>
              have hserver : ixServer st' false =
                  (some (-1), { st' with rc := { st'.rc with inp := inp } }) := by
                unfold ixServer
                rw [if_neg Bool.false_ne_true, hget]
                dsimp only
                rw [hframe]
              rw [hserver]
              exact ⟨.inr rfl, rfl, rfl⟩
        · exact ih htyped hrc hmb hpending

theorem frames_le_payload (fs : List Frame) :
    fs.length ≤ (payload .out fs).length + (payload .err fs).length := by
  induction fs with
  | nil => exact Nat.le_refl _
  | cons f fs ih =>
      have hpos := f.pos
      rw [payload_cons, payload_cons, List.length_append, List.length_append, List.length_cons]
      cases f.stream with
      | out =>
          rw [if_pos rfl, if_neg (by decide)]
          simp only [List.length_nil]
          omega
      | err =>
          rw [if_pos rfl, if_neg (by decide)]
          simp only [List.length_nil]
          omega

/-! ## Both ends -/

/-- How the client ends once the answer of the daemon is complete. -/
inductive IxOutcome (child : Child) (w : GcdsWorld) (r : GcdsEnd) : Prop where
  | ended (code : r.code = some (child.status.code : ℤ))
      (fd1 : r.fd1.taken = w.fd1.taken ++ child.out)
      (fd2 : r.fd2.taken = w.fd2.taken ++ child.err)
  | gaveUp (code : r.code = some exFail) (twice : 2 ≤ interrupts w.turns)
  | cutOff (code : r.code = some exFail) (broke : ∃ t ∈ w.turns, t.broken = true)
  | waits (code : r.code = none) (once : interrupts w.turns ≤ 1)
      (few : heard w.turns ≤ child.out.length + child.err.length)

/-- The command has been run in `dir` behind `log`, fed with what is typed. -/
structure Interacted (cfg : Cfg) (o : Answers) (cmd : Bytes) (turns : List Turn) (d' : Daemon)
    (w : GcdsWorld) (sent : Bytes) (log : List Obs) (dir : Bytes) (r : GcdsEnd) : Prop where
  logged : ∃ rest, d'.log = log ++ .run .runi cmd [] :: rest
  typed : ∃ played unplayed, w.turns = played ++ unplayed ∧
    r.sent = some (sent ++ (typedFrames played).flatMap ClientFrame.encode)
  unstarted : o.child = none →
    (r.code = none ∨ r.code = some exFail) ∧ r.fd1 = w.fd1 ∧ r.fd2 = w.fd2
  delivered : ∀ child, o.child = some child → d'.ctl.supervises = false → IxOutcome child w r
  given : ∀ child, o.child = some child → ∃ d : Daemon,
    d.ctl = .live (Live.start .runi [] 0 child) ∧ d.cwd = dir ∧ d' = playTurns cfg d turns ∧
      (runiFrames cfg d turns).flatMap (Taken.writes cfg) <+: typedBytes w.turns

/-- The frames that the daemon takes have been sent. -/
def TakenFrom (turns : List Turn) (sent : Bytes) (r : GcdsEnd) : Prop :=
  ∀ all, r.sent = some all →
    sent ++ (turns.filterMap Turn.frame).flatMap ClientFrame.encode <+: all

section

variable {cfg : Cfg} {o : Answers} {w : GcdsWorld} {turns : List Turn} {cmd : Bytes}

/-- The end of the loop over a whole answer. -/
theorem IxEnd.outcome
    {base : Bytes} {rc : Rc} {child : Child} {fs : List Frame} (hmb : rc.mb = none)
    (hfd1 : rc.fd1 = w.fd1) (hfd2 : rc.fd2 = w.fd2)
    (hpayload : ∀ s, payload s fs = child.text s) {played unplayed : List IxTurn}
    (hsplit : w.turns = played ++ unplayed) {res : Option ℤ × IxState}
    (h : IxEnd base rc fs child.status.code [] played unplayed res) (link : Option Link) :
    IxOutcome child w ⟨res.1.map exitCode, link, res.2.rc.fd1, res.2.rc.fd2⟩ := by
  have hcode : child.status.code % 256 = child.status.code :=
    Nat.mod_eq_of_lt child.status.code_lt
  have hframes := frames_le_payload fs
  rw [hpayload .out, hpayload .err] at hframes
  cases h with
  | going run =>
      rw [List.append_nil] at hsplit
      refine .waits rfl ?_ ?_
      · rw [hsplit]
        exact run.once
      · rw [hsplit]
        exact run.hears.count.trans hframes
  | exit unplayed types once count took =>
      obtain ⟨-, hout, herr⟩ := took.plain hmb
      rw [hpayload, hfd1] at hout
      rw [hpayload, hfd2] at herr
      refine .ended ?_ hout herr
      rw [hcode, Option.map_some, exitCode, if_neg (by omega)]
  | abort t unplayed run first second =>
      refine .gaveUp rfl ?_
      have htwice : interrupts (played ++ t :: unplayed) =
          interrupts played + (interrupts unplayed + 1) := by
        simp [interrupts, second]
      rw [hsplit, htwice, first]
      omega
  | broken before t unplayed last broke =>
      refine .cutOff rfl ⟨t, ?_, broke⟩
      rw [hsplit, last]
      simp

/-- What is sent, whatever is heard. -/
theorem gcdsRuni_sent
    (w : GcdsWorld) (cmd : Bytes) {link : Link} {sent pending : Bytes}
    (h : Opened link sent pending) :
    ∃ played unplayed, w.turns = played ++ unplayed ∧
      (gcdsRuni w none cmd link).sent =
        some (sent ++ (requestLine (ascii "RUNI ") cmd ++ [lf]) ++
          (typedFrames played).flatMap ClientFrame.encode) := by
  obtain ⟨st, htyped, -, hloop⟩ := ixClient_typed h.chan ⟨link.inp, w.fd1, w.fd2, none⟩ cmd
  obtain ⟨played, unplayed, hsplit, hall⟩ := htyped.loop w.turns
  rw [List.nil_append, h.sent] at hall
  refine ⟨played, unplayed, hsplit, ?_⟩
  unfold gcdsRuni GcdsEnd.sent
  rw [Option.map_some, hloop, hall]

theorem gcdsRuni_refused
    (hfd1 : w.fd1.Steady) (hfd2 : w.fd2.Steady) {link : Link} {sent : Bytes}
    (h : Opened link sent (ascii "ERR 500 exec failed" ++ [lf])) :
    ((gcdsRuni w none cmd link).code = none ∨ (gcdsRuni w none cmd link).code = some exFail) ∧
      (gcdsRuni w none cmd link).fd1 = w.fd1 ∧ (gcdsRuni w none cmd link).fd2 = w.fd2 := by
  let rc : Rc := ⟨link.inp, w.fd1, w.fd2, none⟩
  have hrc : rc.Steady := ⟨h.inp, hfd1, hfd2⟩
  obtain ⟨st, htyped, hst, hloop⟩ := ixClient_typed h.chan rc cmd
  obtain ⟨hcode, hkept1, hkept2⟩ := ixLoop_refused htyped (hst ▸ hrc) (by rw [hst])
    (by rw [hst]; exact h.pending) w.turns
  rw [hst] at hkept1 hkept2
  unfold gcdsRuni
  dsimp only
  rw [hloop]
  refine ⟨?_, hkept1, hkept2⟩
  rcases hcode with hcode | hcode
  · rw [hcode]
    exact .inl rfl
  · rw [hcode]
    exact .inr rfl

theorem gcdsRuni_answered
    (hfd1 : w.fd1.Steady) (hfd2 : w.fd2.Steady) {child : Child} {fs : List Frame}
    (hpayload : ∀ s, payload s fs = child.text s) {link : Link} {sent : Bytes}
    (h : Opened link sent (encodeStream fs child.status.code)) :
    IxOutcome child w (gcdsRuni w none cmd link) := by
  let rc : Rc := ⟨link.inp, w.fd1, w.fd2, none⟩
  have hrc : rc.Steady := ⟨h.inp, hfd1, hfd2⟩
  have hanswer : rc.inp.pending = encodeStream fs child.status.code ++ [] := by
    rw [List.append_nil]
    exact h.pending
  obtain ⟨st, hstart, hloop⟩ := ixClient_start h.chan hrc hanswer cmd
  obtain ⟨before, after, hsplit, hend⟩ := hstart.loop w.turns
  rw [← hloop, List.nil_append] at hend
  exact hend.outcome rfl rfl rfl hpayload hsplit _

theorem gcdsRuni_runs
    (hcv : cfg.cv = none) (hmaxout : cfg.maxout = 0)
    (hix : cfg.build.ix = true ∧ cfg.ix = true)
    (hturns : ∀ t ∈ turns, t.sel.sess = t.frame.isSome)
    (hfd1 : w.fd1.Steady) (hfd2 : w.fd2.Steady) (hcmd : LineClean cmd)
    (hnul : nul ∉ cmd) (hfits : cmd.length < lineMax - 8) (d' : Daemon) :
    RunsOn cfg o (playTurns cfg · turns) (requestLine (ascii "RUNI ") cmd) d'
      (gcdsRuni w none cmd)
      fun sent log dir r => TakenFrom turns sent r →
        Interacted cfg o cmd turns d' w sent log dir r := by
  intro d link sent pending h hopened hd' hpending hfifo
  have hverb : LineClean (ascii "RUNI") ∧ nul ∉ ascii "RUNI" ∧ sp ∉ ascii "RUNI" := by decide
  have hline : ascii "RUNI " = ascii "RUNI" ++ [sp] := by decide
  have hruni : verbOf (ascii "RUNI") = .runi := by decide
  have hfour : (ascii "RUNI").length = 4 := rfl
  have hmax : lineMax = 1024 := rfl
  let d₁ : Daemon := { d with ctl := .session true [] (ascii "RUNI" ++ sp :: cmd) }
  have hheard : feed cfg o d (requestLine (ascii "RUNI ") cmd ++ [lf]) =
      doRuni cfg o d₁ [] (some cmd) := by
    rw [hline, h.hears hcv o hverb hcmd hnul (by omega), hruni]
    rfl
  have hstarts := doRuni_starts d₁ hix o (show cmd.length ≤ 1023 by omega)
  have haccepted : (acceptRun d₁ .runi cmd []).chan.Steady := h.steady
  dsimp only at hd'
  rw [hheard] at hd'
  obtain ⟨played, unplayed, hsplit, hsent⟩ := gcdsRuni_sent w cmd hopened
  -- the frames that are taken are the first ones that are typed
  have hfrom := hfifo _ hsent
  rw [List.prefix_append_right_inj] at hfrom
  have hframes := clientFrames_prefix hfrom
  have hok : ∀ t ∈ turns, t.Ok cfg .runi := by
    intro t ht
    refine ⟨hturns t ht, fun hne => absurd rfl hne, fun f hf => ?_⟩
    have hmem : f ∈ turns.filterMap Turn.frame := List.mem_filterMap.mpr ⟨t, ht, hf⟩
    exact ClientFrame.fromClient_ok (typedFrames_fromClient played f (hframes.subset hmem))
  refine ⟨?_, ⟨played, unplayed, hsplit, hsent⟩, fun hchild => ?_, fun child hchild hover => ?_,
    fun child hchild => ?_⟩
  · have hran : ∀ s₀, Inside cfg s₀ (acceptRun d₁ .runi cmd []) (.session true) →
        Inv cfg s₀ (doRuni cfg o d₁ [] (some cmd)) := by
      intro s₀ hinside
      simp only [doRuni, hix.1, hix.2, Bool.and_self, if_true]
      exact hinside.inv_liveExec o (by decide) [] cmd
    obtain ⟨evs, hevs⟩ := playTurns_run cfg (doRuni cfg o d₁ [] (some cmd)) turns
    have hlogged := h.logged .runi (ascii "RUNI" ++ sp :: cmd) cmd hran evs
    rwa [← hevs, ← hd'] at hlogged
  · rw [hchild] at hstarts
    dsimp only at hstarts
    obtain ⟨c, hc, -, -, hreply⟩ := reply_steady cfg o haccepted []
      (ascii "ERR 500 exec failed")
    rw [hstarts, hreply] at hd'
    rw [hd', (goesOn_playTurns cfg turns).idle _ rfl] at hpending
    have herr : pending = ascii "ERR 500 exec failed" ++ [lf] :=
      (List.append_cancel_left (hc.symm.trans hpending)).symm
    exact gcdsRuni_refused hfd1 hfd2 (herr ▸ hopened)
  · rw [hchild] at hstarts
    dsimp only at hstarts
    have hwatching : Turned cfg d.chan.sent child [] .runi (doRuni cfg o d₁ [] (some cmd)) := by
      rw [hstarts]
      exact .watching _ rfl rfl rfl ((pumping_start haccepted (by decide)).withCtl _)
    have hturned := playTurns_turned hcv hok hwatching
    rw [← hd'] at hturned
    cases hturned with
    | watching l hctl =>
        rw [hctl] at hover
        exact absurd hover (by simp [Ctl.supervises])
    | whole hwhole =>
        obtain ⟨fs, hstream, hpayload⟩ := hwhole.sent
        have hanswer : pending = encodeStream fs child.status.code :=
          List.append_cancel_left (hpending.symm.trans hstream)
        exact gcdsRuni_answered hfd1 hfd2 (hpayload hmaxout) (hanswer ▸ hopened)
  · rw [hchild] at hstarts
    dsimp only at hstarts
    have hctl : (doRuni cfg o d₁ [] (some cmd)).ctl = .live (Live.start .runi [] 0 child) := by
      rw [hstarts]
    have hquiet : (doRuni cfg o d₁ [] (some cmd)).job.pending = false := by
      rw [hstarts]
      exact h.pending
    refine ⟨doRuni cfg o d₁ [] (some cmd), hctl, by rw [hstarts]; rfl, hd', ?_⟩
    refine (typed_frames hctl hquiet hframes).1.trans ?_
    rw [hsplit]
    exact typedBytes_append played unplayed

end

/-- A run of `gcds -i`, whatever the order of the turns is at both ends: nothing
has been run, or the command has, in the mapped directory, and is given what is
typed; gcds ends with its code and its output, or at the second interrupt, or at
one that breaks a read of the session. -/
theorem gcds_interactive_exact
    {cfg₀ cfg : Cfg} {tmpdir u : Bytes} {asyncOk liveOk : Bool}
    (hinit : cfg = sessionInit cfg₀ tmpdir u asyncOk liveOk true) (hgreets : cfg₀.Greets)
    (hcv : cfg₀.cv = none) (hmaxout : cfg₀.maxout = 0) (hkind : cfg₀.kind = .tcp)
    (hix : cfg₀.build.ix = true) {d : Daemon} (hctl : d.ctl = .accept) {peer : Bytes}
    (hpeer : cfg₀.peerOk peer = true) {plan wplan rplan : List (Option ℕ)} (hplan : none ∉ plan)
    (hw : none ∉ wplan) (hr : none ∉ rplan) (o : Answers) {kv : List GcdsKv} {host t : Bytes}
    (hconf : peerConf kv host = some ⟨.tcp, some t⟩)
    (ht : lf ∉ t ∧ nul ∉ t ∧ t.length < confValMax) {opts : ClientOpts}
    (hopts : opts.ix = true ∧ opts.mapback = false)
    {w : GcdsWorld} (hfd1 : w.fd1.Steady) (hfd2 : w.fd2.Steady) {cwd : PmResult}
    (hmap : pmCwd kv host w.getcwd confValMax = cwd)
    (hcwd : ∀ p, cwd = .mapped p → LineClean p ∧ nul ∉ p) {cmd : Bytes}
    (hcmd : LineClean cmd ∧ nul ∉ cmd ∧ cmd.length < lineMax - 8) {turns : List Turn}
    (hturns : ∀ t ∈ turns, t.sel.sess = t.frame.isSome) {d' : Daemon}
    (hd' : d' = playTurns cfg (feed cfg o (step cfg d (.accept peer plan o))
      (lineText (sessionLines cfg o t cwd (requestLine (ascii "RUNI ") cmd)))) turns)
    (hdial : w.dial = some (wplan, ⟨rplan, d'.chan.sent⟩))
    (hfifo : TakenFrom turns (lineText (sessionLines cfg o t cwd
      (requestLine (ascii "RUNI ") cmd))) (gcdsRun kv host opts cmd w)) :
    let sent := lineText (sessionLines cfg o t cwd (requestLine (ascii "RUNI ") cmd))
    let log := d.log ++ sessionLog cfg o t cwd
    match sessionDir cfg o t d.cwd cwd with
    | none => Declined sent log d' w (gcdsRun kv host opts cmd w)
    | some dir => Interacted cfg o cmd turns d' w sent log dir (gcdsRun kv host opts cmd w) := by
  have hcv' : cfg.cv = none := by rw [hinit]; exact hcv
  have hmaxout' : cfg.maxout = 0 := by rw [hinit]; exact hmaxout
  have hix' : cfg.build.ix = true ∧ cfg.ix = true := by rw [hinit]; exact ⟨hix, rfl⟩
  have hview : cfg.view.capIx = true := hix'.2
  have hmain : ∀ link, gcdsCommand ⟨.tcp, some t⟩ kv host opts cmd w cfg.view link =
      gcdsBehind cwd w (gcdsRuni w none cmd) link := by
    intro link
    unfold gcdsCommand gcdsBehind
    rw [hmap, hopts.1, hopts.2, hview]
    rfl
  have hfits : ∀ p, cwd = .mapped p → LineClean p ∧ nul ∉ p ∧ p.length < confValMax :=
    fun p hp => ⟨(hcwd p hp).1, (hcwd p hp).2, pmCwd_length (hmap.trans hp)⟩
  have hend := gcdsRun_session hinit hgreets hcv hkind hctl hpeer hplan hw hr hconf ht hmain
    hfits (goesOn_playTurns cfg turns)
    (fun _ => gcdsRuni_runs hcv' hmaxout' hix' hturns hfd1 hfd2 hcmd.1 hcmd.2.1 hcmd.2.2 d') hd'
    hdial
  dsimp only
  revert hend
  cases sessionDir cfg o t d.cwd cwd with
  | none => exact fun hend => hend
  | some dir => exact fun hend => hend hfifo

/-! ## A word and its answer -/

/-- A byte is typed, and then the client listens to three frames. -/
def oneWord : List IxTurn :=
  [⟨false, some ⟨some (.data (ascii "y") (by decide) (by decide)), false, false⟩⟩, listening,
    listening, listening]

def answeringTurns : List Turn :=
  [frameTurn none (.input (ascii "y"))] ++
    ([{ out := some 1, err := some 1 }, { out := some 0, err := some 0 }, { reaped := true }] :
      List Sel).map fun sel => ⟨sel, {}, [], none⟩

def servedWord : Daemon :=
  playTurns plainCfg
    (feed plainCfg inMapped
      (step plainCfg (Daemon.init plainCfg [] (ascii "/") fun _ => none) (.accept [] [] inMapped))
      (ascii "AUTH t" ++ lf :: ascii "CWD /r/s" ++ lf :: ascii "RUNI x" ++ [lf])) answeringTurns

def typingWorld : GcdsWorld :=
  { answeredRun with dial := some ([], ⟨[], servedWord.chan.sent⟩), turns := oneWord }

theorem gcds_interactive_exact_word :
    IxOutcome twoStreams typingWorld
      (gcdsRun oneHost (ascii "h") { ClientOpts.start with ix := true } (ascii "x")
        typingWorld) := by
  have hgreets : Cfg.Greets { smallCfg with build := ⟨false, false, false, true, true⟩ } :=
    ⟨by decide, by decide, by decide, by decide⟩
  have hserved : servedWord = playTurns plainCfg
      (feed plainCfg inMapped
        (step plainCfg (Daemon.init plainCfg [] (ascii "/") fun _ => none)
          (.accept [] [] inMapped))
        (lineText (sessionLines plainCfg inMapped (ascii "t") (.mapped (ascii "/r/s"))
          (requestLine (ascii "RUNI ") (ascii "x"))))) answeringTurns := rfl
  have hsent : (gcdsRun oneHost (ascii "h") { ClientOpts.start with ix := true } (ascii "x")
      typingWorld).sent =
        some (ascii "AUTH t" ++ lf :: ascii "CWD /r/s" ++ lf :: ascii "RUNI x" ++ lf ::
          ascii "I 1" ++ lf :: ascii "y") := by
    decide +kernel
  have hfifo : TakenFrom answeringTurns (lineText (sessionLines plainCfg inMapped (ascii "t")
      (.mapped (ascii "/r/s")) (requestLine (ascii "RUNI ") (ascii "x"))))
      (gcdsRun oneHost (ascii "h") { ClientOpts.start with ix := true } (ascii "x")
        typingWorld) := by
    intro all hall
    rw [hsent, Option.some.injEq] at hall
    rw [← hall]
    decide +kernel
  have hend := gcds_interactive_exact (rfl : plainCfg = _) hgreets rfl rfl rfl rfl
    (rfl : (Daemon.init plainCfg [] (ascii "/") fun _ => none).ctl = .accept)
    (rfl : smallCfg.peerOk [] = true) (by decide) (by decide) (by decide) inMapped
    (rfl : peerConf oneHost (ascii "h") = some ⟨.tcp, some (ascii "t")⟩)
    (by decide) ⟨rfl, rfl⟩ (by decide) (by decide)
    (by decide +kernel :
      pmCwd oneHost (ascii "h") typingWorld.getcwd confValMax = .mapped (ascii "/r/s"))
    (by rintro p ⟨⟩; decide) (by decide) (by decide) hserved rfl hfifo
  have hdir : sessionDir plainCfg inMapped (ascii "t") (ascii "/") (.mapped (ascii "/r/s")) =
      some (ascii "/r/s") := by decide
  dsimp only at hend
  rw [show (Daemon.init plainCfg [] (ascii "/") fun _ => none).cwd = ascii "/" from rfl,
    hdir] at hend
  exact hend.delivered twoStreams rfl (by decide +kernel)

end GrandCross
