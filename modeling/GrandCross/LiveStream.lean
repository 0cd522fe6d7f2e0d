import GrandCross.PreAuth

/-!
# Streaming a running command

On a build without text conversion the supervision loop moves the two pipes
to the client as O and E frames.  `Pumping` says what has been sent and what
is still in the pipes; every pass keeps it or ends with the X line, however
the reads split and interleave the streams.
-/

namespace GrandCross

open CText
open Transfer

def Child.text (child : Child) : Stream → Bytes
  | .out => child.out
  | .err => child.err

/-- The frames since `base` and the bytes left in the pipes make up what the
child writes. -/
structure Pumping (cfg : Cfg) (base : Bytes) (child : Child) (d : Daemon)
    (l : Live) : Prop where
  steady : d.chan.Steady
  mode : l.mode ≠ .job
  runs : l.child = child
  sent : ∃ fs, d.chan.sent = base ++ encodeFrames fs ∧
    (cfg.maxout = 0 → ∀ s, payload s fs ++ (l.pipe s).getD [] = child.text s)

structure WholeStream (cfg : Cfg) (base : Bytes) (child : Child)
    (env : List EnvEntry) (d : Daemon) : Prop where
  ctl : d.ctl = .session true env []
  steady : d.chan.Steady
  sent : ∃ fs, d.chan.sent = base ++ encodeStream fs child.status.code ∧
    (cfg.maxout = 0 → ∀ s, payload s fs = child.text s)

/-- The reads that a pipe still needs: its bytes and the end of file. -/
def pipeLeft : Option Bytes → ℕ
  | none => 0
  | some rest => rest.length + 1

theorem pipeLeft_eq_zero {pipe : Option Bytes} : pipeLeft pipe = 0 ↔ pipe = none := by
  cases pipe <;> simp [pipeLeft]

@[simp] theorem afterRead_pipe
    (l : Live) (s t : Stream) (pipe : Option Bytes) (hold : Bytes) (n : ℕ) :
    (l.afterRead s pipe hold n).pipe t = if t = s then pipe else l.pipe t := by
  cases s <;> cases t <;> rfl

section

variable {cfg : Cfg} {base : Bytes} {child : Child} {d : Daemon} {l : Live}

theorem pump_pumping
    (hcv : cfg.cv = none) (h : Pumping cfg base child d l) {s : Stream}
    {rest : Bytes} (hpipe : l.pipe s = some rest) (k : ℕ) :
    (pump cfg d l s rest k).1 = true ∧
      Pumping cfg base child (pump cfg d l s rest k).2.1
        (pump cfg d l s rest k).2.2 ∧
      pipeLeft ((pump cfg d l s rest k).2.2.pipe s) < pipeLeft (l.pipe s) ∧
      ∀ t ≠ s, (pump cfg d l s rest k).2.2.pipe t = l.pipe t := by
  obtain ⟨fs, hsent, hpayload⟩ := h.sent
  have hchunk := d.chan.kind.chunk_le cfg
  have hsize : 1 ≤ min (k + 1) (chanChunk d.chan) := by
    unfold chanChunk
    omega
  have hsame := same_afterRead l s
  by_cases hempty : rest.take (min (k + 1) (chanChunk d.chan)) = []
  · have hrest : rest = [] := by
      rw [List.take_eq_nil_iff] at hempty
      rcases hempty with hzero | hnil
      · omega
      · exact hnil
    simp only [pump, if_pos hempty]
    refine ⟨trivial, ⟨h.steady, ?_, ?_, fs, hsent, ?_⟩, ?_, ?_⟩
    · rw [(hsame none (l.hold s) 0).mode]
      exact h.mode
    · rw [(hsame none (l.hold s) 0).child]
      exact h.runs
    · intro hmaxout t
      rw [← hpayload hmaxout t, afterRead_pipe]
      split_ifs with ht
      · subst ht
        rw [hpipe, hrest]
        rfl
      · rfl
    · simp [hpipe, pipeLeft]
    · intro t ht
      simp [ht]
  · set data := rest.take (min (k + 1) (chanChunk d.chan)) with hdata
    have hlen : data.length ≤ chanChunk d.chan := by
      rw [hdata, List.length_take]
      omega
    have hpos : 1 ≤ data.length := List.length_pos_iff.mpr hempty
    have hdrop : data ++ rest.drop data.length = rest := by
      have hbefore : data <+: rest := List.take_prefix _ _
      obtain ⟨tail, htail⟩ := hbefore
      rw [← htail, List.drop_left]
    have hfits : data.length ≤ cfg.build.frameMax := hlen.trans hchunk.2
    have hframe := wrote_lioPutFrame h.steady s.tag hpos hfits
    let f : Frame := ⟨s, data, hpos, hfits.trans cfg.build.frameMax_le⟩
    simp only [pump, ← hdata, if_neg hempty, convertOut, hcv]
    refine ⟨hframe.ok, ⟨hframe.steady, ?_, ?_, fs ++ [f], ?_, ?_⟩, ?_, ?_⟩
    · rw [(hsame _ _ _).mode]
      exact h.mode
    · rw [(hsame _ _ _).child]
      exact h.runs
    · rw [hframe.sent, hsent]
      simp [f, Frame.encode]
    · intro hmaxout t
      rw [← hpayload hmaxout t, afterRead_pipe, payload_append, payload_cons]
      split_ifs with hs ht ht
      · subst ht
        rw [hpipe]
        simp [f, hdrop]
      · exact absurd hs.symm ht
      · exact absurd ht.symm hs
      · simp
    · rw [afterRead_pipe, if_pos rfl, hpipe]
      simp only [pipeLeft, List.length_drop]
      have hle := congrArg List.length hdrop
      simp only [List.length_append, List.length_drop] at hle
      omega
    · intro t ht
      simp [ht]

theorem pumpReady_pumping
    (hcv : cfg.cv = none) (h : Pumping cfg base child d l) (s : Stream)
    (ready : Option ℕ) :
    (pumpReady cfg d l s ready).1 = true ∧
      Pumping cfg base child (pumpReady cfg d l s ready).2.1
        (pumpReady cfg d l s ready).2.2 ∧
      pipeLeft ((pumpReady cfg d l s ready).2.2.pipe s) ≤
        pipeLeft (l.pipe s) - (if ready.isSome then 1 else 0) ∧
      ∀ t ≠ s, (pumpReady cfg d l s ready).2.2.pipe t = l.pipe t := by
  unfold pumpReady
  cases hpipe : l.pipe s with
  | none =>
      refine ⟨rfl, h, ?_, fun t _ => rfl⟩
      simp [hpipe, pipeLeft]
  | some rest =>
      cases ready with
      | none =>
          refine ⟨rfl, h, ?_, fun t _ => rfl⟩
          simp [hpipe]
      | some k =>
          obtain ⟨hok, hpumping, hless, hother⟩ := pump_pumping hcv h hpipe k
          refine ⟨hok, hpumping, ?_, hother⟩
          rw [hpipe] at hless
          simp only [Option.isSome_some, if_true]
          omega

/-- The pipes behind a pass: fewer reads are left in those it reported. -/
structure Drained (l l' : Live) (sel : Sel) : Prop where
  same : l.Same l'
  out : pipeLeft l'.out ≤ pipeLeft l.out - (if sel.out.isSome then 1 else 0)
  err : pipeLeft l'.err ≤ pipeLeft l.err - (if sel.err.isSome then 1 else 0)

theorem liveCap_pumping (h : Pumping cfg base child d l) :
    Pumping cfg base child (liveCap cfg d l).1 (liveCap cfg d l).2 ∧
      (∀ s, (liveCap cfg d l).2.pipe s = l.pipe s) := by
  have hpumped := pumped_liveCap cfg d l
  obtain ⟨fs, hsent, hpayload⟩ := h.sent
  have hpipes := liveCap_pipes cfg d l
  have hpipe : ∀ s, (liveCap cfg d l).2.pipe s = l.pipe s := by
    intro s
    cases s with
    | out => exact hpipes.1
    | err => exact hpipes.2
  have hmode : (liveCap cfg d l).2.mode ≠ .job := by
    rw [hpumped.same.mode]
    exact h.mode
  have hruns := hpumped.same.child.trans h.runs
  have hsteady := hpumped.steady h.steady
  refine ⟨?_, hpipe⟩
  by_cases hcap : 0 < cfg.maxout ∧ cfg.maxout < l.total ∧ l.capped = false
  · have hnotice := wrote_lioPutFrame h.steady Stream.err.tag (capNotice_fits cfg).1
      (capNotice_fits cfg).2
    let f : Frame :=
      ⟨.err, capNotice, (capNotice_fits cfg).1,
        (capNotice_fits cfg).2.trans cfg.build.frameMax_le⟩
    refine ⟨hsteady, hmode, hruns, fs ++ [f], ?_, ?_⟩
    · simp only [liveCap, hcap, and_self, if_true]
      rw [hnotice.sent, hsent]
      simp [f, Frame.encode]
    · intro hmaxout
      omega
  · have hsame : liveCap cfg d l = (d, l) := if_neg hcap
    rw [hsame]
    exact h

theorem livePass_pumping
    (hcv : cfg.cv = none) (h : Pumping cfg base child d l) (o : Answers)
    (sel : Sel) :
    ∃ d' l', Pumping cfg base child d' l' ∧ Drained l l' sel ∧
      livePass cfg o d l sel =
        if sel.sess then
          if l.mode = .runi then { d' with ctl := .liveLine l' sel [] }
          else liveLost cfg o d'
        else liveTail cfg o d' l' sel := by
  obtain ⟨hok, hout, hless, hother⟩ := pumpReady_pumping hcv h .out sel.out
  obtain ⟨hok', herr, hless', hother'⟩ := pumpReady_pumping hcv hout .err sel.err
  obtain ⟨hcap, hpipes⟩ := liveCap_pumping herr
  have hsame := ((pumped_pumpReady cfg d l .out sel.out).trans
    ((pumped_pumpReady cfg _ _ .err sel.err).trans (pumped_liveCap cfg _ _))).same
  refine ⟨_, _, hcap, ⟨hsame, ?_, ?_⟩, ?_⟩
  · have hpipe := (hpipes .out).trans (hother' .out (by decide))
    exact (congrArg pipeLeft hpipe).trans_le hless
  · have hpipe := hpipes .err
    have hbefore := congrArg pipeLeft (hother .err (by decide))
    refine (congrArg pipeLeft hpipe).trans_le (hless'.trans ?_)
    rw [hbefore]
    exact le_refl _
  · unfold livePass
    simp only [if_neg h.mode, hok, hok', if_true]
    split_ifs with hsess hruni
    · simp only [hruni]
    · cases hmode : l.mode with
      | run => rfl
      | runi => exact absurd hmode hruni
      | job => exact absurd hmode h.mode
    · rfl

theorem liveTail_pumping
    (hcv : cfg.cv = none) (h : Pumping cfg base child d l) (o : Answers)
    (sel : Sel) :
    WholeStream cfg base child l.env (liveTail cfg o d l sel) ∨
      ∃ l', liveTail cfg o d l sel = { d with ctl := .live l' } ∧
        Pumping cfg base child d l' ∧ l.Same l' ∧ l'.out = l.out ∧
        l'.err = l.err ∧ (l.out ≠ none ∨ l.err ≠ none) := by
  have hsame := same_liveWatch cfg l sel
  have hpipes := liveWatch_pipes cfg l sel
  have hmode : (liveWatch cfg l sel).mode ≠ .job := by
    rw [hsame.mode]
    exact h.mode
  obtain ⟨fs, hsent, hpayload⟩ := h.sent
  unfold liveTail
  simp only [if_neg hmode, hpipes.1, hpipes.2]
  split_ifs with hclosed
  · left
    have hflush : cvFlushAll cfg d.chan (liveWatch cfg l sel) = d.chan := by
      simp [cvFlushAll, hcv]
    have hreturn : liveReturn cfg o d (liveWatch cfg l sel) =
        reply cfg o d l.env (exitLine child.status.code) := by
      unfold liveReturn
      rw [hflush, hsame.env, hsame.child, h.runs]
      cases hm : (liveWatch cfg l sel).mode with
      | run => rfl
      | runi => rfl
      | job => exact absurd hm hmode
    obtain ⟨c, hc, hsteady, _, hreply⟩ :=
      reply_steady cfg o h.steady l.env (exitLine child.status.code)
    rw [hreturn, hreply]
    refine ⟨rfl, hsteady, fs, ?_, ?_⟩
    · simp only [hc, hsent, encodeStream, List.append_assoc]
    · intro hmaxout s
      have hs := hpayload hmaxout s
      cases s <;> simpa [Live.pipe, hclosed.1, hclosed.2] using hs
  · right
    refine ⟨_, rfl, ⟨h.steady, hmode, hsame.child.trans h.runs, fs, hsent, ?_⟩,
      hsame, hpipes.1, hpipes.2, ?_⟩
    · intro hmaxout s
      have hs := hpayload hmaxout s
      cases s
      · simpa [Live.pipe, hpipes.1] using hs
      · simpa [Live.pipe, hpipes.2] using hs
    · by_contra hnone
      simp only [not_or, not_not] at hnone
      exact hclosed hnone

end

/-! ## A client that stays silent -/

def Ctl.supervises : Ctl → Bool
  | .live _ => true
  | .liveLine _ _ _ => true
  | .liveData _ _ _ _ => true
  | .liveCtl _ _ _ => true
  | _ => false

/-- The events up to the end of `live_exec`. -/
def execOver (cfg : Cfg) : Daemon → List Ev → Daemon
  | d, [] => d
  | d, ev :: evs =>
      if d.ctl.supervises then execOver cfg (step cfg d ev) evs else d

def Ev.Silent : Ev → Prop
  | .select sel _ => sel.sess = false
  | _ => True

inductive Silent (cfg : Cfg) (base : Bytes) (child : Child) (env : List EnvEntry)
    (d : Daemon) : Prop where
  | watching (l : Live) (hctl : d.ctl = .live l) (henv : l.env = env)
      (h : Pumping cfg base child d l)
  | control (l : Live) (sel : Sel) (cs : CtlSess) (hctl : d.ctl = .liveCtl l sel cs)
      (hsess : sel.sess = false) (henv : l.env = env)
      (h : Pumping cfg base child d l)
  | answered (h : WholeStream cfg base child env d)

section

variable {cfg : Cfg} {base : Bytes} {child : Child} {env : List EnvEntry}
  {d : Daemon}

theorem Pumping.withCtl
    {l : Live} (h : Pumping cfg base child d l) (ctl : Ctl) :
    Pumping cfg base child { d with ctl := ctl } l :=
  ⟨h.steady, h.mode, h.runs, h.sent⟩

theorem livePass_silent
    (hcv : cfg.cv = none) {l : Live} (h : Pumping cfg base child d l)
    (henv : l.env = env) (o : Answers) {sel : Sel} (hsess : sel.sess = false) :
    Silent cfg base child env (livePass cfg o d l sel) := by
  obtain ⟨d', l', hpumping, hdrained, hpass⟩ := livePass_pumping hcv h o sel
  have henv' : l'.env = env := hdrained.same.env.trans henv
  simp only [hsess, Bool.false_eq_true, if_false] at hpass
  rw [hpass]
  rcases liveTail_pumping hcv hpumping o sel with hanswered | ⟨l'', htail, hagain, hsame, _⟩
  · rw [henv'] at hanswered
    exact .answered hanswered
  · rw [htail]
    exact .watching l'' rfl (hsame.env.trans henv') (hagain.withCtl _)

theorem step_silent
    (hcv : cfg.cv = none) (h : Silent cfg base child env d)
    (hrun : d.ctl.supervises = true) {ev : Ev} (hev : ev.Silent) :
    Silent cfg base child env (step cfg d ev) := by
  cases h with
  | watching l hctl henv h =>
      cases ev with
      | accept peer plan o =>
          have hstep : step cfg d (.accept peer plan o) = d := by
            simp only [step, hctl]
          rw [hstep]
          exact .watching l hctl henv h
      | rx b o =>
          have hstep : step cfg d (.rx b o) = d := by
            simp only [step, rx, hctl]
          rw [hstep]
          exact .watching l hctl henv h
      | hup o =>
          have hstep : step cfg d (.hup o) = d := by
            simp only [step, hup, hctl]
          rw [hstep]
          exact .watching l hctl henv h
      | select sel o =>
          simp only [step, hctl, liveSelect]
          cases sel.ls with
          | none => exact livePass_silent hcv h henv o hev
          | some conn =>
              dsimp only
              split_ifs
              · exact .control l sel _ rfl hev henv (h.withCtl _)
              · exact livePass_silent hcv h henv o hev
              · exact livePass_silent hcv h henv o hev
  | control l sel cs hctl hsess henv h =>
      cases ev with
      | accept peer plan o =>
          have hstep : step cfg d (.accept peer plan o) = d := by
            simp only [step, hctl]
          rw [hstep]
          exact .control l sel cs hctl hsess henv h
      | rx b o =>
          simp only [step, rx, hctl]
          split_ifs
          · exact .control l sel _ rfl hsess henv (h.withCtl _)
          · exact livePass_silent hcv h henv o hsess
      | hup o =>
          simp only [step, hup, hctl]
          exact livePass_silent hcv h henv o hsess
      | select sel' o =>
          have hstep : step cfg d (.select sel' o) = d := by
            simp only [step, hctl]
          rw [hstep]
          exact .control l sel cs hctl hsess henv h
  | answered h =>
      rw [h.ctl] at hrun
      cases hrun

theorem execOver_silent
    (hcv : cfg.cv = none) {evs : List Ev} (hevs : ∀ ev ∈ evs, ev.Silent)
    (h : Silent cfg base child env d) :
    Silent cfg base child env (execOver cfg d evs) := by
  induction evs generalizing d with
  | nil => exact h
  | cons ev evs ih =>
      unfold execOver
      split_ifs with hrun
      · exact ih (fun ev' hev' => hevs ev' (by simp [hev']))
          (step_silent hcv h hrun (hevs ev (by simp)))
      · exact h

def passes (sels : List (Sel × Answers)) : List Ev :=
  sels.map fun p => .select p.1 p.2

/-- Once every byte and the end of both pipes has been reported, the stream
is complete. -/
theorem execOver_finishes
    (hcv : cfg.cv = none) (sels : List (Sel × Answers))
    (hquiet : ∀ p ∈ sels, p.1.ls = none ∧ p.1.sess = false) {l : Live}
    (hctl : d.ctl = .live l) (henv : l.env = env)
    (h : Pumping cfg base child d l) (hopen : l.out ≠ none ∨ l.err ≠ none)
    (hout : pipeLeft l.out ≤ sels.countP fun p => p.1.out.isSome)
    (herr : pipeLeft l.err ≤ sels.countP fun p => p.1.err.isSome) :
    WholeStream cfg base child env (execOver cfg d (passes sels)) := by
  induction sels generalizing d l with
  | nil =>
      simp only [List.countP_nil, Nat.le_zero, pipeLeft_eq_zero] at hout herr
      rcases hopen with hne | hne
      · exact absurd hout hne
      · exact absurd herr hne
  | cons p sels ih =>
      obtain ⟨hls, hsess⟩ := hquiet p (by simp)
      have hquiet' : ∀ q ∈ sels, q.1.ls = none ∧ q.1.sess = false :=
        fun q hq => hquiet q (by simp [hq])
      obtain ⟨d', l', hpumping, hdrained, hpass⟩ := livePass_pumping hcv h p.2 p.1
      simp only [hsess, Bool.false_eq_true, if_false] at hpass
      have hstep : execOver cfg d (passes (p :: sels)) =
          execOver cfg (liveTail cfg p.2 d' l' p.1) (passes sels) := by
        simp only [passes, List.map_cons, execOver, hctl, Ctl.supervises,
          if_true, step, liveSelect, hls, hpass]
      rw [hstep]
      have henv' : l'.env = env := hdrained.same.env.trans henv
      rcases liveTail_pumping hcv hpumping p.2 p.1 with
        hanswered | ⟨l'', htail, hagain, hsame, hout', herr', hopen'⟩
      · rw [henv'] at hanswered
        have hover : ∀ evs, execOver cfg
            (liveTail cfg p.2 d' l' p.1) evs = liveTail cfg p.2 d' l' p.1 := by
          intro evs
          cases evs with
          | nil => rfl
          | cons ev evs => simp [execOver, hanswered.ctl, Ctl.supervises]
        rw [hover]
        exact hanswered
      · rw [htail]
        have hless := hdrained.out
        have hless' := hdrained.err
        simp only [List.countP_cons] at hout herr
        refine ih hquiet' rfl (hsame.env.trans henv') (hagain.withCtl _) ?_ ?_ ?_
        · rw [hout', herr']
          exact hopen'
        · rw [hout']
          omega
        · rw [herr']
          omega

end

end GrandCross
