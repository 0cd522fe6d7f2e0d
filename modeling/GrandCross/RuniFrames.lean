import GrandCross.LiveStream

/-!
# Client frames while a command runs

A RUNI client sends I frames for the child's stdin and a K line to stop it.
A turn of the supervision loop is one `select`, a control session that it
may lead to, and one whole frame when the session channel is readable.
-/

namespace GrandCross

open CText
open Transfer

inductive ClientFrame where
  | kill
  | input (data : Bytes)
  deriving DecidableEq

def ClientFrame.encode : ClientFrame → Bytes
  | .kill => ascii "K" ++ [lf]
  | .input data => frameHdr 73 data.length ++ data

def ClientFrame.head : ClientFrame → Bytes
  | .kill => ascii "K"
  | .input data => hdrText 73 data.length

def ClientFrame.body : ClientFrame → Bytes
  | .kill => []
  | .input data => data

def ClientFrame.Ok (cfg : Cfg) : ClientFrame → Prop
  | .kill => True
  | .input data => data.length ≤ cfg.build.frameMax

theorem ClientFrame.encode_eq (f : ClientFrame) :
    f.encode = f.head ++ [lf] ++ f.body := by
  cases f with
  | kill => rfl
  | input data => simp [encode, head, body, frameHdr_eq]

theorem ClientFrame.head_clean (f : ClientFrame) : LineClean f.head := by
  cases f with
  | kill => exact (by decide : LineClean (ascii "K"))
  | input data => exact hdrText_clean (by decide) (by decide) data.length

theorem ClientFrame.Ok.head_length
    {cfg : Cfg} {f : ClientFrame} (hf : f.Ok cfg) : f.head.length < lineMax := by
  unfold lineMax
  cases f with
  | kill => decide
  | input data =>
      have hlen : (hdrText 73 data.length).length ≤ 6 :=
        hdrText_length 73 (le_trans hf cfg.build.frameMax_le)
      simp only [head]
      omega

/-! ## One frame -/

section

variable {cfg : Cfg} {base : Bytes} {child : Child} {env : List EnvEntry}
  {mode : LiveMode} {d : Daemon} {l : Live}

inductive Turned (cfg : Cfg) (base : Bytes) (child : Child) (env : List EnvEntry)
    (mode : LiveMode) (d : Daemon) : Prop where
  | watching (l : Live) (hctl : d.ctl = .live l) (henv : l.env = env)
      (hmode : l.mode = mode) (h : Pumping cfg base child d l)
  | whole (h : WholeStream cfg base child env d)

theorem liveTail_turned
    (hcv : cfg.cv = none) (h : Pumping cfg base child d l) (henv : l.env = env)
    (hmode : l.mode = mode) (o : Answers) (sel : Sel) :
    Turned cfg base child env mode (liveTail cfg o d l sel) := by
  rcases liveTail_pumping hcv h o sel with hwhole | ⟨l', htail, hagain, hsame, _⟩
  · rw [henv] at hwhole
    exact .whole hwhole
  · rw [htail]
    exact .watching l' rfl (hsame.env.trans henv) (hsame.mode.trans hmode)
      (hagain.withCtl _)

theorem Pumping.samePipes
    (h : Pumping cfg base child d l) {l' : Live} (hsame : l.Same l')
    (hout : l'.out = l.out) (herr : l'.err = l.err) :
    Pumping cfg base child d l' := by
  obtain ⟨fs, hsent, hpayload⟩ := h.sent
  refine ⟨h.steady, ?_, hsame.child.trans h.runs, fs, hsent, ?_⟩
  · rw [hsame.mode]
    exact h.mode
  · intro hmaxout s
    have hs := hpayload hmaxout s
    cases s with
    | out => simpa [Live.pipe, hout] using hs
    | err => simpa [Live.pipe, herr] using hs

theorem feed_liveData_part
    (cfg : Cfg) (o : Answers) (d : Daemon) (l : Live) (sel : Sel) (len : ℕ)
    (data buf : Bytes) (hpart : buf.length + data.length < len) :
    feed cfg o { d with ctl := .liveData l sel len buf } data =
      { d with ctl := .liveData l sel len (buf ++ data) } := by
  induction data generalizing buf with
  | nil => simp
  | cons b data ih =>
      simp only [List.length_cons] at hpart
      have hmore : (buf ++ [b]).length < len := by
        simp only [List.length_append, List.length_singleton]
        omega
      have hrest := ih (buf ++ [b]) (by
        simp only [List.length_append, List.length_singleton]
        omega)
      rw [feed_cons]
      simp only [rx, hmore, if_true]
      rw [hrest]
      simp

theorem feed_liveData
    (cfg : Cfg) (o : Answers) (d : Daemon) (l : Live) (sel : Sel) (len : ℕ)
    (data buf : Bytes) (hdata : data ≠ []) (hlen : buf.length + data.length = len) :
    ∃ ctl, feed cfg o { d with ctl := .liveData l sel len buf } data =
      liveTail cfg o { d with ctl := ctl } (writeStdin l (buf ++ data)) sel := by
  obtain ⟨start, b, rfl⟩ := (List.eq_nil_or_concat data).resolve_left hdata
  simp only [List.concat_eq_append, List.length_append, List.length_singleton] at hlen ⊢
  have hfull : ¬ (buf ++ (start ++ [b])).length < len := by
    simp only [List.length_append, List.length_singleton]
    omega
  refine ⟨.liveData l sel len (buf ++ start), ?_⟩
  rw [feed_append, feed_liveData_part cfg o d l sel len start buf (by omega)]
  simp only [feed_cons, feed_nil, rx, List.append_assoc, hfull, if_false]

/-- What `runi_frame` makes of the pipe and the kill flag. -/
def Live.afterFrame (l : Live) : ClientFrame → Live
  | .kill => killChild l
  | .input data => if data = [] then { l with inp := none } else writeStdin l data

/-- `runi_frame` on the header of a well-formed frame: its payload is read
next, or the pass goes on. -/
theorem runiFrame_eq
    (o : Answers) (d : Daemon) (l : Live) (sel : Sel) {f : ClientFrame}
    (hf : f.Ok cfg) :
    runiFrame cfg o d l sel (cstr f.head) =
      if f.body = [] then liveTail cfg o d (l.afterFrame f) sel
      else { d with ctl := .liveData l sel f.body.length [] } := by
  cases f with
  | kill =>
      have hK : cstr (ClientFrame.kill).head = [75] := by decide
      rw [hK]
      rfl
  | input data =>
      have hlen : data.length ≤ cfg.build.frameMax := hf
      have hwire : data.length ≤ wireFrameMax := hlen.trans cfg.build.frameMax_le
      have hatol : atol (decimal data.length) = data.length :=
        atol_decimal (hwire.trans (by decide))
      have hfits : ¬ ((data.length : ℤ) < 0 ∨
          (cfg.build.frameMax : ℤ) < (data.length : ℤ)) := by omega
      have htext : cstr (ClientFrame.input data).head = hdrText 73 data.length :=
        cstr_hdrText (by decide) data.length
      rw [htext]
      simp only [hdrText, sp, runiFrame, hatol, hfits, if_false, Int.toNat_natCast,
        Nat.cast_eq_zero, List.length_eq_zero_iff, ClientFrame.body, Live.afterFrame]
      by_cases hempty : data = []
      · simp only [if_pos hempty]
      · simp only [if_neg hempty]

theorem writeStdin_pipes (l : Live) (data : Bytes) :
    (writeStdin l data).out = l.out ∧ (writeStdin l data).err = l.err := by
  unfold writeStdin
  split
  · exact ⟨rfl, rfl⟩
  · split_ifs <;> exact ⟨rfl, rfl⟩

theorem same_afterFrame (l : Live) (f : ClientFrame) : l.Same (l.afterFrame f) := by
  cases f with
  | kill => exact same_killChild l
  | input data =>
      simp only [Live.afterFrame]
      split_ifs
      · exact ⟨rfl, rfl, rfl, rfl⟩
      · exact same_writeStdin l data

theorem afterFrame_pipes (l : Live) (f : ClientFrame) :
    (l.afterFrame f).out = l.out ∧ (l.afterFrame f).err = l.err := by
  cases f with
  | kill => exact killChild_pipes l
  | input data =>
      simp only [Live.afterFrame]
      split_ifs
      · exact ⟨rfl, rfl⟩
      · exact writeStdin_pipes l data

theorem afterFrame_payload
    (l : Live) {f : ClientFrame} (hbody : f.body ≠ []) :
    l.afterFrame f = writeStdin l f.body := by
  cases f with
  | kill => exact absurd rfl hbody
  | input data => exact if_neg hbody

/-- A whole frame is read, and the pass goes on. -/
theorem feed_frame
    (o : Answers) {sel : Sel} {f : ClientFrame} (hf : f.Ok cfg)
    (hctl : d.ctl = .liveLine l sel []) :
    ∃ ctl, feed cfg o d f.encode =
      liveTail cfg o { d with ctl := ctl } (l.afterFrame f) sel := by
  have hread : feed cfg o d f.encode =
      feed cfg o (runiFrame cfg o { d with ctl := .liveLine l sel f.head } l sel
        (cstr f.head)) f.body := by
    rw [f.encode_eq, feed_append, feed_append,
      (reader_liveLine cfg l sel).feed_text o hctl f.head_clean (by
        simpa using hf.head_length)]
    simp only [List.nil_append, feed_cons, feed_nil, rx, lioGetByte_lf]
  rw [hread, runiFrame_eq o _ l sel hf]
  split_ifs with hbody
  · exact ⟨.liveLine l sel f.head, by rw [hbody, feed_nil]⟩
  · obtain ⟨ctl, hpayload⟩ := feed_liveData cfg o d l sel f.body.length f.body [] hbody
      (by simp)
    refine ⟨ctl, ?_⟩
    rw [hpayload, List.nil_append, afterFrame_payload l hbody]

theorem feed_clientFrame
    (hcv : cfg.cv = none) (o : Answers) {sel : Sel} {f : ClientFrame} (hf : f.Ok cfg)
    (hctl : d.ctl = .liveLine l sel []) (henv : l.env = env) (hmode : l.mode = mode)
    (h : Pumping cfg base child d l) :
    Turned cfg base child env mode (feed cfg o d f.encode) := by
  obtain ⟨ctl, hread⟩ := feed_frame o hf hctl
  obtain ⟨hout, herr⟩ := afterFrame_pipes l f
  have hsame := same_afterFrame l f
  rw [hread]
  exact liveTail_turned hcv ((h.samePipes hsame hout herr).withCtl _)
    (hsame.env.trans henv) (hsame.mode.trans hmode) o sel

end

/-! ## Turns -/

structure Turn where
  sel : Sel
  answers : Answers
  ctl : List Input
  frame : Option ClientFrame

/-- The channel is readable when the client has sent a frame, and only RUNI
takes frames. -/
structure Turn.Ok (cfg : Cfg) (mode : LiveMode) (t : Turn) : Prop where
  sess : t.sel.sess = t.frame.isSome
  silent : mode ≠ .runi → t.frame = none
  frame : ∀ f ∈ t.frame, f.Ok cfg

def Ctl.inControl : Ctl → Bool
  | .liveCtl _ _ _ => true
  | _ => false

def ctlServe (cfg : Cfg) (o : Answers) : Daemon → List Input → Daemon
  | d, [] => if d.ctl.inControl then hup cfg o d else d
  | d, input :: inputs =>
      if d.ctl.inControl then ctlServe cfg o (receive cfg d input) inputs else d

def Turn.play (cfg : Cfg) (d : Daemon) (t : Turn) : Daemon :=
  let served := ctlServe cfg t.answers (step cfg d (.select t.sel t.answers)) t.ctl
  match t.frame with
  | none => served
  | some f => feed cfg t.answers served f.encode

/-- The `select` of a turn and the control session it may lead to. -/
def Turn.served (cfg : Cfg) (d : Daemon) (t : Turn) : Daemon :=
  ctlServe cfg t.answers (step cfg d (.select t.sel t.answers)) t.ctl

def playTurns (cfg : Cfg) : Daemon → List Turn → Daemon
  | d, [] => d
  | d, t :: turns => if d.ctl.supervises then playTurns cfg (t.play cfg d) turns else d

section

variable {cfg : Cfg} {base : Bytes} {child : Child} {env : List EnvEntry}
  {mode : LiveMode} {d : Daemon} {l : Live}

theorem livePass_turn
    (hcv : cfg.cv = none) (h : Pumping cfg base child d l) (henv : l.env = env)
    (hmode : l.mode = mode) (o : Answers) (sel : Sel)
    (hruni : sel.sess = true → mode = .runi) :
    (livePass cfg o d l sel).ctl.inControl = false ∧
      (sel.sess = false → Turned cfg base child env mode (livePass cfg o d l sel)) ∧
      (sel.sess = true → ∃ l', (livePass cfg o d l sel).ctl = .liveLine l' sel [] ∧
        l'.env = env ∧ l'.mode = mode ∧
        Pumping cfg base child (livePass cfg o d l sel) l') := by
  obtain ⟨d', l', hpumping, hdrained, hpass⟩ := livePass_pumping hcv h o sel
  have henv' := hdrained.same.env.trans henv
  have hmode' := hdrained.same.mode.trans hmode
  rw [hpass]
  cases hsess : sel.sess with
  | true =>
      rw [if_pos rfl, if_pos (hmode.trans (hruni hsess))]
      refine ⟨rfl, by simp, fun _ => ⟨l', rfl, henv', hmode', hpumping.withCtl _⟩⟩
  | false =>
      rw [if_neg (by simp)]
      have hturned := liveTail_turned hcv hpumping henv' hmode' o sel
      refine ⟨?_, fun _ => hturned, by simp⟩
      rcases hturned with ⟨l'', hctl, _, _, _⟩ | hwhole
      · rw [hctl]
        rfl
      · rw [hwhole.ctl]
        rfl

theorem ctlServe_over
    (o : Answers) (hctl : d.ctl.inControl = false) (inputs : List Input) :
    ctlServe cfg o d inputs = d := by
  cases inputs <;> simp [ctlServe, hctl]

/-- A control session ends in the rest of the pass. -/
theorem ctlServe_pass
    {sel : Sel}
    (hpass : ∀ o ctl, (livePass cfg o { d with ctl := ctl } l sel).ctl.inControl = false)
    (o : Answers) (cs : CtlSess) (inputs : List Input) :
    ∃ o' ctl, ctlServe cfg o { d with ctl := .liveCtl l sel cs } inputs =
      livePass cfg o' { d with ctl := ctl } l sel := by
  induction inputs generalizing cs with
  | nil => exact ⟨o, .liveCtl l sel cs, rfl⟩
  | cons input inputs ih =>
      have hover : ∀ o', ctlServe cfg o
          (livePass cfg o' { d with ctl := .liveCtl l sel cs } l sel) inputs =
            livePass cfg o' { d with ctl := .liveCtl l sel cs } l sel :=
        fun o' => ctlServe_over o (hpass o' _) inputs
      simp only [ctlServe, Ctl.inControl, if_true, receive]
      cases input.1 with
      | some b =>
          simp only [rx]
          split_ifs
          · exact ih _
          · exact ⟨_, _, hover _⟩
      | none => exact ⟨_, _, hover _⟩

theorem served_pass
    (hctl : d.ctl = .live l) (t : Turn)
    (hpass : ∀ o ctl, (livePass cfg o { d with ctl := ctl } l t.sel).ctl.inControl = false) :
    ∃ o' ctl, t.served cfg d = livePass cfg o' { d with ctl := ctl } l t.sel := by
  have hplain : ctlServe cfg t.answers (livePass cfg t.answers d l t.sel) t.ctl =
      livePass cfg t.answers d l t.sel :=
    ctlServe_over _ (hpass t.answers d.ctl) _
  simp only [Turn.served, step, hctl, liveSelect]
  cases t.sel.ls with
  | none => exact ⟨_, d.ctl, hplain⟩
  | some conn =>
      dsimp only
      split_ifs
      · exact ctlServe_pass hpass t.answers _ _
      · exact ⟨_, d.ctl, hplain⟩
      · exact ⟨_, d.ctl, hplain⟩

theorem play_turned
    (hcv : cfg.cv = none) {t : Turn} (ht : t.Ok cfg mode) (hctl : d.ctl = .live l)
    (henv : l.env = env) (hmode : l.mode = mode) (h : Pumping cfg base child d l) :
    Turned cfg base child env mode (t.play cfg d) := by
  have hruni : t.sel.sess = true → mode = .runi := by
    intro hsess
    by_contra hne
    rw [ht.sess, ht.silent hne] at hsess
    cases hsess
  obtain ⟨o', ctl, hserved⟩ := served_pass hctl t fun o ctl =>
    (livePass_turn hcv (h.withCtl ctl) henv hmode o t.sel hruni).1
  obtain ⟨_, hend, hline⟩ := livePass_turn hcv (h.withCtl ctl) henv hmode o' t.sel hruni
  rw [← hserved] at hend hline
  unfold Turn.play
  cases hframe : t.frame with
  | none =>
      refine hend ?_
      rw [ht.sess, hframe]
      rfl
  | some f =>
      have hsess : t.sel.sess = true := by
        rw [ht.sess, hframe]
        rfl
      obtain ⟨l', hctl', henv', hmode', hpumping'⟩ := hline hsess
      exact feed_clientFrame hcv t.answers (ht.frame f (by simp [hframe])) hctl' henv'
        hmode' hpumping'

theorem playTurns_turned
    (hcv : cfg.cv = none) {turns : List Turn} (hturns : ∀ t ∈ turns, t.Ok cfg mode)
    (h : Turned cfg base child env mode d) :
    Turned cfg base child env mode (playTurns cfg d turns) := by
  induction turns generalizing d with
  | nil => exact h
  | cons t turns ih =>
      have hrest : ∀ t' ∈ turns, t'.Ok cfg mode := fun t' ht' => hturns t' (by simp [ht'])
      cases h with
      | watching l hctl henv hmode h =>
          rw [playTurns, hctl, Ctl.supervises, if_pos rfl]
          exact ih hrest (play_turned hcv (hturns t (by simp)) hctl henv hmode h)
      | whole h =>
          have hover : d.ctl.supervises = false := by
            rw [h.ctl]
            rfl
          rw [playTurns, if_neg (by simp [hover])]
          exact .whole h

end

end GrandCross
