import GrandCross.RuniFrames

/-!
# The stdin of a RUNI command

The I frames of a RUNI client go to a pipe that takes as much of each write
as it likes and may fail.  Four things stop the delivery: an I 0 frame, a K
frame, a failed write, and the output cap, which kills the child.  Whatever
is delivered, every frame is read up to its end.
-/

namespace GrandCross

open CText
open Transfer

/-! ## What is written -/

/-- The pipe that the next payload goes to, if any. -/
def Live.tap (l : Live) : Option Sink := if l.killed = 0 then l.inp else none

/-- What the calls of `writeStdin` move into the pipe. -/
def stdinWrites (l : Live) (data : Bytes) : Bytes :=
  match l.tap with
  | none => []
  | some pipe => (pipe.writeAll data).2.taken.drop pipe.taken.length

/-- `rx` writes to the child when the last byte of a payload arrives. -/
def rxWrites (d : Daemon) (b : Byte) : Bytes :=
  match d.ctl with
  | .liveData l _ len buf =>
      if (buf ++ [b]).length < len then [] else stdinWrites l (buf ++ [b])
  | _ => []

def feedWrites (cfg : Cfg) (o : Answers) : Daemon → Bytes → Bytes
  | _, [] => []
  | d, b :: bytes => rxWrites d b ++ feedWrites cfg o (rx cfg o d b) bytes

/-! ## Frames as they are taken -/

/-- A frame that `runi_frame` takes, and the daemon at its header. -/
structure Taken where
  daemon : Daemon
  answers : Answers
  frame : ClientFrame

/-- The frames that `live_exec` passes to `runi_frame`, up to its end. -/
def runiFrames (cfg : Cfg) : Daemon → List Turn → List Taken
  | _, [] => []
  | d, t :: turns =>
      match t.frame, (t.served cfg d).ctl with
      | none, .live _ => runiFrames cfg (t.play cfg d) turns
      | some f, .liveLine _ _ _ =>
          ⟨t.served cfg d, t.answers, f⟩ :: runiFrames cfg (t.play cfg d) turns
      | _, _ => []

/-- The output cap has been exceeded. -/
def Taken.capped (h : Taken) : Bool :=
  match h.daemon.ctl with
  | .liveLine l _ _ => l.capped
  | _ => false

def Taken.writes (cfg : Cfg) (h : Taken) : Bytes :=
  feedWrites cfg h.answers h.daemon h.frame.encode

/-- I 0 and K. -/
def ClientFrame.stops : ClientFrame → Bool
  | .kill => true
  | .input data => data.isEmpty

/-- The payloads before the first I 0 or K, and before the cap. -/
def payloads (taken : List Taken) : List Bytes :=
  (taken.takeWhile fun h => !(h.capped || h.frame.stops)).map fun h => h.frame.body

def Ctl.readsFrame : Ctl → Bool
  | .liveLine _ _ _ => true
  | .liveData _ _ _ _ => true
  | _ => false

/-- A frame is read from its first byte to its last one. -/
structure Taken.Consumed (cfg : Cfg) (h : Taken) : Prop where
  header : ∃ l sel, h.daemon.ctl = .liveLine l sel []
  inside : ∀ start rest, h.frame.encode = start ++ rest → rest ≠ [] →
    (feed cfg h.answers h.daemon start).ctl.readsFrame = true
  whole : (feed cfg h.answers h.daemon h.frame.encode).ctl.readsFrame = false

/-! ## Passes -/

/-- A pass leaves the pipe alone, or the cap closes it. -/
structure Live.Watched (l l' : Live) : Prop where
  mode : l'.mode = l.mode
  tap : l'.tap = l.tap ∧ l'.capped = l.capped ∨ l'.tap = none ∧ l'.capped = true

theorem Live.Watched.refl (l : Live) : l.Watched l := ⟨rfl, .inl ⟨rfl, rfl⟩⟩

theorem Live.Watched.trans
    {l l' l'' : Live} (h : l.Watched l') (h' : l'.Watched l'') : l.Watched l'' := by
  refine ⟨h'.mode.trans h.mode, ?_⟩
  rcases h'.tap with ⟨htap', hcap'⟩ | hcapped
  · rcases h.tap with ⟨htap, hcap⟩ | ⟨htap, hcap⟩
    · exact .inl ⟨htap'.trans htap, hcap'.trans hcap⟩
    · exact .inr ⟨htap'.trans htap, hcap'.trans hcap⟩
  · exact .inr hcapped

theorem watched_afterRead
    (l : Live) (s : Stream) (pipe : Option Bytes) (hold : Bytes) (n : ℕ) :
    l.Watched (l.afterRead s pipe hold n) := by
  cases s <;> exact ⟨rfl, .inl ⟨rfl, rfl⟩⟩

theorem tap_killChild (l : Live) : (killChild l).tap = none := by
  unfold killChild
  split_ifs with hzero
  · rfl
  · exact if_neg hzero

theorem watched_pumpReady
    (cfg : Cfg) (d : Daemon) (l : Live) (s : Stream) (ready : Option ℕ) :
    l.Watched (pumpReady cfg d l s ready).2.2 := by
  unfold pumpReady
  split
  · unfold pump
    dsimp only
    split_ifs
    · exact watched_afterRead ..
    · split
      · exact watched_afterRead ..
      · split_ifs <;> exact watched_afterRead ..
  · exact .refl l

theorem watched_liveCap (cfg : Cfg) (d : Daemon) (l : Live) :
    l.Watched (liveCap cfg d l).2 := by
  unfold liveCap
  split_ifs
  · exact ⟨(same_killChild l).mode, .inr ⟨tap_killChild l, rfl⟩⟩
  · exact .refl l

theorem watched_liveWatch
    (cfg : Cfg) (l : Live) (sel : Sel) (hmode : l.mode = .runi) :
    l.Watched (liveWatch cfg l sel) := by
  have hjob : ¬ (l.mode = .job ∧ 0 < cfg.maxout ∧ l.capped = false ∧
      cfg.maxout < sel.size) := by
    rw [hmode]
    simp
  unfold liveWatch
  simp only [if_neg hjob]
  split_ifs with hgrace
  · refine ⟨rfl, .inl ⟨?_, rfl⟩⟩
    simp [Live.tap, hgrace.1]
  · exact ⟨rfl, .inl ⟨rfl, rfl⟩⟩

section

variable {cfg : Cfg} {d : Daemon} {l : Live}

theorem sessionReturn_left (o : Answers) (hpending : d.job.pending = false) :
    (sessionReturn cfg o d).ctl.supervises = false := by
  rw [sessionReturn_quiet cfg o hpending]
  dsimp only
  unfold idleCtl
  cases cfg.kind <;> rfl

theorem liveTail_watched
    (hpending : d.job.pending = false) (hmode : l.mode = .runi) (o : Answers) (sel : Sel) :
    (liveTail cfg o d l sel).ctl.supervises = false ∨
      ∃ l', l.Watched l' ∧ liveTail cfg o d l sel = { d with ctl := .live l' } := by
  have hwatched := watched_liveWatch cfg l sel hmode
  have hmode' : (liveWatch cfg l sel).mode = .runi := hwatched.mode.trans hmode
  have hjob : (liveWatch cfg l sel).mode ≠ .job := by
    rw [hmode']
    decide
  unfold liveTail
  simp only [if_neg hjob]
  split_ifs
  · left
    unfold liveReturn
    rw [hmode']
    dsimp only
    unfold reply
    split_ifs
    · rfl
    · exact sessionReturn_left o hpending
  · exact .inr ⟨_, hwatched, rfl⟩

/-- A pass with the session channel readable leads to the header of a frame. -/
theorem livePass_watched
    (hpending : d.job.pending = false) (hmode : l.mode = .runi) (o : Answers) (sel : Sel) :
    (livePass cfg o d l sel).ctl.supervises = false ∨
      ∃ l', l.Watched l' ∧ (livePass cfg o d l sel).job = d.job ∧
        ((livePass cfg o d l sel).ctl = .live l' ∨
          (livePass cfg o d l sel).ctl = .liveLine l' sel []) := by
  have hjob : l.mode ≠ .job := by
    rw [hmode]
    decide
  let po := pumpReady cfg d l .out sel.out
  let pe := pumpReady cfg po.2.1 po.2.2 .err sel.err
  let capped := liveCap cfg pe.2.1 pe.2.2
  have hpo : po.2.1.job = d.job := by
    rw [(pumped_pumpReady cfg d l .out sel.out).daemon]
  have hpe : pe.2.1.job = d.job := by
    rw [(pumped_pumpReady cfg po.2.1 po.2.2 .err sel.err).daemon]
    exact hpo
  have hcapped : capped.1.job = d.job := by
    rw [(pumped_liveCap cfg pe.2.1 pe.2.2).daemon]
    exact hpe
  have hwatched : l.Watched capped.2 :=
    (watched_pumpReady cfg d l .out sel.out).trans
      ((watched_pumpReady cfg po.2.1 po.2.2 .err sel.err).trans
        (watched_liveCap cfg pe.2.1 pe.2.2))
  have hpass : livePass cfg o d l sel =
      if po.1 then
        if pe.1 then
          if sel.sess then { capped.1 with ctl := .liveLine capped.2 sel [] }
          else liveTail cfg o capped.1 capped.2 sel
        else liveLost cfg o pe.2.1
      else liveLost cfg o po.2.1 := by
    unfold livePass
    rw [if_neg hjob, hmode]
  rw [hpass]
  split_ifs
  · exact .inr ⟨capped.2, hwatched, hcapped, .inr rfl⟩
  · rcases liveTail_watched (hcapped ▸ hpending) (hwatched.mode.trans hmode) o sel with
      hleft | ⟨l', hwatched', htail⟩
    · exact .inl hleft
    · refine .inr ⟨l', hwatched.trans hwatched', ?_, .inl ?_⟩
      · rw [htail]
        exact hcapped
      · rw [htail]
  · exact .inl (sessionReturn_left o (hpe ▸ hpending))
  · exact .inl (sessionReturn_left o (hpo ▸ hpending))

theorem served_watched
    (hctl : d.ctl = .live l) (hpending : d.job.pending = false) (hmode : l.mode = .runi)
    (t : Turn) :
    (t.served cfg d).ctl.supervises = false ∨
      ∃ l', l.Watched l' ∧ (t.served cfg d).job.pending = false ∧
        ((t.served cfg d).ctl = .live l' ∨ (t.served cfg d).ctl = .liveLine l' t.sel []) := by
  have hwatched : ∀ o ctl, (livePass cfg o { d with ctl := ctl } l t.sel).ctl.supervises =
      false ∨ ∃ l', l.Watched l' ∧
        (livePass cfg o { d with ctl := ctl } l t.sel).job.pending = false ∧
        ((livePass cfg o { d with ctl := ctl } l t.sel).ctl = .live l' ∨
          (livePass cfg o { d with ctl := ctl } l t.sel).ctl = .liveLine l' t.sel []) := by
    intro o ctl
    rcases livePass_watched (d := { d with ctl := ctl }) hpending hmode o t.sel with
      hleft | ⟨l', h, hjob, hnext⟩
    · exact .inl hleft
    · exact .inr ⟨l', h, by rw [hjob]; exact hpending, hnext⟩
  have hpass : ∀ o ctl,
      (livePass cfg o { d with ctl := ctl } l t.sel).ctl.inControl = false := by
    intro o ctl
    rcases hwatched o ctl with hleft | ⟨l', -, -, hnext | hnext⟩
    · generalize (livePass cfg o { d with ctl := ctl } l t.sel).ctl = ctl' at hleft ⊢
      cases ctl' with
      | liveCtl => cases hleft
      | _ => rfl
    · rw [hnext]
      rfl
    · rw [hnext]
      rfl
  obtain ⟨o, ctl, hserved⟩ := served_pass hctl t hpass
  rw [hserved]
  exact hwatched o ctl

/-! ## One frame -/

theorem feedWrites_append (o : Answers) (s t : Bytes) :
    feedWrites cfg o d (s ++ t) = feedWrites cfg o d s ++ feedWrites cfg o (feed cfg o d s) t := by
  induction s generalizing d with
  | nil => rfl
  | cons b s ih => rw [List.cons_append, feedWrites, feedWrites, ih, feed_cons, List.append_assoc]

theorem feedWrites_header
    (o : Answers) {sel : Sel} {buf line : Bytes} (hctl : d.ctl = .liveLine l sel buf)
    (hclean : LineClean line) (hfits : buf.length + line.length < lineMax) :
    feedWrites cfg o d line = [] := by
  induction line generalizing d buf with
  | nil => rfl
  | cons b line ih =>
      have hcr : b ≠ cr := fun h => hclean.2 (by simp [h])
      have hlf : b ≠ lf := fun h => hclean.1 (by simp [h])
      have hline : LineClean line :=
        ⟨fun h => hclean.1 (by simp [h]), fun h => hclean.2 (by simp [h])⟩
      simp only [List.length_cons] at hfits
      have hmore := lioGetByte_clean hcr hlf (by omega : buf.length + 1 < lineMax)
      have hrx : rx cfg o d b = { d with ctl := .liveLine l sel (buf ++ [b]) } := by
        simp only [rx, hctl, hmore]
      have hnone : rxWrites d b = [] := by simp only [rxWrites, hctl]
      have hrest := ih (d := { d with ctl := .liveLine l sel (buf ++ [b]) }) rfl hline (by
        simp only [List.length_append, List.length_singleton]
        omega)
      rw [feedWrites, hnone, hrx, hrest, List.append_nil]

theorem feedWrites_payload
    (o : Answers) {sel : Sel} {data buf : Bytes} (hdata : data ≠ []) {len : ℕ}
    (hlen : buf.length + data.length = len) :
    feedWrites cfg o { d with ctl := .liveData l sel len buf } data =
      stdinWrites l (buf ++ data) := by
  induction data generalizing buf with
  | nil => exact absurd rfl hdata
  | cons b data ih =>
      simp only [List.length_cons] at hlen
      cases data with
      | nil =>
          have hfull : ¬ (buf ++ [b]).length < len := by
            simp only [List.length_append, List.length_singleton]
            simp only [List.length_nil] at hlen
            omega
          simp only [feedWrites, rxWrites, hfull, if_false, List.append_nil]
      | cons b' data =>
          have hpart : (buf ++ [b]).length < len := by
            simp only [List.length_append, List.length_singleton]
            simp only [List.length_cons] at hlen
            omega
          have hrest : feedWrites cfg o { d with ctl := .liveData l sel len (buf ++ [b]) }
              (b' :: data) = stdinWrites l (buf ++ [b] ++ b' :: data) :=
            ih (by simp) (by
              simp only [List.length_append, List.length_singleton]
              omega)
          rw [feedWrites]
          simp only [rxWrites, rx, hpart, if_true]
          rw [hrest]
          simp

/-- What is written while a frame is handled is what its payload gets. -/
theorem feedWrites_frame
    (o : Answers) {sel : Sel} {f : ClientFrame} (hf : f.Ok cfg)
    (hctl : d.ctl = .liveLine l sel []) :
    feedWrites cfg o d f.encode = if f.body = [] then [] else stdinWrites l f.body := by
  have htext := (reader_liveLine cfg l sel).feed_text o hctl f.head_clean (by
    simpa using hf.head_length)
  have hheader : feedWrites cfg o d f.head = [] :=
    feedWrites_header o hctl f.head_clean (by simpa using hf.head_length)
  rw [f.encode_eq, feedWrites_append, feedWrites_append, hheader, feed_append, htext]
  simp only [List.nil_append, feed_cons, feed_nil, feedWrites, rxWrites, rx, lioGetByte_lf,
    runiFrame_eq o _ l sel hf]
  split_ifs with hbody
  · rw [hbody]
    rfl
  · exact feedWrites_payload o hbody (by simp)

/-- No proper part of a frame is enough, and the whole of it is. -/
theorem consumed_frame
    (hpending : d.job.pending = false) (hmode : l.mode = .runi) (o : Answers) {sel : Sel}
    {f : ClientFrame} (hf : f.Ok cfg) (hctl : d.ctl = .liveLine l sel []) :
    Taken.Consumed cfg ⟨d, o, f⟩ := by
  have hread : ∀ text, LineClean text → text.length < lineMax →
      feed cfg o d text = { d with ctl := .liveLine l sel text } := by
    intro text hclean hfits
    exact (reader_liveLine cfg l sel).feed_text o hctl hclean (by simpa using hfits)
  refine ⟨⟨l, sel, hctl⟩, ?_, ?_⟩
  · intro start rest hsplit hrest
    dsimp only at hsplit ⊢
    rw [f.encode_eq, List.append_assoc, List.append_eq_append_iff] at hsplit
    rcases hsplit with ⟨more, rfl, hmore⟩ | ⟨more, hhead, -⟩
    · rw [feed_append, hread f.head f.head_clean hf.head_length]
      cases more with
      | nil => rfl
      | cons b part =>
          obtain ⟨rfl, htail⟩ := List.cons.inj hmore
          have hbody : f.body = part ++ rest := htail
          have hpart : part.length < f.body.length := by
            have hpos := List.length_pos_of_ne_nil hrest
            have hlen : f.body.length = part.length + rest.length := by
              rw [hbody]
              simp
            omega
          have hne : f.body ≠ [] := List.ne_nil_of_length_pos (by omega)
          simp only [feed_cons, rx, lioGetByte_lf, runiFrame_eq o _ l sel hf, if_neg hne]
          rw [feed_liveData_part cfg o _ l sel _ part [] (by simpa using hpart)]
          rfl
    · have hclean : LineClean start := by
        have hwhole := f.head_clean
        rw [hhead] at hwhole
        exact ⟨fun h => hwhole.1 (by simp [h]), fun h => hwhole.2 (by simp [h])⟩
      have hfits : start.length < lineMax := by
        have hwhole := hf.head_length
        rw [hhead, List.length_append] at hwhole
        omega
      rw [hread start hclean hfits]
      rfl
  · obtain ⟨ctl, hfeed⟩ := feed_frame o hf hctl
    have hmode' : (l.afterFrame f).mode = .runi := (same_afterFrame l f).mode.trans hmode
    dsimp only
    rw [hfeed]
    rcases @liveTail_watched cfg { d with ctl := ctl } _ hpending hmode' o sel with
      hleft | ⟨l', -, htail⟩
    · generalize (liveTail cfg o { d with ctl := ctl } (l.afterFrame f) sel).ctl = ctl' at hleft ⊢
      cases ctl' <;> first | rfl | cases hleft
    · rw [htail]
      rfl

/-! ## Runs -/

theorem runiFrames_left
    (hleft : d.ctl.supervises = false) (turns : List Turn) : runiFrames cfg d turns = [] := by
  cases turns with
  | nil => rfl
  | cons t turns =>
      have hserved : t.served cfg d = d := by
        have hstep : step cfg d (.select t.sel t.answers) = d := by
          simp only [step]
          split
          · rename_i hctl
            rw [hctl] at hleft
            cases hleft
          · rfl
        have hcontrol : d.ctl.inControl = false := by
          generalize d.ctl = ctl at hleft ⊢
          cases ctl <;> first | rfl | cases hleft
        rw [Turn.served, hstep, ctlServe_over t.answers hcontrol]
      rw [runiFrames, hserved]
      generalize d.ctl = ctl at hleft ⊢
      cases ctl <;> first | (cases t.frame <;> rfl) | cases hleft

/-- What the next turn of a run takes. -/
inductive NextTurn (cfg : Cfg) (l : Live) (turns : List Turn) : List Taken → Prop where
  | ends : NextTurn cfg l turns []
  | quiet (d' : Daemon) (l' : Live) (hctl : d'.ctl = .live l')
      (hpending : d'.job.pending = false) (h : l.Watched l') :
      NextTurn cfg l turns (runiFrames cfg d' turns)
  | frame (h : Taken) (d' : Daemon) (l' : Live) (sel : Sel)
      (hctl : h.daemon.ctl = .liveLine l' sel []) (hpending : h.daemon.job.pending = false)
      (hf : h.frame.Ok cfg) (hwatched : l.Watched l')
      (hnext : d'.ctl.supervises = false ∨ d'.job.pending = false ∧
        ∃ l'', d'.ctl = .live l'' ∧ (l'.afterFrame h.frame).Watched l'') :
      NextTurn cfg l turns (h :: runiFrames cfg d' turns)

theorem runiFrames_next
    (hctl : d.ctl = .live l) (hpending : d.job.pending = false) (hmode : l.mode = .runi)
    {t : Turn} (ht : ∀ f ∈ t.frame, f.Ok cfg) (turns : List Turn) :
    NextTurn cfg l turns (runiFrames cfg d (t :: turns)) := by
  rw [runiFrames]
  rcases served_watched hctl hpending hmode t with
    hleft | ⟨l', hwatched, hquiet, hlive | hline⟩
  · generalize (t.served cfg d).ctl = ctl at hleft ⊢
    cases ctl <;> first | (cases t.frame <;> exact .ends) | cases hleft
  · rw [hlive]
    cases hframe : t.frame with
    | some f => exact .ends
    | none =>
        have hplay : t.play cfg d = t.served cfg d := by
          simp only [Turn.play, hframe, Turn.served]
        dsimp only
        rw [hplay]
        exact .quiet _ l' hlive hquiet hwatched
  · rw [hline]
    cases hframe : t.frame with
    | none => exact .ends
    | some f =>
        have hf := ht f (by simp [hframe])
        have hplay : t.play cfg d = feed cfg t.answers (t.served cfg d) f.encode := by
          simp only [Turn.play, hframe, Turn.served]
        have hmode' : (l'.afterFrame f).mode = .runi :=
          (same_afterFrame l' f).mode.trans (hwatched.mode.trans hmode)
        obtain ⟨ctl, hfeed⟩ := feed_frame t.answers hf hline
        dsimp only
        refine .frame ⟨t.served cfg d, t.answers, f⟩ _ l' t.sel hline hquiet hf hwatched ?_
        rw [hplay, hfeed]
        rcases @liveTail_watched cfg { t.served cfg d with ctl := ctl } _
          hquiet hmode' t.answers t.sel with hleft | ⟨l'', hwatched', htail⟩
        · exact .inl hleft
        · right
          rw [htail]
          exact ⟨hquiet, l'', rfl, hwatched'⟩

/-- What holds where the run starts and is kept by passes and frames holds at
every header. -/
theorem runiFrames_forall
    {P : Live → Prop} (hpass : ∀ l l' : Live, l.Watched l' → P l → P l')
    (hframe : ∀ (l : Live) (f : ClientFrame), P l → P (l.afterFrame f))
    {turns : List Turn} (hturns : ∀ t ∈ turns, ∀ f ∈ t.frame, f.Ok cfg)
    (hctl : d.ctl = .live l) (hpending : d.job.pending = false) (hmode : l.mode = .runi)
    (hl : P l) :
    ∀ h ∈ runiFrames cfg d turns, h.daemon.job.pending = false ∧ h.frame.Ok cfg ∧
      ∃ l' sel, h.daemon.ctl = .liveLine l' sel [] ∧ l'.mode = .runi ∧ P l' := by
  induction turns generalizing d l with
  | nil => simp [runiFrames]
  | cons t turns ih =>
      have hrest : ∀ t' ∈ turns, ∀ f ∈ t'.frame, f.Ok cfg := fun t' ht' =>
        hturns t' (by simp [ht'])
      have hnext := runiFrames_next hctl hpending hmode (hturns t (by simp)) turns
      generalize runiFrames cfg d (t :: turns) = taken at hnext ⊢
      cases hnext with
      | ends => simp
      | quiet d' l' hctl' hpending' hwatched =>
          exact ih hrest hctl' hpending' (hwatched.mode.trans hmode) (hpass _ _ hwatched hl)
      | frame h d' l' sel hline hpending' hf hwatched hafter =>
          have hmode' := hwatched.mode.trans hmode
          have hl' := hpass _ _ hwatched hl
          intro h' hh'
          rcases List.mem_cons.mp hh' with rfl | hlater
          · exact ⟨hpending', hf, l', sel, hline, hmode', hl'⟩
          · rcases hafter with hleft | ⟨hquiet, l'', hctl', hwatched'⟩
            · rw [runiFrames_left hleft] at hlater
              cases hlater
            · exact ih hrest hctl' hquiet
                (hwatched'.mode.trans ((same_afterFrame l' h.frame).mode.trans hmode'))
                (hpass _ _ hwatched' (hframe _ _ hl')) h' hlater

theorem capped_writeStdin (l : Live) (data : Bytes) :
    (writeStdin l data).capped = l.capped := by
  unfold writeStdin
  split
  · rfl
  · split_ifs <;> rfl

theorem capped_afterFrame (l : Live) (f : ClientFrame) :
    (l.afterFrame f).capped = l.capped := by
  cases f with
  | kill =>
      simp only [Live.afterFrame, killChild]
      split_ifs <;> rfl
  | input data =>
      simp only [Live.afterFrame]
      split_ifs
      · rfl
      · exact capped_writeStdin l data

theorem tap_writeStdin (l : Live) (data : Bytes) :
    (writeStdin l data).tap = l.tap.bind fun pipe =>
      if (pipe.writeAll data).1 then some (pipe.writeAll data).2 else none := by
  cases hinp : l.inp with
  | none =>
      have hsame : writeStdin l data = l := by simp only [writeStdin, hinp]
      rw [hsame]
      simp [Live.tap, hinp]
  | some pipe =>
      by_cases hzero : l.killed = 0
      · simp only [writeStdin, hinp, if_pos hzero, Live.tap, Option.bind_some]
      · have hsame : writeStdin l data = l := by simp only [writeStdin, hinp, if_neg hzero]
        rw [hsame]
        simp [Live.tap, hzero]

theorem tap_afterFrame_stops
    {f : ClientFrame} (hstops : f.stops = true) : (l.afterFrame f).tap = none := by
  cases f with
  | kill => exact tap_killChild l
  | input data =>
      have hempty : data = [] := List.isEmpty_iff.mp hstops
      simp [Live.afterFrame, hempty, Live.tap]

theorem tap_afterFrame_body
    {f : ClientFrame} (hstops : f.stops = false) :
    f.body ≠ [] ∧ (l.afterFrame f).tap = l.tap.bind fun pipe =>
      if (pipe.writeAll f.body).1 then some (pipe.writeAll f.body).2 else none := by
  cases f with
  | kill => cases hstops
  | input data =>
      have hbody : data ≠ [] := by
        intro hnil
        rw [hnil] at hstops
        cases hstops
      refine ⟨hbody, ?_⟩
      simp only [Live.afterFrame, if_neg hbody]
      exact tap_writeStdin l data

/-- A pipe that takes no more stays so. -/
theorem tap_afterFrame_none
    {l : Live} {f : ClientFrame} (htap : l.tap = none) : (l.afterFrame f).tap = none := by
  cases hstops : f.stops with
  | true => exact tap_afterFrame_stops hstops
  | false =>
      rw [(tap_afterFrame_body hstops).2, htap]
      rfl

theorem tap_watched_none
    {l l' : Live} (h : l.Watched l') (htap : l.tap = none) : l'.tap = none := by
  rcases h.tap with ⟨hsame, -⟩ | ⟨hnone, -⟩
  · rw [hsame, htap]
  · exact hnone

theorem runiFrames_closed
    {turns : List Turn} (hturns : ∀ t ∈ turns, ∀ f ∈ t.frame, f.Ok cfg)
    (hctl : d.ctl = .live l) (hpending : d.job.pending = false) (hmode : l.mode = .runi)
    (htap : l.tap = none) :
    (runiFrames cfg d turns).flatMap (Taken.writes cfg) = [] := by
  have hall := runiFrames_forall (P := fun l => l.tap = none)
    (fun l l' => tap_watched_none) (fun l f => tap_afterFrame_none) hturns hctl hpending hmode
    htap
  rw [List.flatMap_eq_nil_iff]
  intro h hh
  obtain ⟨-, hf, l', sel, hline, -, hnone⟩ := hall h hh
  rw [Taken.writes, feedWrites_frame h.answers hf hline, stdinWrites, hnone]
  split_ifs <;> rfl

/-- The pipe is open, or the cap has closed it. -/
def Live.Feeds (l : Live) (pipe : Sink) : Prop :=
  l.tap = some pipe ∧ l.capped = false ∨ l.tap = none ∧ l.capped = true

theorem Live.Feeds.watched
    {l l' : Live} {pipe : Sink} (hl : l.Feeds pipe) (h : l.Watched l') : l'.Feeds pipe := by
  rcases h.tap with ⟨htap, hcap⟩ | hcapped
  · unfold Live.Feeds
    rw [htap, hcap]
    exact hl
  · exact .inr hcapped

theorem stdinWrites_open
    {pipe : Sink} (htap : l.tap = some pipe) (data : Bytes) :
    pipe.taken ++ stdinWrites l data = (pipe.writeAll data).2.taken := by
  obtain ⟨done, rest, -, htaken, -⟩ := Sink.writeLoop_prefix pipe.plan pipe.taken data
  simp only [stdinWrites, htap, Sink.writeAll, htaken, List.drop_left]

/-- What a run writes is what its payloads get, the ones before the first stop
and up to the first failed write. -/
theorem runi_writes
    {turns : List Turn} (hturns : ∀ t ∈ turns, ∀ f ∈ t.frame, f.Ok cfg)
    (hctl : d.ctl = .live l) (hpending : d.job.pending = false) (hmode : l.mode = .runi)
    {pipe : Sink} (hl : l.Feeds pipe) :
    pipe.taken ++ (runiFrames cfg d turns).flatMap (Taken.writes cfg) =
      (pipe.writeMany (payloads (runiFrames cfg d turns))).2.taken := by
  induction turns generalizing d l pipe with
  | nil => simp [runiFrames, payloads, Sink.writeMany]
  | cons t turns ih =>
      have hrest : ∀ t' ∈ turns, ∀ f ∈ t'.frame, f.Ok cfg := fun t' ht' =>
        hturns t' (by simp [ht'])
      have hnext := runiFrames_next hctl hpending hmode (hturns t (by simp)) turns
      generalize runiFrames cfg d (t :: turns) = taken at hnext ⊢
      cases hnext with
      | ends => simp [payloads, Sink.writeMany]
      | quiet d' l' hctl' hpending' hwatched =>
          exact ih hrest hctl' hpending' (hwatched.mode.trans hmode) (hl.watched hwatched)
      | frame h d' l' sel hline hpending' hf hwatched hafter =>
          have hmode' : (l'.afterFrame h.frame).mode = .runi :=
            (same_afterFrame l' h.frame).mode.trans (hwatched.mode.trans hmode)
          have hwrites := feedWrites_frame h.answers hf hline
          have hcapped : h.capped = l'.capped := by simp only [Taken.capped, hline]
          -- behind a closed pipe nothing more is written
          have hclosed : (l'.afterFrame h.frame).tap = none →
              (runiFrames cfg d' turns).flatMap (Taken.writes cfg) = [] := by
            intro htap
            rcases hafter with hleft | ⟨hquiet, l'', hctl', hwatched'⟩
            · rw [runiFrames_left hleft]
              rfl
            · exact runiFrames_closed hrest hctl' hquiet (hwatched'.mode.trans hmode')
                (tap_watched_none hwatched' htap)
          rw [List.flatMap_cons, Taken.writes, hwrites]
          rcases hl.watched hwatched with ⟨htap, hcap⟩ | ⟨htap, hcap⟩
          · cases hstops : h.frame.stops with
            | true =>
                have hbody : h.frame.body = [] := by
                  cases hframe : h.frame with
                  | kill => rfl
                  | input data =>
                      rw [hframe] at hstops
                      exact List.isEmpty_iff.mp hstops
                rw [hclosed (tap_afterFrame_stops hstops), if_pos hbody]
                simp [payloads, hstops, Sink.writeMany]
            | false =>
                obtain ⟨hbody, hnew⟩ := @tap_afterFrame_body l' h.frame hstops
                have hpayloads : payloads (h :: runiFrames cfg d' turns) =
                    h.frame.body :: payloads (runiFrames cfg d' turns) := by
                  simp [payloads, hcapped, hcap, hstops]
                rw [htap, Option.bind_some] at hnew
                rw [if_neg hbody, hpayloads, ← List.append_assoc, stdinWrites_open htap]
                simp only [Sink.writeMany]
                split_ifs at hnew ⊢ with hok
                · rcases hafter with hleft | ⟨hquiet, l'', hctl', hwatched'⟩
                  · rw [runiFrames_left hleft]
                    simp [payloads, Sink.writeMany]
                  · have hfeeds : (l'.afterFrame h.frame).Feeds (pipe.writeAll h.frame.body).2 :=
                      .inl ⟨hnew, (capped_afterFrame l' h.frame).trans hcap⟩
                    exact ih hrest hctl' hquiet (hwatched'.mode.trans hmode')
                      (hfeeds.watched hwatched')
                · rw [hclosed hnew, List.append_nil]
          · have hnone : stdinWrites l' h.frame.body = [] := by
              simp only [stdinWrites, htap]
            rw [hclosed (tap_afterFrame_none htap), hnone]
            simp [payloads, hcapped, hcap, Sink.writeMany]

end

/-! ## Delivery -/

/-- Whatever the passes of the supervision loop do in between, a RUNI command
gets the payloads before the first I 0, K or stroke of the output cap, cut at
the first failed write; and every frame is read to its end. -/
theorem runi_stdin
    (cfg : Cfg) (plan : List (Option ℕ)) (cwd : Bytes) (files : Bytes → Option Bytes)
    (evs : List Ev) {env : List EnvEntry} {jobid : ℕ} {child : Child}
    (hctl : (run cfg (Daemon.init cfg plan cwd files) evs).ctl =
      .live (Live.start .runi env jobid child))
    (turns : List Turn) (hturns : ∀ t ∈ turns, ∀ f ∈ t.frame, f.Ok cfg) :
    let taken := runiFrames cfg (run cfg (Daemon.init cfg plan cwd files) evs) turns
    let written := taken.flatMap (Taken.writes cfg)
    let stdin := (⟨child.stdin, []⟩ : Sink).writeMany (payloads taken)
    written = stdin.2.taken ∧
      (stdin.1 = true → written = (payloads taken).flatten) ∧
      (stdin.1 = false → ∃ before data after done rest,
        payloads taken = before ++ data :: after ∧ data = done ++ rest ∧ rest ≠ [] ∧
          written = before.flatten ++ done) ∧
      ∀ h ∈ taken, h.Consumed cfg := by
  intro taken written stdin
  have hpending := (inv_reachable cfg plan cwd files evs).inside.pending
  have hfeeds : (Live.start .runi env jobid child).Feeds ⟨child.stdin, []⟩ :=
    .inl ⟨rfl, rfl⟩
  have hwritten : written = stdin.2.taken := runi_writes hturns hctl hpending rfl hfeeds
  refine ⟨hwritten, ?_, ?_, ?_⟩
  · intro hok
    rw [hwritten, Sink.writeMany_ok hok]
    rfl
  · intro hfail
    obtain ⟨before, data, after, done, rest, hbufs, hdata, hrest, hend⟩ :=
      Sink.writeMany_failed hfail
    exact ⟨before, data, after, done, rest, hbufs, hdata, hrest, hwritten.trans hend⟩
  · intro h hh
    obtain ⟨hquiet, hf, l, sel, hline, hmode, -⟩ := runiFrames_forall (P := fun _ => True)
      (fun _ _ _ _ => trivial) (fun _ _ _ => trivial) hturns hctl hpending rfl trivial h hh
    exact consumed_frame hquiet hmode h.answers hf hline

/-- A RUNI session with a cap of one byte, whose child has this stdin. -/
def stdinCfg : Cfg :=
  { smallCfg with
    build := ⟨false, false, false, true, true⟩
    ix := true
    maxout := 1 }

def stdinChild (plan : List (Option ℕ)) : Child := ⟨ascii "xy", [], .exited 0, plan, []⟩

def stdinEvs (plan : List (Option ℕ)) : List Ev :=
  newPeer :: (rxAll {} (ascii "AUTH t" ++ [lf]) ++
    rxAll { child := some (stdinChild plan) } (ascii "RUNI c" ++ [lf]))

def frameTurn (out : Option ℕ) (f : ClientFrame) : Turn :=
  ⟨{ out := out, sess := true }, {}, [], some f⟩

def twoInputs (out : Option ℕ) : List Turn :=
  [frameTurn none (.input (ascii "ab")), frameTurn out (.input (ascii "c"))]

/-- The pipe takes one byte and fails. -/
theorem runi_stdin_cut :
    (runiFrames stdinCfg
      (run stdinCfg (Daemon.init stdinCfg [] [] fun _ => none) (stdinEvs [some 0, none]))
      (twoInputs none)).flatMap (Taken.writes stdinCfg) = ascii "a" := by
  have hturns : ∀ t ∈ twoInputs none, ∀ f ∈ t.frame, f.Ok stdinCfg := by
    intro t ht f hf
    simp only [twoInputs, List.mem_cons, List.not_mem_nil, or_false] at ht
    rcases ht with rfl | rfl
    · cases hf
      exact (by decide : (2 : ℕ) ≤ 4096)
    · cases hf
      exact (by decide : (1 : ℕ) ≤ 4096)
  have hctl : (run stdinCfg (Daemon.init stdinCfg [] [] fun _ => none)
      (stdinEvs [some 0, none])).ctl =
        .live (Live.start .runi [] 0 (stdinChild [some 0, none])) := by
    decide +kernel
  obtain ⟨hwritten, -, -, -⟩ := runi_stdin stdinCfg [] [] (fun _ => none)
    (stdinEvs [some 0, none]) hctl (twoInputs none) hturns
  rw [hwritten]
  decide +kernel

/-- The cap strikes in the pass that reads the second frame: its payload is
dropped, though no frame has stopped the delivery and no write has failed. -/
theorem capped_stdin_stops :
    let taken := runiFrames stdinCfg
      (run stdinCfg (Daemon.init stdinCfg [] [] fun _ => none) (stdinEvs []))
      (twoInputs (some 1))
    let unstopped := (taken.takeWhile fun h => !h.frame.stops).map fun h => h.frame.body
    unstopped = [ascii "ab", ascii "c"] ∧
      ((⟨[], []⟩ : Sink).writeMany unstopped).1 = true ∧
      taken.flatMap (Taken.writes stdinCfg) = ascii "ab" ∧
      taken.flatMap (Taken.writes stdinCfg) ≠ unstopped.flatten := by
  decide +kernel

end GrandCross
