import GrandCross.RuniFrames
import GrandCross.ClientStream

/-!
# RUNI and the end of the child

Client and daemon with a FIFO of bytes in each direction.  The client sends
frames until it has read the X line; the daemon turns back to commands when
both output pipes have ended.  A frame that is in flight at that moment, or
sent before the X line arrives, is read by the command loop.
-/

namespace GrandCross

open CText
open Transfer

/-! ## The two parties -/

/-- A RUNI in progress.  `up` holds the frames in flight, the front one
perhaps in part; `got` counts the bytes behind `base` that the client has
read; `parsed` is set once the command loop reads a byte of a frame. -/
structure Ix where
  daemon : Daemon
  base : ℕ
  got : ℕ
  up : List Bytes
  parsed : Bool

/-- The frames of `ix_client`: it reads at most 1024 bytes at a time. -/
def ClientFrame.fromClient : ClientFrame → Bool
  | .kill => true
  | .input data => data.length ≤ 1024

/-- `rc_out_frame` on what the client has read has met the X line. -/
def Ix.exitRead (s : Ix) : Bool :=
  0 ≤ (rcStream ⟨⟨[], (s.daemon.chan.sent.drop s.base).take s.got⟩, ⟨[], []⟩,
    ⟨[], []⟩, none⟩).1

inductive IxEv where
  /-- The client sends a frame. -/
  | frame (f : ClientFrame)
  /-- The client reads a byte. -/
  | read
  /-- The daemon reads a byte of the session channel. -/
  | deliver (o : Answers)
  /-- Any other event of the daemon. -/
  | other (ev : Ev)

def Ctl.readsSession : Ctl → Bool
  | .session _ _ _ => true
  | .putHdr _ _ _ => true
  | .putData _ _ _ _ => true
  | .liveLine _ _ _ => true
  | .liveData _ _ _ _ => true
  | _ => false

def Ctl.inCommands : Ctl → Bool
  | .session _ _ _ => true
  | _ => false

def Ev.isRx : Ev → Bool
  | .rx _ _ => true
  | _ => false

def popByte (rest : Bytes) (later : List Bytes) : List Bytes :=
  if rest = [] then later else rest :: later

def ixStep (cfg : Cfg) (s : Ix) (ev : IxEv) : Ix :=
  -- the connection is gone once the session is over
  if s.daemon.ctl.inSession then
    match ev with
    | .frame f =>
        if !s.exitRead && f.fromClient then { s with up := s.up ++ [f.encode] } else s
    | .read =>
        if s.base + s.got < s.daemon.chan.sent.length then { s with got := s.got + 1 }
        else s
    | .deliver o =>
        match s.up with
        | (b :: rest) :: later =>
            if s.daemon.ctl.readsSession then
              { s with
                daemon := rx cfg o s.daemon b
                up := popByte rest later
                parsed := s.parsed || s.daemon.ctl.inCommands }
            else s
        | _ => s
    | .other ev =>
        -- bytes of other connections reach control sessions only
        if !ev.isRx || s.daemon.ctl.inControl then
          { s with daemon := step cfg s.daemon ev }
        else s
  else s

def ixRun (cfg : Cfg) (s : Ix) (evs : List IxEv) : Ix := evs.foldl (ixStep cfg) s

/-! ## Nothing crosses the end of the child -/

/-- A read of the pipe, when this pass makes one, finds its end. -/
def Live.eof (l : Live) (s : Stream) (ready : Option ℕ) : Bool :=
  match l.pipe s with
  | none => true
  | some rest => rest.isEmpty && ready.isSome

def Live.ends (l : Live) (sel : Sel) : Bool := l.eof .out sel.out && l.eof .err sel.err

/-- The pass that this event is part of finds the end of both pipes and reads
no frame. -/
def Ctl.closing (c : Ctl) (ev : Ev) : Bool :=
  match c, ev with
  | .live l, .select sel _ => l.ends sel && !sel.sess
  | .liveCtl l sel _, _ => l.ends sel && !sel.sess
  | _, _ => false

/-- The pass that is reading a frame has found the end of both pipes. -/
def Ctl.closed : Ctl → Bool
  | .liveLine l _ _ => l.out.isNone && l.err.isNone
  | .liveData l _ _ _ => l.out.isNone && l.err.isNone
  | _ => false

/-- Frames are sent while `live_exec` runs, and none but the one being read is
in flight when it finds the end of the child's output. -/
def Ix.Calm (s : Ix) : IxEv → Prop
  | .frame _ => s.daemon.ctl.supervises = true
  | .read => True
  | .deliver _ => s.daemon.ctl.closed = true → s.up.length ≤ 1
  | .other ev => s.daemon.ctl.closing ev = true → s.up = []

def CalmRun (cfg : Cfg) : Ix → List IxEv → Prop
  | _, [] => True
  | s, ev :: evs => s.Calm ev ∧ CalmRun cfg (ixStep cfg s ev) evs

/-! ## Passes -/

section

variable {cfg : Cfg} {d : Daemon} {l : Live}

theorem pumpReady_eof
    (s : Stream) (ready : Option ℕ)
    (hok : (pumpReady cfg d l s ready).1 = true)
    (hclosed : (pumpReady cfg d l s ready).2.2.pipe s = none) :
    l.eof s ready = true := by
  have hchunk := (d.chan.kind.chunk_le cfg).1
  unfold Live.eof
  unfold pumpReady at hok hclosed
  cases hpipe : l.pipe s with
  | none => rfl
  | some rest =>
      rw [hpipe] at hok hclosed
      cases ready with
      | none => simp [hpipe] at hclosed
      | some k =>
          simp only [Option.isSome_some, Bool.and_true, List.isEmpty_iff]
          by_contra hne
          have hdata : rest.take (min (k + 1) (chanChunk d.chan)) ≠ [] := by
            rw [ne_eq, List.take_eq_nil_iff, not_or]
            refine ⟨?_, hne⟩
            unfold chanChunk
            omega
          simp only [pump, if_neg hdata] at hok hclosed
          cases hconv : convertOut cfg (l.hold s)
              (rest.take (min (k + 1) (chanChunk d.chan))) with
          | none => simp [hconv] at hok
          | some conv =>
              rw [hconv] at hclosed
              dsimp only at hclosed
              split_ifs at hclosed <;> simp at hclosed

theorem pumpReady_other
    {s t : Stream} (ht : t ≠ s) (ready : Option ℕ) :
    (pumpReady cfg d l s ready).2.2.pipe t = l.pipe t := by
  unfold pumpReady
  split
  · next rest k hpipe =>
      unfold pump
      dsimp only
      split_ifs
      · simp [ht]
      · split
        · simp [ht]
        · split_ifs <;> simp [ht]
  · rfl

/-- A pass of RUNI: the session is lost, a frame is read next, or the pass
comes to its end. -/
theorem livePass_runi
    (cfg : Cfg) (o : Answers) (d : Daemon) (sel : Sel) (hmode : l.mode = .runi) :
    (livePass cfg o d l sel).ctl.inSession = false ∨
      ∃ d' l', l'.mode = .runi ∧
        (l'.out = none → l'.err = none → l.ends sel = true) ∧
        livePass cfg o d l sel =
          if sel.sess then { d' with ctl := .liveLine l' sel [] }
          else liveTail cfg o d' l' sel := by
  have hjob : l.mode ≠ .job := by
    rw [hmode]
    decide
  let po := pumpReady cfg d l .out sel.out
  let pe := pumpReady cfg po.2.1 po.2.2 .err sel.err
  let capped := liveCap cfg pe.2.1 pe.2.2
  have hpass : livePass cfg o d l sel =
      if po.1 then
        if pe.1 then
          if sel.sess then { capped.1 with ctl := .liveLine capped.2 sel [] }
          else liveTail cfg o capped.1 capped.2 sel
        else liveLost cfg o pe.2.1
      else liveLost cfg o po.2.1 := by
    unfold livePass
    rw [if_neg hjob, hmode]
  by_cases hout : po.1 = true
  · by_cases herr : pe.1 = true
    · right
      have hsame := ((pumped_pumpReady cfg d l .out sel.out).trans
        ((pumped_pumpReady cfg _ _ .err sel.err).trans (pumped_liveCap cfg _ _))).same
      refine ⟨capped.1, capped.2, hsame.mode.trans hmode, ?_, ?_⟩
      · intro hnone hnone'
        have hpipes := liveCap_pipes cfg pe.2.1 pe.2.2
        have hpipe : po.2.2.pipe .out = none := by
          have hother : pe.2.2.pipe .out = po.2.2.pipe .out :=
            pumpReady_other (by decide) sel.err
          rw [← hother]
          exact hpipes.1.symm.trans hnone
        have hpipe' : pe.2.2.pipe .err = none := hpipes.2.symm.trans hnone'
        have heof := pumpReady_eof .out sel.out hout hpipe
        have heof' := pumpReady_eof .err sel.err herr hpipe'
        have hsameErr : po.2.2.pipe .err = l.pipe .err :=
          pumpReady_other (by decide) sel.out
        have hbefore : po.2.2.eof .err sel.err = l.eof .err sel.err := by
          unfold Live.eof
          rw [hsameErr]
        rw [hbefore] at heof'
        simp [Live.ends, heof, heof']
      · rw [hpass, if_pos hout, if_pos herr]
    · left
      rw [hpass, if_pos hout, if_neg herr]
      exact sessionReturn_not_inSession cfg o _
  · left
    rw [hpass, if_neg hout]
    exact sessionReturn_not_inSession cfg o _

/-- The end of a pass: the loop goes on, or both pipes have ended and the
command loop or the owner of the session takes over. -/
theorem liveTail_runi
    (cfg : Cfg) (o : Answers) (d : Daemon) (sel : Sel) (hmode : l.mode = .runi) :
    (∃ l', (liveTail cfg o d l sel).ctl = .live l' ∧ l'.mode = .runi) ∨
      l.out = none ∧ l.err = none ∧
        ((∃ env, (liveTail cfg o d l sel).ctl = .session true env []) ∨
          (liveTail cfg o d l sel).ctl.inSession = false) := by
  have hsame := same_liveWatch cfg l sel
  have hmode' : (liveWatch cfg l sel).mode = .runi := hsame.mode.trans hmode
  have hjob : (liveWatch cfg l sel).mode ≠ .job := by
    rw [hmode']
    decide
  have hpipes := liveWatch_pipes cfg l sel
  unfold liveTail
  simp only [if_neg hjob, hpipes.1, hpipes.2]
  split_ifs with hclosed
  · right
    refine ⟨hclosed.1, hclosed.2, ?_⟩
    unfold liveReturn
    rw [hmode']
    dsimp only
    unfold reply
    split_ifs
    · exact .inl ⟨_, rfl⟩
    · exact .inr (sessionReturn_not_inSession cfg o _)
  · exact .inl ⟨_, rfl, hmode'⟩

end

/-! ## The parties stay in step -/

def Whole (cfg : Cfg) (up : List Bytes) : Prop :=
  ∀ w ∈ up, ∃ f : ClientFrame, f.Ok cfg ∧ w = f.encode

/-- The daemon stands at a frame boundary, inside a frame whose rest comes
next, in the command loop with nothing in flight, or behind the session. -/
inductive InStep (cfg : Cfg) (s : Ix) : Prop where
  | watching (l : Live) (hctl : s.daemon.ctl = .live l) (hmode : l.mode = .runi)
      (hup : Whole cfg s.up)
  | control (l : Live) (sel : Sel) (cs : CtlSess)
      (hctl : s.daemon.ctl = .liveCtl l sel cs) (hmode : l.mode = .runi)
      (hup : Whole cfg s.up)
  | waiting (l : Live) (sel : Sel) (hctl : s.daemon.ctl = .liveLine l sel [])
      (hmode : l.mode = .runi) (hup : Whole cfg s.up)
  | header (l : Live) (sel : Sel) (buf : Bytes) (f : ClientFrame) (rest : Bytes)
      (later : List Bytes) (hctl : s.daemon.ctl = .liveLine l sel buf)
      (hmode : l.mode = .runi) (hf : f.Ok cfg) (hlf : lf ∉ buf)
      (hframe : f.encode = buf ++ rest) (hrest : rest ≠ [])
      (hup : s.up = rest :: later) (hlater : Whole cfg later)
  | payload (l : Live) (sel : Sel) (len : ℕ) (buf rest : Bytes) (later : List Bytes)
      (hctl : s.daemon.ctl = .liveData l sel len buf) (hmode : l.mode = .runi)
      (hlen : buf.length + rest.length = len) (hrest : rest ≠ [])
      (hup : s.up = rest :: later) (hlater : Whole cfg later)
  | commands (env : List EnvEntry) (hctl : s.daemon.ctl = .session true env [])
      (hup : s.up = [])
  | gone (h : s.daemon.ctl.inSession = false)

section

variable {cfg : Cfg} {s : Ix}

theorem ClientFrame.fromClient_ok
    {f : ClientFrame} (hf : f.fromClient = true) : f.Ok cfg := by
  cases f with
  | kill => trivial
  | input data =>
      have hlen : data.length ≤ 1024 := by simpa [fromClient] using hf
      have hmax : 1024 ≤ cfg.build.frameMax := (ChanKind.tcp.chunk_le cfg).2
      exact hlen.trans hmax

theorem Whole.snoc
    {up : List Bytes} (hup : Whole cfg up) {f : ClientFrame} (hf : f.Ok cfg) :
    Whole cfg (up ++ [f.encode]) := by
  intro w hw
  rcases List.mem_append.mp hw with hmem | hmem
  · exact hup w hmem
  · exact ⟨f, hf, List.mem_singleton.mp hmem⟩

theorem InStep.frame
    (h : InStep cfg s) (hrun : s.daemon.ctl.supervises = true)
    {f : ClientFrame} (hf : f.Ok cfg) :
    InStep cfg { s with up := s.up ++ [f.encode] } := by
  cases h with
  | watching l hctl hmode hup => exact .watching l hctl hmode (hup.snoc hf)
  | control l sel cs hctl hmode hup => exact .control l sel cs hctl hmode (hup.snoc hf)
  | waiting l sel hctl hmode hup => exact .waiting l sel hctl hmode (hup.snoc hf)
  | header l sel buf g rest later hctl hmode hg hlf hframe hrest hup hlater =>
      exact .header l sel buf g rest _ hctl hmode hg hlf hframe hrest
        (by simp only [hup, List.cons_append]) (hlater.snoc hf)
  | payload l sel len buf rest later hctl hmode hlen hrest hup hlater =>
      exact .payload l sel len buf rest _ hctl hmode hlen hrest
        (by simp only [hup, List.cons_append]) (hlater.snoc hf)
  | commands env hctl hup =>
      rw [hctl] at hrun
      cases hrun
  | gone hover => exact .gone hover

theorem inStep_liveTail
    (o : Answers) (d : Daemon) {l : Live} (hmode : l.mode = .runi) (sel : Sel)
    (t : Ix) (ht : t.daemon = liveTail cfg o d l sel) (hup : Whole cfg t.up)
    (hcalm : l.out = none → l.err = none → t.up = []) : InStep cfg t := by
  rcases liveTail_runi cfg o d sel hmode with
    ⟨l', hctl, hmode'⟩ | ⟨hout, herr, ⟨env, hctl⟩ | hover⟩
  · exact .watching l' (by rw [ht, hctl]) hmode' hup
  · exact .commands env (by rw [ht, hctl]) (hcalm hout herr)
  · exact .gone (by rw [ht, hover])

theorem inStep_livePass
    (o : Answers) (d : Daemon) {l : Live} (hmode : l.mode = .runi) (sel : Sel)
    (t : Ix) (ht : t.daemon = livePass cfg o d l sel) (hup : Whole cfg t.up)
    (hcalm : (l.ends sel && !sel.sess) = true → t.up = []) : InStep cfg t := by
  rcases livePass_runi cfg o d sel hmode with
    hover | ⟨d', l', hmode', hends, hpass⟩
  · exact .gone (by rw [ht, hover])
  · rw [hpass] at ht
    cases hsess : sel.sess with
    | true =>
        rw [hsess, if_pos rfl] at ht
        exact .waiting l' sel (by rw [ht]) hmode' hup
    | false =>
        rw [hsess, if_neg (by simp)] at ht
        refine inStep_liveTail o d' hmode' sel t ht hup ?_
        intro hout herr
        apply hcalm
        simp [hends hout herr, hsess]

theorem header_byte
    {f : ClientFrame} (hf : f.Ok cfg) {b : Byte} {buf rest : Bytes} (hlf : lf ∉ buf)
    (hframe : f.encode = buf ++ b :: rest) :
    b = lf ∧ buf = f.head ∧ rest = f.body ∨
      b ≠ lf ∧ rest ≠ [] ∧ lioGetByte lineMax buf b = .more (buf ++ [b]) := by
  have hclean := f.head_clean
  have hshort := hf.head_length
  rw [f.encode_eq, List.append_assoc] at hframe
  rcases List.append_eq_append_iff.mp hframe with
    ⟨mid, rfl, hmid⟩ | ⟨mid, hhead, hmid⟩
  · -- the header is used up: the LF is not in `buf`, so it is `b`
    cases mid with
    | nil =>
        simp only [List.nil_append, List.singleton_append, List.cons.injEq] at hmid
        exact .inl ⟨hmid.1.symm, by simp, hmid.2.symm⟩
    | cons c mid =>
        simp only [List.cons_append, List.cons.injEq] at hmid
        exact absurd (by simp [hmid.1]) hlf
  · cases mid with
    | nil =>
        simp only [List.nil_append, List.singleton_append, List.cons.injEq] at hmid
        exact .inl ⟨hmid.1, by simpa using hhead.symm, hmid.2⟩
    | cons c mid =>
        simp only [List.cons_append, List.cons.injEq] at hmid
        obtain ⟨rfl, hrest⟩ := hmid
        have hb : b ∈ f.head := by simp [hhead]
        have hblf : b ≠ lf := fun heq => hclean.1 (heq ▸ hb)
        have hbcr : b ≠ cr := fun heq => hclean.2 (heq ▸ hb)
        refine .inr ⟨hblf, by simp [hrest], lioGetByte_clean hbcr hblf ?_⟩
        rw [hhead, List.length_append, List.length_cons] at hshort
        omega

theorem InStep.headerByte
    (o : Answers) {l : Live} {sel : Sel} {buf : Bytes}
    (hctl : s.daemon.ctl = .liveLine l sel buf) (hmode : l.mode = .runi)
    {f : ClientFrame} (hf : f.Ok cfg) (hlf : lf ∉ buf) {b : Byte} {rest : Bytes}
    (hframe : f.encode = buf ++ b :: rest) {later : List Bytes}
    (hlater : Whole cfg later)
    (hcalm : l.out = none → l.err = none → later = []) (t : Ix)
    (ht : t.daemon = rx cfg o s.daemon b) (hup : t.up = popByte rest later) :
    InStep cfg t := by
  rcases header_byte hf hlf hframe with ⟨rfl, rfl, rfl⟩ | ⟨hne, hrest, hmore⟩
  · have hrx : rx cfg o s.daemon lf =
        runiFrame cfg o s.daemon l sel (cstr f.head) := by
      simp only [rx, hctl, lioGetByte_lf]
    rw [hrx, runiFrame_eq o s.daemon l sel hf] at ht
    by_cases hbody : f.body = []
    · obtain ⟨hout, herr⟩ := afterFrame_pipes l f
      rw [popByte, if_pos hbody] at hup
      rw [if_pos hbody] at ht
      refine inStep_liveTail o s.daemon ((same_afterFrame l f).mode.trans hmode) sel t ht ?_ ?_
      · rw [hup]
        exact hlater
      · intro hnone hnone'
        rw [hup]
        exact hcalm (hout.symm.trans hnone) (herr.symm.trans hnone')
    · rw [popByte, if_neg hbody] at hup
      rw [if_neg hbody] at ht
      exact .payload l sel f.body.length [] f.body later (by rw [ht]) hmode (by simp)
        hbody hup hlater
  · have hrx : rx cfg o s.daemon b =
        { s.daemon with ctl := .liveLine l sel (buf ++ [b]) } := by
      simp only [rx, hctl, hmore]
    rw [popByte, if_neg hrest] at hup
    refine .header l sel (buf ++ [b]) f rest later (by rw [ht, hrx]) hmode hf ?_
      (by simp [hframe]) hrest hup hlater
    simp only [List.mem_append, List.mem_singleton, not_or]
    exact ⟨hlf, fun heq => hne heq.symm⟩

theorem InStep.payloadByte
    (o : Answers) {l : Live} {sel : Sel} {len : ℕ} {buf : Bytes}
    (hctl : s.daemon.ctl = .liveData l sel len buf) (hmode : l.mode = .runi)
    {b : Byte} {rest : Bytes} (hlen : buf.length + (b :: rest).length = len)
    {later : List Bytes} (hlater : Whole cfg later)
    (hcalm : l.out = none → l.err = none → later = []) (t : Ix)
    (ht : t.daemon = rx cfg o s.daemon b) (hup : t.up = popByte rest later) :
    InStep cfg t := by
  have hcount : (buf ++ [b]).length + rest.length = len := by
    simp only [List.length_append, List.length_cons, List.length_nil] at hlen ⊢
    omega
  by_cases hrest : rest = []
  · have hfull : ¬ (buf ++ [b]).length < len := by
      rw [hrest, List.length_nil] at hcount
      omega
    have hrx : rx cfg o s.daemon b =
        liveTail cfg o s.daemon (writeStdin l (buf ++ [b])) sel := by
      simp only [rx, hctl, if_neg hfull]
    have hpipes := writeStdin_pipes l (buf ++ [b])
    rw [popByte, if_pos hrest] at hup
    rw [hrx] at ht
    refine inStep_liveTail o s.daemon ((same_writeStdin l _).mode.trans hmode) sel t ht
      ?_ ?_
    · rw [hup]
      exact hlater
    · intro hnone hnone'
      rw [hup]
      exact hcalm (hpipes.1.symm.trans hnone) (hpipes.2.symm.trans hnone')
  · have hpart : (buf ++ [b]).length < len := by
      have := List.length_pos_iff.mpr hrest
      omega
    have hrx : rx cfg o s.daemon b =
        { s.daemon with ctl := .liveData l sel len (buf ++ [b]) } := by
      simp only [rx, hctl, if_pos hpart]
    rw [popByte, if_neg hrest] at hup
    exact .payload l sel len (buf ++ [b]) rest later (by rw [ht, hrx]) hmode hcount
      hrest hup hlater

theorem Whole.cons
    {w : Bytes} {later : List Bytes} (h : Whole cfg (w :: later)) :
    (∃ f : ClientFrame, f.Ok cfg ∧ w = f.encode) ∧ Whole cfg later :=
  ⟨h w (by simp), fun v hv => h v (by simp [hv])⟩

theorem InStep.deliver
    (h : InStep cfg s) (o : Answers) (hreads : s.daemon.ctl.readsSession = true)
    {b : Byte} {rest : Bytes} {later : List Bytes}
    (hhead : s.up = (b :: rest) :: later)
    (hcalm : s.daemon.ctl.closed = true → s.up.length ≤ 1)
    (hin : s.daemon.ctl.inSession = true) (t : Ix)
    (ht : t.daemon = rx cfg o s.daemon b) (hup : t.up = popByte rest later) :
    InStep cfg t ∧ s.daemon.ctl.inCommands = false := by
  have hlast : ∀ l : Live, s.daemon.ctl.closed = (l.out.isNone && l.err.isNone) →
      l.out = none → l.err = none → later = [] := by
    intro l hclosed hout herr
    rw [hclosed, hout, herr] at hcalm
    have hlen := hcalm rfl
    rw [hhead] at hlen
    cases later with
    | nil => rfl
    | cons w later => simp at hlen
  cases h with
  | watching l hctl =>
      rw [hctl] at hreads
      cases hreads
  | control l sel cs hctl =>
      rw [hctl] at hreads
      cases hreads
  | waiting l sel hctl hmode hwhole =>
      rw [hhead] at hwhole
      obtain ⟨⟨f, hf, hframe⟩, hlater⟩ := hwhole.cons
      refine ⟨?_, by rw [hctl]; rfl⟩
      exact InStep.headerByte o hctl hmode hf (by simp) hframe.symm hlater
        (hlast l (by rw [hctl]; rfl)) t ht hup
  | header l sel buf f rest' later' hctl hmode hf hlf hframe _ hup' hlater =>
      rw [hhead, List.cons.injEq] at hup'
      obtain ⟨rfl, rfl⟩ := hup'
      refine ⟨?_, by rw [hctl]; rfl⟩
      exact InStep.headerByte o hctl hmode hf hlf hframe hlater
        (hlast l (by rw [hctl]; rfl)) t ht hup
  | payload l sel len buf rest' later' hctl hmode hlen _ hup' hlater =>
      rw [hhead, List.cons.injEq] at hup'
      obtain ⟨rfl, rfl⟩ := hup'
      refine ⟨?_, by rw [hctl]; rfl⟩
      exact InStep.payloadByte o hctl hmode hlen hlater
        (hlast l (by rw [hctl]; rfl)) t ht hup
  | commands env hctl hnone =>
      rw [hnone] at hhead
      cases hhead
  | gone hover =>
      rw [hover] at hin
      cases hin

theorem InStep.congr
    (h : InStep cfg s) {t : Ix} (hctl' : t.daemon.ctl = s.daemon.ctl)
    (hup' : t.up = s.up) : InStep cfg t := by
  cases h with
  | watching l hctl hmode hup =>
      exact .watching l (hctl'.trans hctl) hmode (hup' ▸ hup)
  | control l sel cs hctl hmode hup =>
      exact .control l sel cs (hctl'.trans hctl) hmode (hup' ▸ hup)
  | waiting l sel hctl hmode hup =>
      exact .waiting l sel (hctl'.trans hctl) hmode (hup' ▸ hup)
  | header l sel buf f rest later hctl hmode hf hlf hframe hrest hup hlater =>
      exact .header l sel buf f rest later (hctl'.trans hctl) hmode hf hlf hframe hrest
        (hup'.trans hup) hlater
  | payload l sel len buf rest later hctl hmode hlen hrest hup hlater =>
      exact .payload l sel len buf rest later (hctl'.trans hctl) hmode hlen hrest
        (hup'.trans hup) hlater
  | commands env hctl hup => exact .commands env (hctl'.trans hctl) (hup'.trans hup)
  | gone hover => exact .gone (by rw [hctl', hover])

/-- While the session channel is read, other events change nothing or end the
session. -/
theorem step_reading
    (cfg : Cfg) {d : Daemon} (hreads : d.ctl.readsSession = true) {ev : Ev}
    (hrx : ev.isRx = false) :
    step cfg d ev = d ∨ (step cfg d ev).ctl.inSession = false := by
  have hreturn := sessionReturn_not_inSession cfg
  cases ev with
  | accept peer plan o =>
      left
      cases hctl : d.ctl <;> simp_all [step, Ctl.readsSession]
  | rx b o => simp [Ev.isRx] at hrx
  | hup o =>
      right
      cases hctl : d.ctl <;> simp_all [step, hup, Ctl.readsSession, putAbort, liveLost]
  | select sel o =>
      left
      cases hctl : d.ctl <;> simp_all [step, Ctl.readsSession]

/-- An event in the watching loop starts a pass of it, or a control session, or
is not for the daemon. -/
theorem inStep_of_watching
    {d : Daemon} {l : Live} (hctl : d.ctl = .live l) (hmode : l.mode = .runi)
    {ev : Ev} (t : Ix) (ht : t.daemon = step cfg d ev) (hwhole : Whole cfg t.up)
    (hcalm : d.ctl.closing ev = true → t.up = []) : InStep cfg t := by
  cases ev with
  | accept peer plan o => exact .watching l (by simp only [ht, step, hctl]) hmode hwhole
  | rx b o => exact .watching l (by simp only [ht, step, rx, hctl]) hmode hwhole
  | hup o => exact .watching l (by simp only [ht, step, GrandCross.hup, hctl]) hmode hwhole
  | select sel o =>
      rw [hctl] at hcalm
      simp only [step, hctl, liveSelect] at ht
      cases hls : sel.ls with
      | none =>
          rw [hls] at ht
          exact inStep_livePass o d hmode sel t ht hwhole hcalm
      | some conn =>
          rw [hls] at ht
          dsimp only at ht
          split_ifs at ht
          · exact .control l sel _ (by rw [ht]) hmode hwhole
          · exact inStep_livePass o d hmode sel t ht hwhole hcalm
          · exact inStep_livePass o d hmode sel t ht hwhole hcalm

/-- An event in a control session keeps the daemon there or goes on with the
pass that it interrupted. -/
theorem inStep_of_control
    {d : Daemon} {l : Live} {sel : Sel} {cs : CtlSess} (hctl : d.ctl = .liveCtl l sel cs)
    (hmode : l.mode = .runi) {ev : Ev} (t : Ix) (ht : t.daemon = step cfg d ev)
    (hwhole : Whole cfg t.up) (hcalm : d.ctl.closing ev = true → t.up = []) :
    InStep cfg t := by
  rw [hctl] at hcalm
  cases ev with
  | accept peer plan o => exact .control l sel cs (by simp only [ht, step, hctl]) hmode hwhole
  | rx b o =>
      simp only [step, rx, hctl] at ht
      split_ifs at ht
      · exact .control l sel _ (by rw [ht]) hmode hwhole
      · exact inStep_livePass o d hmode sel t ht hwhole hcalm
  | hup o =>
      simp only [step, GrandCross.hup, hctl] at ht
      exact inStep_livePass o d hmode sel t ht hwhole hcalm
  | select sel' o => exact .control l sel cs (by simp only [ht, step, hctl]) hmode hwhole

theorem InStep.other
    (h : InStep cfg s) {ev : Ev} (hforeign : (!ev.isRx || s.daemon.ctl.inControl) = true)
    (hcalm : s.daemon.ctl.closing ev = true → s.up = [])
    (hin : s.daemon.ctl.inSession = true) (t : Ix)
    (ht : t.daemon = step cfg s.daemon ev) (hup : t.up = s.up) : InStep cfg t := by
  have hreading : s.daemon.ctl.readsSession = true →
      s.daemon.ctl.inControl = false → InStep cfg s → InStep cfg t := by
    intro hreads hcontrol h
    have hrx : ev.isRx = false := by simpa [hcontrol] using hforeign
    rcases step_reading cfg hreads hrx with hsame | hover
    · exact h.congr (by rw [ht, hsame]) hup
    · exact .gone (by rw [ht, hover])
  rw [← hup] at hcalm
  cases h with
  | watching l hctl hmode hwhole =>
      rw [← hup] at hwhole
      exact inStep_of_watching hctl hmode t ht hwhole hcalm
  | control l sel cs hctl hmode hwhole =>
      rw [← hup] at hwhole
      exact inStep_of_control hctl hmode t ht hwhole hcalm
  | waiting l sel hctl hmode hwhole =>
      exact hreading (by rw [hctl]; rfl) (by rw [hctl]; rfl)
        (.waiting l sel hctl hmode hwhole)
  | header l sel buf f rest later hctl hmode hf hlf hframe hrest hup' hlater =>
      exact hreading (by rw [hctl]; rfl) (by rw [hctl]; rfl)
        (.header l sel buf f rest later hctl hmode hf hlf hframe hrest hup' hlater)
  | payload l sel len buf rest later hctl hmode hlen hrest hup' hlater =>
      exact hreading (by rw [hctl]; rfl) (by rw [hctl]; rfl)
        (.payload l sel len buf rest later hctl hmode hlen hrest hup' hlater)
  | commands env hctl hnone =>
      exact hreading (by rw [hctl]; rfl) (by rw [hctl]; rfl) (.commands env hctl hnone)
  | gone hover =>
      rw [hover] at hin
      cases hin

theorem InStep.step
    (h : InStep cfg s) {ev : IxEv} (hcalm : s.Calm ev) :
    InStep cfg (ixStep cfg s ev) ∧ (ixStep cfg s ev).parsed = s.parsed := by
  by_cases hin : s.daemon.ctl.inSession = true
  · unfold ixStep
    rw [if_pos hin]
    cases ev with
    | frame f =>
        dsimp only
        split_ifs with hsends
        · have hf : f.fromClient = true := by
            simp only [Bool.and_eq_true] at hsends
            exact hsends.2
          exact ⟨h.frame hcalm (ClientFrame.fromClient_ok hf), rfl⟩
        · exact ⟨h, rfl⟩
    | read =>
        dsimp only
        split_ifs
        · exact ⟨h.congr rfl rfl, rfl⟩
        · exact ⟨h, rfl⟩
    | deliver o =>
        dsimp only
        split
        · next b rest later hup =>
            split_ifs with hreads
            · obtain ⟨hstep, hcommands⟩ := h.deliver o hreads hup hcalm hin
                { s with
                  daemon := rx cfg o s.daemon b
                  up := popByte rest later
                  parsed := s.parsed || s.daemon.ctl.inCommands } rfl rfl
              exact ⟨hstep, by simp [hcommands]⟩
            · exact ⟨h, rfl⟩
        · exact ⟨h, rfl⟩
    | other ev =>
        dsimp only
        split_ifs with hforeign
        · exact ⟨h.other hforeign hcalm hin _ rfl rfl, rfl⟩
        · exact ⟨h, rfl⟩
  · unfold ixStep
    rw [if_neg hin]
    exact ⟨h, rfl⟩

end

/-- In every run in which frames are sent while `live_exec` runs, and none but
the one being read is in flight when it finds the end of the child's output,
the command loop never reads a byte of a frame. -/
theorem runi_frames_never_parsed
    (cfg : Cfg) (d : Daemon) (env : List EnvEntry) (child : Child)
    (hctl : d.ctl = .live (Live.start .runi env 0 child)) (evs : List IxEv)
    (hcalm : CalmRun cfg ⟨d, d.chan.sent.length, 0, [], false⟩ evs) :
    (ixRun cfg ⟨d, d.chan.sent.length, 0, [], false⟩ evs).parsed = false := by
  have hstart : InStep cfg ⟨d, d.chan.sent.length, 0, [], false⟩ :=
    .watching _ hctl rfl (by simp [Whole])
  have hrun : ∀ (evs : List IxEv) (s : Ix), InStep cfg s → s.parsed = false →
      CalmRun cfg s evs → (ixRun cfg s evs).parsed = false := by
    intro evs
    induction evs with
    | nil =>
        intro s _ hparsed _
        exact hparsed
    | cons ev evs ih =>
        intro s h hparsed hcalm
        obtain ⟨hnext, hsame⟩ := h.step hcalm.1
        exact ih (ixStep cfg s ev) hnext (hsame.trans hparsed) hcalm.2
  exact hrun evs _ hstart rfl hcalm

/-! ## A frame in flight -/

/-- A POSIX build without listen socket traffic; `cat` is running. -/
def ixCfg : Cfg := { smallCfg with build := ⟨false, false, false, true, true⟩, ix := true }

def ixStart : Daemon :=
  run ixCfg (Daemon.init ixCfg [] [] fun _ => none)
    (newPeer :: rxAll {} (ascii "AUTH t" ++ [lf]) ++
      rxAll { child := some ⟨[], [], .exited 0, [], []⟩ } (ascii "RUNI cat" ++ [lf]))

def ixSystem : Ix := ⟨ixStart, ixStart.chan.sent.length, 0, [], false⟩

def bothEnded : Ev := .select { out := some 0, err := some 0 } {}

/-- The frame is read in one pass, the end of the child found in the next. -/
def calmEvents : List IxEv :=
  [.frame (.input (ascii "hi")), .other (.select { sess := true } {})] ++
    List.replicate 6 (.deliver {}) ++ [.other bothEnded, .read]

theorem runi_calm :
    CalmRun ixCfg ixSystem calmEvents ∧ (ixRun ixCfg ixSystem calmEvents).parsed = false := by
  have hcalm : CalmRun ixCfg ixSystem calmEvents := by
    simp only [CalmRun, calmEvents, List.replicate, List.cons_append, List.nil_append,
      Ix.Calm]
    decide +kernel
  have hctl : ixStart.ctl = .live (Live.start .runi [] 0 ⟨[], [], .exited 0, [], []⟩) := by
    decide +kernel
  exact ⟨hcalm, runi_frames_never_parsed ixCfg ixStart [] _ hctl calmEvents hcalm⟩

/-- The frame is sent before the X line arrives, but the child has ended: its
header and its payload are commands, and the payload starts one. -/
theorem runi_frame_parsed :
    (ixRun ixCfg ixSystem
        ([.frame (.input (ascii "RUN x" ++ [lf])), .other bothEnded] ++
          List.replicate 10 (.deliver {}))).parsed = true ∧
      Obs.run .run (ascii "x") [] ∈
        (ixRun ixCfg ixSystem
          ([.frame (.input (ascii "RUN x" ++ [lf])), .other bothEnded] ++
            List.replicate 10 (.deliver {}))).daemon.log := by
  decide +kernel

end GrandCross
