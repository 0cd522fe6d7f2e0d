import GrandCross.PutSync

/-!
# Uploads are whole or absent

`do_put` creates the file before it reads the first frame, so every exit has
to account for it.  `Uploading` says what the file holds while the frames
arrive and `PutEnd` what an exit leaves behind: no file, or the payloads of a
stream that ended with a D 0 frame.
-/

namespace GrandCross

open CText
open Transfer

/-! ## The stream of an upload -/

/-- What `lio_get_line` makes of the bytes before an LF, as a C string. -/
def rawLine (t : Bytes) : Bytes := cstr (t.filter (· ≠ cr))

/-- A D frame as it arrives, with its payload. -/
structure DFrame where
  head : Bytes
  data : Bytes
  noLf : lf ∉ head
  tag : ∃ num, rawLine head = 68 :: sp :: num ∧ atol num = data.length
  pos : data ≠ []

def DFrame.encode (f : DFrame) : Bytes := f.head ++ lf :: f.data

/-- The stream is a transfer of these bytes, up to a frame of length 0. -/
def Upload (s content : Bytes) : Prop :=
  ∃ (fs : List DFrame) (last num : Bytes), lf ∉ last ∧
    rawLine last = 68 :: sp :: num ∧ atol num = 0 ∧
    s = fs.flatMap DFrame.encode ++ (last ++ [lf]) ∧
    content = (fs.map DFrame.data).flatten

theorem not_upload_nil (content : Bytes) : ¬ Upload [] content := by
  rintro ⟨fs, last, num, -, -, -, hupload, -⟩
  simp at hupload

/-- Between sessions. -/
def Ctl.between : Ctl → Bool
  | .accept => true
  | .hello _ => true
  | .down => true
  | _ => false

/-- Where a failed read changes no file. -/
def Ctl.calm : Ctl → Bool
  | .session _ _ _ => true
  | ctl => ctl.between

/-- Nothing has been sent since, and the session is over; or what has been sent
begins like an error (`E`) or like a greeting (`G`). -/
inductive Refused (c : Chan) (d : Daemon) : Prop where
  | waiting (hsent : d.chan.sent = c.sent) (hctl : d.ctl.between = true)
      (hpending : d.job.pending = false)
  | said (b : Byte) (hb : b = 69 ∨ b = 71) (hsent : c.sent ++ [b] <+: d.chan.sent)

/-- What an exit from `do_put` leaves behind when the channel was `c` and the
inputs since were `heard`. -/
inductive PutEnd (c : Chan) (f : Bytes) (heard : List (Option Byte)) (d : Daemon) :
    Prop where
  | refused (hfile : d.files f = none) (hrefused : Refused c d)
  | stored (s content : Bytes) (hheard : heard = s.map some) (hup : Upload s content)
      (hfile : d.files f = some content) (hctl : d.ctl.calm = true)
      (hpending : d.job.pending = false)

/-- Between two inputs of an upload to `path`: the frames `fs` are stored, and
behind them a part of the next one has arrived. -/
inductive PutStage (path f : Bytes) (fs : List DFrame) (s : Bytes) : Ctl → Prop where
  | hdr (env : List EnvEntry) (t : Bytes)
      (hs : s = fs.flatMap DFrame.encode ++ t) (hlf : lf ∉ t) :
      PutStage path f fs s
        (.putHdr env ⟨path, ((fs.map DFrame.data).flatten).length⟩ (t.filter (· ≠ cr)))
  | data (env : List EnvEntry) (head num buf : Bytes) (len : ℕ)
      (hs : s = fs.flatMap DFrame.encode ++ (head ++ lf :: buf)) (hlf : lf ∉ head)
      (htag : rawLine head = 68 :: sp :: num) (hlen : atol num = len)
      (hpart : buf.length < len) :
      PutStage path f fs s
        (.putData env ⟨path, ((fs.map DFrame.data).flatten).length⟩ len buf)

/-- No job waits, the channel is as it was, and `path` names the file. -/
structure PutBase (cfg : Cfg) (c : Chan) (path f : Bytes) (d : Daemon) : Prop where
  pending : d.job.pending = false
  chan : d.chan = c
  names : cfg.resolve d.cwd path = f

structure Uploading (cfg : Cfg) (c : Chan) (path f s : Bytes) (d : Daemon) : Prop extends
    PutBase cfg c path f d where
  stage : ∃ fs, d.files f = some (fs.map DFrame.data).flatten ∧ PutStage path f fs s d.ctl

/-! ## Exits -/

section

variable {cfg : Cfg} {c : Chan} {path f : Bytes} {heard : List (Option Byte)} {d : Daemon}

theorem idleCtl_between (cfg : Cfg) : (idleCtl cfg).between = true := by
  unfold idleCtl
  cases cfg.kind <;> rfl

theorem idleCtl_calm (cfg : Cfg) : (idleCtl cfg).calm = true := by
  unfold idleCtl
  cases cfg.kind <;> rfl

/-- Behind a session nothing waits, and the files are as they were. -/
theorem sessionReturn_leaves
    (o : Answers) (hpending : d.job.pending = false) :
    (sessionReturn cfg o d).files = d.files ∧
      (sessionReturn cfg o d).ctl.calm = true ∧
      (sessionReturn cfg o d).job.pending = false := by
  rw [sessionReturn_quiet cfg o hpending]
  exact ⟨rfl, idleCtl_calm cfg, hpending⟩

theorem refused_return
    (o : Answers) (hpending : d.job.pending = false) (hsent : d.chan.sent = c.sent) :
    Refused c (sessionReturn cfg o d) := by
  rw [sessionReturn_quiet cfg o hpending]
  exact .waiting hsent (idleCtl_between cfg) hpending

/-- A line of which perhaps only a part got out refuses by its first byte. -/
theorem refused_of_part
    {d' : Daemon} {part line : Bytes} {b : Byte} (hb : b = 69 ∨ b = 71)
    (hsent : d'.chan.sent = c.sent ++ part) (hpart : part <+: b :: line)
    (hnone : part = [] → d'.ctl.between = true ∧ d'.job.pending = false) :
    Refused c d' := by
  cases part with
  | nil =>
      obtain ⟨hctl, hpending⟩ := hnone rfl
      exact .waiting (by simpa using hsent) hctl hpending
  | cons b' part =>
      obtain ⟨rfl, -⟩ := List.cons_prefix_cons.mp hpart
      refine .said b' hb ⟨part, ?_⟩
      rw [hsent]
      simp

theorem refused_lost
    (o : Answers) (hpending : d.job.pending = false) {b : Byte} (hb : b = 69 ∨ b = 71)
    (text : Bytes) :
    Refused d.chan
      (sessionReturn cfg o { d with chan := (lioPutLine d.chan (b :: text)).2 }) := by
  obtain ⟨part, hsent, hpart, -⟩ := lioPutLine_part d.chan (b :: text)
  have hreturn := sessionReturn_quiet cfg o
    (d := { d with chan := (lioPutLine d.chan (b :: text)).2 }) hpending
  rw [hreturn]
  exact refused_of_part hb hsent hpart fun _ => ⟨idleCtl_between cfg, hpending⟩

theorem refused_reply
    (o : Answers) (hpending : d.job.pending = false) (env : List EnvEntry) (text : Bytes) :
    Refused d.chan (reply cfg o d env (ascii "ERR " ++ text)) := by
  have herr : ascii "ERR " ++ text = 69 :: (ascii "RR " ++ text) := rfl
  rw [herr]
  unfold reply
  split_ifs with hsend
  · obtain ⟨part, hsent, hpart, hall⟩ := lioPutLine_part d.chan (69 :: (ascii "RR " ++ text))
    refine refused_of_part (.inl rfl) hsent hpart ?_
    intro hnone
    rw [hall hsend] at hnone
    simp at hnone
  · exact refused_lost o hpending (.inl rfl) _

theorem reply_leaves
    (o : Answers) (hpending : d.job.pending = false) (env : List EnvEntry) (msg : Bytes) :
    (reply cfg o d env msg).files = d.files ∧
      (reply cfg o d env msg).ctl.calm = true ∧
      (reply cfg o d env msg).job.pending = false := by
  unfold reply
  split_ifs
  · exact ⟨rfl, rfl, hpending⟩
  · exact sessionReturn_leaves o hpending

theorem unlink_file
    (hnames : cfg.resolve d.cwd path = f) : (unlink cfg d path).files f = none := by
  simp [unlink, hnames]

theorem PutBase.reply_refused
    (h : PutBase cfg c path f d) (o : Answers) (env : List EnvEntry) (text : Bytes) :
    PutEnd c f heard (reply cfg o (unlink cfg d path) env (ascii "ERR " ++ text)) := by
  have hpending : (unlink cfg d path).job.pending = false := h.pending
  obtain ⟨hfiles, -, -⟩ :=
    @reply_leaves cfg (unlink cfg d path) o hpending env (ascii "ERR " ++ text)
  refine .refused ?_ ?_
  · rw [hfiles, unlink_file h.names]
  · rw [← h.chan]
    exact refused_reply o hpending env text

theorem PutBase.abort
    (h : PutBase cfg c path f d) (o : Answers) (total : ℕ) (text : Option Bytes) :
    PutEnd c f heard (putAbort cfg o d ⟨path, total⟩ (text.map (ascii "ERR " ++ ·))) ∧
      (putAbort cfg o d ⟨path, total⟩ (text.map (ascii "ERR " ++ ·))).ctl.inPut = false := by
  have hpending : (unlink cfg d path).job.pending = false := h.pending
  have hgone : (unlink cfg d path).files f = none := unlink_file h.names
  refine ⟨?_, not_inPut_of_not_inSession ?_⟩
  · cases text with
    | none =>
        refine .refused ?_ ?_
        · exact (congrFun (sessionReturn_leaves o hpending).1 f).trans hgone
        · exact refused_return o hpending (congrArg Chan.sent h.chan)
    | some text =>
        refine .refused ?_ ?_
        · have hleaves := @sessionReturn_leaves cfg { unlink cfg d path with
            chan := (lioPutLine d.chan (ascii "ERR " ++ text)).2 } o hpending
          exact (congrFun hleaves.1 f).trans hgone
        · rw [← h.chan]
          exact refused_lost o hpending (.inl rfl) (ascii "RR " ++ text)
  · cases text <;> exact sessionReturn_not_inSession _ _ _

end

/-! ## One input -/

section

variable {cfg : Cfg} {c : Chan} {path f s : Bytes} {d : Daemon}

/-- The upload goes on with `s`, or it is over. -/
def PutGoesOn (cfg : Cfg) (c : Chan) (path f s : Bytes) (d : Daemon) : Prop :=
  Uploading cfg c path f s d ∨ PutEnd c f (s.map some) d ∧ d.ctl.inPut = false

theorem putGoesOn_header
    (h : PutBase cfg c path f d) {fs : List DFrame}
    (hfile : d.files f = some (fs.map DFrame.data).flatten) (o : Answers)
    (env : List EnvEntry) {t : Bytes} (hs : s = fs.flatMap DFrame.encode ++ t)
    (hlf : lf ∉ t) :
    PutGoesOn cfg c path f (s ++ [lf])
      (doPutHeader cfg o d env ⟨path, ((fs.map DFrame.data).flatten).length⟩ (rawLine t)) := by
  have hrefused : ∀ text, PutEnd c f ((s ++ [lf]).map some)
      (reply cfg o (unlink cfg d path) env (ascii "ERR " ++ text)) :=
    h.reply_refused o env
  have habort : ∀ text : Option Bytes,
      PutEnd c f ((s ++ [lf]).map some)
        (putAbort cfg o d ⟨path, ((fs.map DFrame.data).flatten).length⟩
          (text.map (ascii "ERR " ++ ·))) ∧
      (putAbort cfg o d ⟨path, ((fs.map DFrame.data).flatten).length⟩
          (text.map (ascii "ERR " ++ ·))).ctl.inPut = false :=
    h.abort o ((fs.map DFrame.data).flatten).length
  unfold doPutHeader
  split
  · rename_i num hline
    dsimp only
    split_ifs with hzero hclose hbad
    · right
      refine ⟨?_, (reply_inSession cfg _ env o _).2⟩
      obtain ⟨hfiles, hcalm, hpending⟩ := @reply_leaves cfg d o h.pending env
        (ascii "OK " ++ decimal ((fs.map DFrame.data).flatten).length)
      refine .stored (s ++ [lf]) (fs.map DFrame.data).flatten rfl ?_ ?_ hcalm hpending
      · exact ⟨fs, t, num, hlf, hline, hzero, by simp [hs], rfl⟩
      · rw [hfiles, hfile]
    · exact .inr ⟨hrefused (ascii "500 write failed"), (reply_inSession cfg _ env o _).2⟩
    · exact .inr (habort (some (ascii "400 bad frame length")))
    · left
      refine ⟨⟨h.pending, h.chan, h.names⟩, fs, hfile, ?_⟩
      refine .data env t num [] _ ?_ hlf hline ?_ ?_
      · simp [hs]
      · omega
      · simp only [List.length_nil]
        omega
  · exact .inr (habort (some (ascii "400 expected data frame")))

theorem putGoesOn_data
    (h : PutBase cfg c path f d) {fs : List DFrame}
    (hfile : d.files f = some (fs.map DFrame.data).flatten) (o : Answers)
    (env : List EnvEntry) (frame : DFrame)
    (hs : s = fs.flatMap DFrame.encode ++ frame.encode) :
    PutGoesOn cfg c path f s
      (doPutData cfg o d env ⟨path, ((fs.map DFrame.data).flatten).length⟩ frame.data) := by
  have hrefused : ∀ text, PutEnd c f (s.map some)
      (reply cfg o (unlink cfg d path) env (ascii "ERR " ++ text)) :=
    h.reply_refused o env
  have hnames := h.names
  unfold doPutData
  split_ifs
  · exact .inr ⟨hrefused (ascii "413 too large"), (reply_inSession cfg _ env o _).2⟩
  · left
    have hcontent : ((fs ++ [frame]).map DFrame.data).flatten =
        (fs.map DFrame.data).flatten ++ frame.data := by simp
    refine ⟨⟨h.pending, h.chan, h.names⟩, fs ++ [frame], ?_, ?_⟩
    · simp only [hnames, Function.update_self, hfile, Option.getD_some, hcontent]
    · have hstage : PutStage path f (fs ++ [frame]) s
          (.putHdr env ⟨path, (((fs ++ [frame]).map DFrame.data).flatten).length⟩
            (([] : Bytes).filter (· ≠ cr))) :=
        .hdr env [] (by simp [hs]) (by simp)
      rw [hcontent, List.length_append] at hstage
      exact hstage
  · exact .inr ⟨hrefused (ascii "500 write failed"), (reply_inSession cfg _ env o _).2⟩

theorem putGoesOn_rx
    (h : Uploading cfg c path f s d) (o : Answers) (b : Byte) :
    PutGoesOn cfg c path f (s ++ [b]) (rx cfg o d b) := by
  obtain ⟨fs, hfile, hstage⟩ := h.stage
  generalize hctl : d.ctl = ctl at hstage
  cases hstage with
  | hdr env t hs hlf =>
      simp only [rx, hctl, lioGetByte]
      split_ifs with hcr hend hlong
      · left
        refine ⟨⟨h.pending, h.chan, h.names⟩, fs, hfile, ?_⟩
        have hstage : PutStage path f fs (s ++ [b])
            (.putHdr env ⟨path, ((fs.map DFrame.data).flatten).length⟩
              ((t ++ [b]).filter (· ≠ cr))) := by
          refine .hdr env (t ++ [b]) (by simp [hs]) ?_
          have hne : lf ≠ b := by
            rw [hcr]
            decide
          simp [hlf, hne]
        simpa [hcr] using hstage
      · dsimp only
        rw [hend]
        exact putGoesOn_header h.toPutBase hfile o env hs hlf
      · exact .inr (h.abort o ((fs.map DFrame.data).flatten).length none)
      · left
        refine ⟨⟨h.pending, h.chan, h.names⟩, fs, hfile, ?_⟩
        have hstage : PutStage path f fs (s ++ [b])
            (.putHdr env ⟨path, ((fs.map DFrame.data).flatten).length⟩
              ((t ++ [b]).filter (· ≠ cr))) := by
          refine .hdr env (t ++ [b]) (by simp [hs]) ?_
          simp [hlf, Ne.symm hend]
        simpa [hcr] using hstage
  | data env head num buf len hs hlf htag hlen hpart =>
      simp only [rx, hctl]
      split_ifs with hmore
      · left
        refine ⟨⟨h.pending, h.chan, h.names⟩, fs, hfile, ?_⟩
        exact .data env head num (buf ++ [b]) len (by simp [hs]) hlf htag hlen hmore
      · have hfull : (buf ++ [b]).length = len := by
          simp only [List.length_append, List.length_singleton] at hmore ⊢
          omega
        let frame : DFrame :=
          ⟨head, buf ++ [b], hlf, ⟨num, htag, by rw [hlen, hfull]⟩, by simp⟩
        exact putGoesOn_data h.toPutBase hfile o env frame (by simp [hs, frame, DFrame.encode])

theorem putEnd_hup
    (h : Uploading cfg c path f s d) (o : Answers) :
    PutEnd c f (s.map some ++ [none]) (hup cfg o d) ∧
      (hup cfg o d).ctl.inPut = false := by
  obtain ⟨fs, -, hstage⟩ := h.stage
  generalize hctl : d.ctl = ctl at hstage
  cases hstage with
  | hdr env t hs hlf =>
      simp only [hup, hctl]
      exact h.abort o ((fs.map DFrame.data).flatten).length none
  | data env head num buf len hs hlf htag hlen hpart =>
      simp only [hup, hctl]
      exact h.abort o ((fs.map DFrame.data).flatten).length none

theorem Uploading.inPut (h : Uploading cfg c path f s d) : d.ctl.inPut = true := by
  obtain ⟨fs, -, hstage⟩ := h.stage
  generalize d.ctl = ctl at hstage ⊢
  cases hstage <;> rfl

/-- From any point of an upload on, the inputs that `do_put` reads leave it in
the upload or lead to one of its ends. -/
theorem putOver_uploading
    (h : Uploading cfg c path f s d) (inputs : List Input) :
    ∃ used, inputs = used ++ (putOver cfg d inputs).2 ∧
      (((putOver cfg d inputs).2 = [] ∧ ∃ s', used.map Prod.fst = s'.map some ∧
          Uploading cfg c path f (s ++ s') (putOver cfg d inputs).1) ∨
        (putOver cfg d inputs).1.ctl.inPut = false ∧
          PutEnd c f (s.map some ++ used.map Prod.fst) (putOver cfg d inputs).1) := by
  induction inputs generalizing s d with
  | nil => exact ⟨[], rfl, .inl ⟨rfl, [], rfl, by simpa [putOver] using h⟩⟩
  | cons input inputs ih =>
      obtain ⟨received, o⟩ := input
      rw [putOver, if_pos h.inPut]
      cases received with
      | none =>
          obtain ⟨hend, hover⟩ := putEnd_hup h o
          refine ⟨[(none, o)], ?_, .inr ?_⟩
          · simp [receive, putOver_stopped cfg hover]
          · simp only [receive, putOver_stopped cfg hover]
            exact ⟨hover, hend⟩
      | some b =>
          rcases putGoesOn_rx h o b with hmore | ⟨hend, hover⟩
          · obtain ⟨used, hused, hrest⟩ := ih hmore
            refine ⟨(some b, o) :: used, by simpa [receive] using hused, ?_⟩
            rcases hrest with ⟨hall, s', hs', hup⟩ | ⟨hover, hend⟩
            · exact .inl ⟨by simpa [receive] using hall, b :: s', by simp [hs'],
                by simpa [receive] using hup⟩
            · exact .inr ⟨hover, by simpa [receive] using hend⟩
          · refine ⟨[(some b, o)], ?_, .inr ?_⟩
            · simp [receive, putOver_stopped cfg hover]
            · simp only [receive, putOver_stopped cfg hover]
              exact ⟨hover, by simpa using hend⟩

end

/-! ## All or nothing -/

/-- If `do_put` is over, the file is absent, or what it read was an upload of
just these bytes. -/
def AllOrNothing (cfg : Cfg) (o : Answers) (d : Daemon) (env : List EnvEntry)
    (path : Bytes) (inputs : List Input) : Prop :=
  let r := putOver cfg (doPut cfg o d env (some path)) inputs
  r.1.ctl.inPut = false →
    r.1.files (cfg.resolve d.cwd path) = none ∨
      ∃ used s content, inputs = used ++ r.2 ∧ used.map Prod.fst = s.map some ∧
        Upload s content ∧ r.1.files (cfg.resolve d.cwd path) = some content

theorem doPut_created
    (cfg : Cfg) (d : Daemon) (o : Answers) (env : List EnvEntry) {path : Bytes}
    (hpath : path ≠ []) (hcreate : o.create = true) :
    doPut cfg o d env (some path) =
      let w := lioPutLine d.chan (ascii "OK")
      let d' := openTrunc cfg d true path
      if w.1 then { d' with chan := w.2, ctl := .putHdr env ⟨path, 0⟩ [] }
      else sessionReturn cfg o { d' with chan := w.2 } := by
  cases path with
  | nil => exact absurd rfl hpath
  | cons b p =>
      simp only [doPut, hcreate, if_true]
      rw [openTrunc_chan]

theorem uploading_doPut
    {cfg : Cfg} {d : Daemon} (hpending : d.job.pending = false) (o : Answers)
    (env : List EnvEntry) {path : Bytes} (hpath : path ≠ []) (hcreate : o.create = true)
    (hok : (lioPutLine d.chan (ascii "OK")).1 = true) :
    Uploading cfg (lioPutLine d.chan (ascii "OK")).2 path (cfg.resolve d.cwd path) []
      (doPut cfg o d env (some path)) := by
  rw [doPut_created cfg d o env hpath hcreate]
  dsimp only
  rw [if_pos hok]
  exact ⟨⟨hpending, rfl, rfl⟩, [], by simp [openTrunc], .hdr env [] rfl (by simp)⟩

/-- A created file is left whole or absent exactly when the line OK behind its
creation can be sent: that exit, and no other, forgets the file. -/
theorem put_all_or_nothing_iff
    (cfg : Cfg) (plan : List (Option ℕ)) (cwd : Bytes) (files : Bytes → Option Bytes)
    (evs : List Ev) (o : Answers) (env : List EnvEntry) (path : Bytes)
    (inputs : List Input) (hpath : path ≠ []) (hcreate : o.create = true) :
    AllOrNothing cfg o (run cfg (Daemon.init cfg plan cwd files) evs) env path inputs ↔
      (lioPutLine (run cfg (Daemon.init cfg plan cwd files) evs).chan (ascii "OK")).1 =
        true := by
  have hpending := (inv_reachable cfg plan cwd files evs).inside.pending
  generalize run cfg (Daemon.init cfg plan cwd files) evs = d at hpending ⊢
  constructor
  · intro h
    by_contra hfail
    have hput := doPut_created cfg d o env hpath hcreate
    dsimp only at hput
    rw [if_neg hfail] at hput
    have hover : (doPut cfg o d env (some path)).ctl.inPut = false := by
      rw [hput]
      exact not_inPut_of_not_inSession (sessionReturn_not_inSession _ _ _)
    have hfile : (doPut cfg o d env (some path)).files (cfg.resolve d.cwd path) =
        some [] := by
      rw [hput, (sessionReturn_leaves o (by exact hpending)).1]
      simp [openTrunc]
    unfold AllOrNothing at h
    rw [putOver_stopped cfg hover] at h
    rcases h hover with hnone | ⟨used, s, content, hused, hs, hup, -⟩
    · rw [hfile] at hnone
      cases hnone
    · have hempty : used = [] := by simpa using hused
      rw [hempty] at hs
      have hnil : s = [] := by simpa using hs.symm
      exact not_upload_nil content (hnil ▸ hup)
  · intro hok hover
    obtain ⟨used, hused, hrest⟩ :=
      putOver_uploading (uploading_doPut hpending o env hpath hcreate hok) inputs
    rcases hrest with ⟨-, s, -, hup⟩ | ⟨-, hend⟩
    · rw [hup.inPut] at hover
      cases hover
    · cases hend with
      | refused hfile hrefused => exact .inl hfile
      | stored s content hheard hup hfile hctl hpending =>
          exact .inr ⟨used, s, content, hused, by simpa using hheard, hup, hfile⟩

/-- The whole of an upload of two frames arrives. -/
theorem put_all_or_nothing_two :
    ascii "f" ≠ [] ∧ ({} : Answers).create = true ∧
      AllOrNothing smallCfg {}
        (run smallCfg (Daemon.init smallCfg [] [] fun _ => none)
          (newPeer :: rxAll {} (ascii "AUTH t" ++ [lf])))
        [] (ascii "f") (putInputs [(ascii "ab", {}), (ascii "cd", {})] {}) :=
  ⟨by decide, rfl, (put_all_or_nothing_iff smallCfg [] [] (fun _ => none)
    (newPeer :: rxAll {} (ascii "AUTH t" ++ [lf])) {} [] (ascii "f") _
    (by decide) rfl).mpr (by decide)⟩

/-- A session in which every write behind the answer to AUTH fails. -/
def goneEvs : List Ev :=
  .accept [] [some 99, some 99, some 99, some 99, none] {} ::
    rxAll {} (ascii "AUTH t" ++ [lf])

/-- The client is gone when OK is to be sent: the old content is lost and an
empty file stays behind. -/
theorem put_leaves_empty_file :
    let d := run smallCfg (Daemon.init smallCfg [] [] fun _ => some (ascii "old")) goneEvs
    d.ctl = .session true [] [] ∧
      (doPut smallCfg {} d [] (some (ascii "f"))).ctl = .accept ∧
      (doPut smallCfg {} d [] (some (ascii "f"))).files (ascii "f") = some [] ∧
      ¬ AllOrNothing smallCfg {} d [] (ascii "f") [] := by
  intro d
  have hctl : (doPut smallCfg {} d [] (some (ascii "f"))).ctl = .accept := by
    decide +kernel
  have hfile : (doPut smallCfg {} d [] (some (ascii "f"))).files (ascii "f") = some [] := by
    decide +kernel
  refine ⟨by decide +kernel, hctl, hfile, ?_⟩
  intro h
  rcases h (by rw [putOver]; rw [hctl]; rfl) with hnone | ⟨used, s, content, hused, hs, hup, -⟩
  · rw [putOver] at hnone
    have hsome : (doPut smallCfg {} d [] (some (ascii "f"))).files
        (smallCfg.resolve d.cwd (ascii "f")) = some [] := hfile
    rw [hsome] at hnone
    cases hnone
  · have hempty : used = [] := by
      rw [putOver] at hused
      simpa using hused
    rw [hempty] at hs
    have hnil : s = [] := by simpa using hs.symm
    exact not_upload_nil content (hnil ▸ hup)

end GrandCross
