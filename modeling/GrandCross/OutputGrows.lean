import GrandCross.DaemonStep
import GrandCross.Replies

/-!
# What has been sent stays sent

Every handler of the daemon only appends to its channel, whether its writes
succeed or not.
-/

namespace GrandCross

open CText
open Transfer

/-- The channel of `d` has carried what `c` has, and perhaps more. -/
def Grows (c : Chan) (d : Daemon) : Prop := c.sent <+: d.chan.sent

/-! ## Writes -/

theorem lioPutLine_grows (c : Chan) (line : Bytes) :
    c.sent <+: (lioPutLine c line).2.sent := by
  obtain ⟨part, hsent, -, -⟩ := lioPutLine_part c line
  exact ⟨part, hsent.symm⟩

theorem lioPutFrame_grows (frameMax : ℕ) (c : Chan) (tag : Byte) (data : Bytes) :
    c.sent <+: (lioPutFrame frameMax c tag data).2.sent := by
  obtain ⟨part, hsent, -, -⟩ := lioPutFrame_part frameMax c tag data
  exact ⟨part, hsent.symm⟩

section

variable (cfg : Cfg)

theorem sendCapped_grows (tag : Byte) (data : Bytes) (sent : ℕ) (c : Chan) :
    c.sent <+: (sendCapped cfg tag data sent c).2.1.sent := by
  unfold sendCapped
  dsimp only
  split_ifs
  · exact (lioPutFrame_grows _ c tag _).trans (lioPutFrame_grows _ _ _ _)
  · exact lioPutFrame_grows _ c tag _
  · exact lioPutFrame_grows _ c _ _
  · exact List.prefix_refl _

theorem sendReads_grows
    (tag : Byte) (reads : List Bytes) (c : Chan) (sent : ℕ) (hold : Bytes) :
    c.sent <+: (sendReads cfg tag reads c sent hold).2.1.sent := by
  induction reads generalizing c sent hold with
  | nil =>
      simp only [sendReads]
      split
      · exact List.prefix_refl _
      · split_ifs
        · exact lioPutFrame_grows _ c tag _
        · exact List.prefix_refl _
  | cons piece reads ih =>
      simp only [sendReads]
      split
      · exact List.prefix_refl _
      · split_ifs
        · exact ih c _ _
        · exact sendCapped_grows cfg tag _ sent c
        · exact (lioPutFrame_grows _ c tag _).trans (ih _ _ _)
        · exact lioPutFrame_grows _ c tag _

theorem sendFile_grows (d : Daemon) (c : Chan) (tag : Byte) (path : Bytes) (sent : ℕ) :
    c.sent <+: (sendFile cfg d c tag path sent).2.1.sent := by
  unfold sendFile
  split
  · exact List.prefix_refl _
  · exact sendReads_grows cfg tag _ c sent []

theorem sendCapture_grows (d : Daemon) (pout perr : Bytes) :
    d.chan.sent <+: (sendCapture cfg d pout perr).2.sent := by
  have hout := sendFile_grows cfg d d.chan Stream.out.tag pout 0
  unfold sendCapture
  dsimp only
  split
  · exact hout.trans (sendFile_grows cfg d _ Stream.err.tag perr _)
  · exact hout

theorem sendData_part (reads : List Bytes) (c : Chan) :
    ∃ part, (sendData cfg reads c).2.sent = c.sent ++ part ∧ part <+: encodeData reads ∧
      ((sendData cfg reads c).1 = true → part = encodeData reads) := by
  induction reads generalizing c with
  | nil => exact ⟨[], by simp [sendData], List.nil_prefix, fun _ => rfl⟩
  | cons piece reads ih =>
      obtain ⟨first, hsent, hpart, hall⟩ := lioPutFrame_part cfg.build.frameMax c 68 piece
      have hcons : encodeData (piece :: reads) =
          frameHdr 68 piece.length ++ piece ++ encodeData reads := rfl
      rw [hcons]
      simp only [sendData]
      split_ifs with hok
      · obtain ⟨rest, hsent', hpart', hall'⟩ :=
          ih (lioPutFrame cfg.build.frameMax c 68 piece).2
        rw [hall hok] at hsent
        refine ⟨frameHdr 68 piece.length ++ piece ++ rest, by rw [hsent', hsent]; simp,
          (List.prefix_append_right_inj _).mpr hpart', ?_⟩
        intro hdone
        rw [hall' hdone]
      · exact ⟨first, hsent, hpart.trans (List.prefix_append _ _), by simp⟩

theorem sendData_grows (reads : List Bytes) (c : Chan) :
    c.sent <+: (sendData cfg reads c).2.sent := by
  obtain ⟨part, hsent, -, -⟩ := sendData_part cfg reads c
  exact ⟨part, hsent.symm⟩

theorem handleAuth_grows (c : Chan) (cmd : Bytes) (arg : Option Bytes) :
    c.sent <+: (handleAuth cfg c cmd arg).2.sent := by
  unfold handleAuth
  split_ifs <;> exact lioPutLine_grows c _

theorem cvFlushAll_grows (c : Chan) (l : Live) : c.sent <+: (cvFlushAll cfg c l).sent := by
  unfold cvFlushAll
  cases cfg.cv with
  | none => exact List.prefix_refl _
  | some cv =>
      have hone : ∀ (c : Chan) (s : Stream), c.sent <+:
          (if 0 < (cv.flush (l.hold s)).length then
            lioPutFrame cfg.build.frameMax c s.tag (cv.flush (l.hold s))
          else (true, c)).2.sent := by
        intro c s
        split_ifs
        · exact lioPutFrame_grows _ c _ _
        · exact List.prefix_refl _
      dsimp only
      by_cases hflush : 0 < (cv.flush (l.hold .out)).length
      · simp only [hflush, if_true]
        have hfirst := lioPutFrame_grows cfg.build.frameMax c Stream.out.tag
          (cv.flush (l.hold .out))
        split
        · exact hfirst.trans (hone _ .err)
        · exact hfirst
      · simp only [hflush, if_false, if_true]
        exact hone c .err

/-! ## Handlers -/

variable {cfg} {c : Chan} {d : Daemon}

theorem Grows.sessionReturn (h : Grows c d) (o : Answers) :
    Grows c (sessionReturn cfg o d) := by
  unfold Grows
  rw [sessionReturn_chan]
  exact h

theorem Grows.say (h : Grows c d) (line : Bytes) :
    Grows c { d with chan := (lioPutLine d.chan line).2 } :=
  h.trans (lioPutLine_grows d.chan line)

theorem Grows.reply (h : Grows c d) (o : Answers) (env : List EnvEntry) (msg : Bytes) :
    Grows c (reply cfg o d env msg) := by
  unfold GrandCross.reply
  split_ifs
  · exact h.trans (lioPutLine_grows d.chan msg)
  · exact (h.say msg).sessionReturn o

theorem Grows.replyCapture
    {d' : Daemon} (h : Grows c d) (o : Answers) (env : List EnvEntry) (pout perr : Bytes)
    (code : ℕ) :
    Grows c (replyCapture cfg o d' env (sendCapture cfg d pout perr) code) := by
  have hsent : c.sent <+: (sendCapture cfg d pout perr).2.sent :=
    List.IsPrefix.trans h (sendCapture_grows cfg d pout perr)
  unfold GrandCross.replyCapture
  split_ifs
  · exact Grows.reply (d := { d' with chan := (sendCapture cfg d pout perr).2 }) hsent o env _
  · exact Grows.sessionReturn (d := { d' with chan := (sendCapture cfg d pout perr).2 })
      hsent o

theorem Grows.liveExec
    (h : Grows c d) (o : Answers) (mode : LiveMode) (env : List EnvEntry) (cmd : Bytes) :
    Grows c (liveExec cfg o d mode env cmd) := by
  unfold GrandCross.liveExec
  split
  · exact h.reply o env _
  · split
    · exact h.reply o env _
    · exact h

theorem Grows.runBlocking (h : Grows c d) (o : Answers) (env : List EnvEntry) :
    Grows c (runBlocking cfg o d env) := by
  unfold GrandCross.runBlocking
  split
  · exact Grows.reply (d := unlink cfg (unlink cfg d cfg.outf) cfg.errf) h o env _
  · rename_i child _
    exact Grows.replyCapture (d := { d with
      files := captureFiles cfg d.cwd d.files cfg.outf cfg.errf child.order child.out child.err })
      h o env _ _ _

theorem Grows.doPut (h : Grows c d) (o : Answers) (env : List EnvEntry)
    (path : Option Bytes) : Grows c (doPut cfg o d env path) := by
  unfold GrandCross.doPut
  split
  · exact h.reply o env _
  · exact h.reply o env _
  · rename_i b p
    have hopen : Grows c (openTrunc cfg d true (b :: p)) := by
      unfold Grows
      rw [openTrunc_chan]
      exact h
    dsimp only
    split_ifs
    · exact hopen.say _
    · exact (hopen.say _).sessionReturn o
    · exact h.reply o env _

theorem Grows.putAbort (h : Grows c d) (o : Answers) (put : Put) (msg : Option Bytes) :
    Grows c (putAbort cfg o d put msg) := by
  have hunlink : Grows c (unlink cfg d put.path) := h
  unfold GrandCross.putAbort
  cases msg with
  | none => exact hunlink.sessionReturn o
  | some msg => exact (hunlink.say msg).sessionReturn o

theorem Grows.doPutHeader (h : Grows c d) (o : Answers) (env : List EnvEntry) (put : Put)
    (line : Bytes) : Grows c (doPutHeader cfg o d env put line) := by
  unfold GrandCross.doPutHeader
  split
  · dsimp only
    split_ifs
    · exact h.reply o env _
    · exact Grows.reply (d := unlink cfg d put.path) h o env _
    · exact h.putAbort o put _
    · exact h
  · exact h.putAbort o put _

theorem Grows.doPutData (h : Grows c d) (o : Answers) (env : List EnvEntry) (put : Put)
    (data : Bytes) : Grows c (doPutData cfg o d env put data) := by
  unfold GrandCross.doPutData
  split_ifs
  · exact Grows.reply (d := unlink cfg d put.path) h o env _
  · exact h
  · exact Grows.reply (d := unlink cfg d put.path) h o env _

theorem Grows.doGet (h : Grows c d) (o : Answers) (env : List EnvEntry)
    (path : Option Bytes) : Grows c (doGet cfg o d env path) := by
  unfold GrandCross.doGet
  split
  · exact h.reply o env _
  · exact h.reply o env _
  · rename_i b p
    split
    · exact h.reply o env _
    · rename_i content _
      have hok : Grows c { d.note (.fopen (b :: p)) with
          chan := (lioPutLine (d.note (.fopen (b :: p))).chan (ascii "OK")).2 } := h.say _
      have hdata : ∀ reads, Grows c { d.note (.fopen (b :: p)) with
          chan := (sendData cfg reads
            (lioPutLine (d.note (.fopen (b :: p))).chan (ascii "OK")).2).2 } :=
        fun reads => List.IsPrefix.trans hok (sendData_grows cfg reads _)
      dsimp only
      split_ifs
      · exact (hdata _).reply o env _
      · exact (hdata _).sessionReturn o
      · exact hok.sessionReturn o

theorem Grows.doEnv (h : Grows c d) (o : Answers) (env : List EnvEntry)
    (arg : Option Bytes) : Grows c (doEnv cfg o d env arg) := by
  unfold GrandCross.doEnv
  split
  · split_ifs
    · split
      · exact h.reply o env _
      · exact h.reply o _ _
    · exact h.reply o env _
  · exact h.reply o env _

theorem Grows.doCwd (h : Grows c d) (o : Answers) (env : List EnvEntry)
    (arg : Option Bytes) : Grows c (doCwd cfg o d env arg) := by
  unfold GrandCross.doCwd
  split
  · rename_i path dir _
    exact Grows.reply (d := { d with cwd := dir, log := d.log ++ [.chdir path dir] }) h o env _
  · exact h.reply o env _

theorem Grows.doRun (h : Grows c d) (o : Answers) (env : List EnvEntry)
    (arg : Option Bytes) : Grows c (doRun cfg o d env arg) := by
  unfold GrandCross.doRun
  split
  · exact h.reply o env _
  · rename_i cmd
    have haccept : Grows c (acceptRun d .run cmd env) := h
    dsimp only
    split_ifs
    · exact haccept.liveExec o _ _ _
    · exact haccept.runBlocking o _

theorem Grows.doRuna (h : Grows c d) (o : Answers) (env : List EnvEntry)
    (arg : Option Bytes) : Grows c (doRuna cfg o d env arg) := by
  unfold GrandCross.doRuna
  split
  · exact h.reply o env _
  · rename_i cmd
    have haccept : Grows c (acceptRuna d cmd env) := h
    exact (haccept.say _).sessionReturn o

theorem Grows.doResult (h : Grows c d) (o : Answers) (env : List EnvEntry)
    (arg : Option Bytes) : Grows c (doResult cfg o d env arg) := by
  have hopen : Grows c ((d.note (.fopen cfg.rof)).note (.fopen cfg.ref)) := h
  unfold GrandCross.doResult
  split_ifs
  · exact h.reply o env _
  · exact hopen.replyCapture o env _ _ _

theorem Grows.doRuni (h : Grows c d) (o : Answers) (env : List EnvEntry)
    (arg : Option Bytes) : Grows c (doRuni cfg o d env arg) := by
  unfold GrandCross.doRuni
  split_ifs
  · split
    · exact h.reply o env _
    · rename_i cmd
      exact Grows.liveExec (d := acceptRun d .runi cmd env) h o _ _ _
  · exact h.reply o env _

theorem Grows.sessionCmd (h : Grows c d) (o : Answers) (env : List EnvEntry) (verb : Verb)
    (arg : Option Bytes) : Grows c (sessionCmd cfg o d env verb arg) := by
  cases verb with
  | ping => exact h.reply o env _
  | stat => exact h.reply o env _
  | cwd => exact h.doCwd o env arg
  | env => exact h.doEnv o env arg
  | run => exact h.doRun o env arg
  | runa => exact h.doRuna o env arg
  | result => exact h.doResult o env arg
  | runi => exact h.doRuni o env arg
  | put => exact h.doPut o env arg
  | get => exact h.doGet o env arg
  | quit => exact (h.say _).sessionReturn o
  | unknown => exact h.reply o env _

theorem Grows.sessionLine (h : Grows c d) (o : Answers) (authed : Bool)
    (env : List EnvEntry) (buf : Bytes) : Grows c (sessionLine cfg o d authed env buf) := by
  have hauth : ∀ cmd arg, Grows c { d with chan := (handleAuth cfg d.chan cmd arg).2 } :=
    fun cmd arg => h.trans (handleAuth_grows cfg d.chan cmd arg)
  unfold GrandCross.sessionLine
  dsimp only
  split_ifs
  · exact h.sessionCmd o env _ _
  · exact hauth _ _
  · exact (hauth _ _).sessionReturn o

theorem Grows.sessionRun (h : Grows c d) (o : Answers) : Grows c (sessionRun cfg o d) := by
  have hstart : Grows c
      { d with job := { d.job with pending := false }, log := d.log ++ [.sessionStart] } := h
  unfold GrandCross.sessionRun
  dsimp only
  split_ifs
  · exact hstart.say _
  · exact (hstart.say _).sessionReturn o

/-! ## Supervised commands -/

theorem Grows.pump (h : Grows c d) (l : Live) (s : Stream) (rest : Bytes) (k : ℕ) :
    Grows c (pump cfg d l s rest k).2.1 := by
  unfold GrandCross.pump
  dsimp only
  split_ifs
  · exact h
  · split
    · exact h
    · split_ifs
      · exact h
      · exact List.IsPrefix.trans h (lioPutFrame_grows _ d.chan _ _)

theorem Grows.pumpReady (h : Grows c d) (l : Live) (s : Stream) (ready : Option ℕ) :
    Grows c (pumpReady cfg d l s ready).2.1 := by
  unfold GrandCross.pumpReady
  split
  · exact h.pump l s _ _
  · exact h

theorem Grows.liveReturn (h : Grows c d) (o : Answers) (l : Live) :
    Grows c (liveReturn cfg o d l) := by
  have hflush : Grows c { d with chan := cvFlushAll cfg d.chan l } :=
    List.IsPrefix.trans h (cvFlushAll_grows cfg d.chan l)
  unfold GrandCross.liveReturn
  split
  · unfold Grows
    rw [jobFinish_chan]
    exact h
  · exact hflush.reply o _ _

theorem Grows.liveTail (h : Grows c d) (o : Answers) (l : Live) (sel : Sel) :
    Grows c (liveTail cfg o d l sel) := by
  unfold GrandCross.liveTail
  dsimp only
  split_ifs
  · exact h.liveReturn o _
  · exact h
  · exact h.liveReturn o _
  · exact h

theorem Grows.livePass (h : Grows c d) (o : Answers) (l : Live) (sel : Sel) :
    Grows c (livePass cfg o d l sel) := by
  let po := GrandCross.pumpReady cfg d l .out sel.out
  have hout : Grows c po.2.1 := h.pumpReady l .out sel.out
  let pe := GrandCross.pumpReady cfg po.2.1 po.2.2 .err sel.err
  have herr : Grows c pe.2.1 := hout.pumpReady po.2.2 .err sel.err
  have hcap : ∀ {d : Daemon}, Grows c d → ∀ l, Grows c (liveCap cfg d l).1 := by
    intro d hd l
    unfold liveCap
    split_ifs
    · exact List.IsPrefix.trans hd (lioPutFrame_grows _ d.chan _ _)
    · exact hd
  have hpass := hcap herr pe.2.2
  unfold GrandCross.livePass
  dsimp only
  split_ifs
  · exact h.liveTail o l sel
  · split
    · exact hpass
    · exact hpass.sessionReturn o
  · exact hpass.liveTail o _ sel
  · exact herr.sessionReturn o
  · exact hout.sessionReturn o

theorem Grows.runiFrame (h : Grows c d) (o : Answers) (l : Live) (sel : Sel)
    (line : Bytes) : Grows c (runiFrame cfg o d l sel line) := by
  unfold GrandCross.runiFrame
  split
  · exact h.liveTail o _ sel
  · dsimp only
    split_ifs
    · exact h.sessionReturn o
    · exact h.liveTail o _ sel
    · exact h
  · exact h.sessionReturn o

/-! ## Steps -/

theorem Grows.rx (h : Grows c d) (o : Answers) (b : Byte) : Grows c (rx cfg o d b) := by
  unfold GrandCross.rx
  split
  · exact h
  · split
    · exact h
    · split_ifs
      · exact h.sessionRun o
      · exact h
    · exact h
  · split
    · exact h
    · exact h.sessionLine o _ _ _
    · exact (h.say _).sessionReturn o
  · split
    · exact h
    · exact h.doPutHeader o _ _ _
    · exact h.putAbort o _ _
  · split_ifs
    · exact h
    · exact h.doPutData o _ _ _
  · exact h
  · split
    · exact h
    · exact h.runiFrame o _ _ _
    · exact h.sessionReturn o
  · split_ifs
    · exact h
    · exact h.liveTail o _ _
  · split_ifs
    · exact h
    · exact h.livePass o _ _
  · exact h

theorem Grows.hup (h : Grows c d) (o : Answers) : Grows c (hup cfg o d) := by
  unfold GrandCross.hup
  split
  · exact h
  · exact h
  · exact h.sessionReturn o
  · exact h.putAbort o _ _
  · exact h.putAbort o _ _
  · exact h
  · exact h.sessionReturn o
  · exact h.sessionReturn o
  · exact h.livePass o _ _
  · exact h

end

end GrandCross
