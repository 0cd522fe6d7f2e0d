import GrandCross.Replies
import GrandCross.DaemonStep

/-!
# The output cap on captured files

`send_file` counts what it sends over both capture files.  The budget is used
up at the same byte however the files are read in pieces, and a notice stands
behind each file that is cut.
-/

namespace GrandCross

open CText
open Transfer

def noticeFrame : Frame :=
  ⟨.err, capNotice, by decide, by decide⟩

def noticeIf (dropped : Prop) [Decidable dropped] : List Frame :=
  if dropped then [noticeFrame] else []

theorem noticeIf_congr
    {p q : Prop} [Decidable p] [Decidable q] (h : p ↔ q) : noticeIf p = noticeIf q := by
  simp only [noticeIf, h]

/-- The frames that carry one stream, and the bytes in them. -/
structure Carried (s : Stream) (data : Bytes) (fs : List Frame) : Prop where
  stream : ∀ f ∈ fs, f.stream = s
  data : payload s fs = data

theorem carried_nil (s : Stream) : Carried s [] [] := ⟨by simp, rfl⟩

theorem Carried.cons
    {s : Stream} {data : Bytes} {fs : List Frame} (h : Carried s data fs) {piece : Bytes}
    (hpos : 1 ≤ piece.length) (hfits : piece.length ≤ wireFrameMax) :
    Carried s (piece ++ data) (⟨s, piece, hpos, hfits⟩ :: fs) := by
  refine ⟨?_, ?_⟩
  · intro f hf
    rcases List.mem_cons.mp hf with rfl | hf
    · rfl
    · exact h.stream f hf
  · rw [payload_cons, if_pos rfl, h.data]

/-! ## One file -/

section

variable {cfg : Cfg} (kind : ChanKind) (s : Stream)

theorem notice_emits (cfg : Cfg) (total : ℕ) :
    EmitsN kind (fun c =>
      (true, (lioPutFrame cfg.build.frameMax c Stream.err.tag capNotice).2, total)) true
      [noticeFrame] total := by
  obtain ⟨fs, hemits, hshape⟩ := emits_lioPutFrame cfg kind .err capNotice
  obtain ⟨hpos, hfits, rfl⟩ := hshape (capNotice_fits cfg)
  constructor
  intro c hc hkind
  obtain ⟨-, hsent, hsteady, hkind'⟩ := hemits.on c hc hkind
  exact ⟨rfl, hsent, hsteady, hkind', rfl⟩

/-- The piece that reaches the cap: what still fits, then the notice. -/
theorem sendCapped_exact
    (piece : Bytes) {sent : ℕ} (hsent : sent ≤ cfg.maxout)
    (hpiece : piece.length ≤ cfg.build.frameMax)
    (hcap : cfg.maxout < sent + piece.length) :
    ∃ body, Carried s (piece.take (cfg.maxout - sent)) body ∧
      EmitsN kind (fun c => sendCapped cfg s.tag piece sent c) true
        (body ++ [noticeFrame]) cfg.maxout := by
  have htotal : sent + (cfg.maxout - sent) = cfg.maxout := by omega
  have hlast := notice_emits kind cfg (sent + (cfg.maxout - sent))
  rw [htotal] at hlast
  by_cases hroom : 0 < cfg.maxout - sent
  · have hlen : (piece.take (cfg.maxout - sent)).length = cfg.maxout - sent := by
      rw [List.length_take]
      omega
    have hfits : 1 ≤ (piece.take (cfg.maxout - sent)).length ∧
        (piece.take (cfg.maxout - sent)).length ≤ cfg.build.frameMax := by omega
    obtain ⟨fs, hframe, hshape⟩ :=
      emits_lioPutFrame cfg kind s (piece.take (cfg.maxout - sent))
    obtain ⟨hpos, hmax, rfl⟩ := hshape hfits
    have hall := hframe.andThen hlast sent
    simp only [hfits, and_self, decide_true, Bool.and_true, if_true] at hall
    refine ⟨[⟨s, _, hpos, hmax⟩], ?_, ?_⟩
    · have hcarried := (carried_nil s).cons hpos hmax
      rw [List.append_nil] at hcarried
      exact hcarried
    · simp only [sendCapped, hroom, if_true, htotal]
      exact hall
  · have hzero : cfg.maxout - sent = 0 := by omega
    refine ⟨[], ?_, ?_⟩
    · rw [hzero]
      exact carried_nil s
    · simp only [sendCapped, hroom, if_false, if_true, htotal]
      exact hlast

/-- From any point on, what is sent are the bytes up to the cap, and the notice
when some are left. -/
theorem sendReads_exact
    (hcv : cfg.cv = none) (hcap : 0 < cfg.maxout) {reads : List Bytes}
    (hreads : ∀ piece ∈ reads, 1 ≤ piece.length ∧ piece.length ≤ cfg.build.frameMax)
    {sent : ℕ} (hsent : sent ≤ cfg.maxout) (hold : Bytes) :
    ∃ body, Carried s (reads.flatten.take (cfg.maxout - sent)) body ∧
      EmitsN kind (fun c => sendReads cfg s.tag reads c sent hold) true
        (body ++ noticeIf (cfg.maxout < sent + reads.flatten.length))
        (min cfg.maxout (sent + reads.flatten.length)) := by
  induction reads generalizing sent with
  | nil =>
      refine ⟨[], by simpa using carried_nil s, ?_⟩
      have hnone : noticeIf (cfg.maxout < sent + ([] : List Bytes).flatten.length) = [] := by
        rw [noticeIf, if_neg (by simpa using hsent)]
      have htotal : min cfg.maxout (sent + ([] : List Bytes).flatten.length) = sent := by
        simpa using hsent
      simp only [sendReads, hcv, hnone, htotal]
      exact emitsN_done kind true sent
  | cons piece reads ih =>
      have hpiece := hreads piece (by simp)
      have hne : piece ≠ [] := by
        intro h
        simp [h] at hpiece
      rw [List.flatten_cons, List.length_append]
      simp only [sendReads, convertOut, hcv, hne, if_false]
      by_cases hover : cfg.maxout < sent + piece.length
      · obtain ⟨body, hbody, hemits⟩ :=
          sendCapped_exact kind s piece hsent hpiece.2 hover
        refine ⟨body, ?_, ?_⟩
        · rw [List.take_append_of_le_length (by omega)]
          exact hbody
        · have hdropped : cfg.maxout < sent + (piece.length + reads.flatten.length) := by omega
          rw [noticeIf, if_pos hdropped, min_eq_left hdropped.le]
          simp only [hcap, hover, and_self, if_true]
          exact hemits
      · obtain ⟨body, hbody, hrest⟩ :=
          ih (fun p hp => hreads p (by simp [hp])) (Nat.le_of_not_lt hover)
        obtain ⟨frame, hframe, hshape⟩ := emits_lioPutFrame cfg kind s piece
        obtain ⟨hpos, hfits, rfl⟩ := hshape hpiece
        have hall := hframe.andThen hrest sent
        simp only [hpiece, and_self, decide_true, Bool.and_true, if_true] at hall
        refine ⟨⟨s, piece, hpos, hfits⟩ :: body, ?_, ?_⟩
        · have hcarried := hbody.cons hpos hfits
          have htake : (piece ++ reads.flatten).take (cfg.maxout - sent) =
              piece ++ reads.flatten.take (cfg.maxout - (sent + piece.length)) := by
            rw [List.take_append, List.take_of_length_le (by omega)]
            congr 2
            omega
          rw [htake]
          exact hcarried
        · have hwithin : ¬ (0 < cfg.maxout ∧ cfg.maxout < sent + piece.length) := by omega
          simp only [hwithin, if_false, ← Nat.add_assoc]
          exact hall

theorem sendFile_exact
    (hcv : cfg.cv = none) (hcap : 0 < cfg.maxout) (content : Bytes) {sent : ℕ}
    (hsent : sent ≤ cfg.maxout) :
    ∃ body, Carried s (content.take (cfg.maxout - sent)) body ∧
      ∀ (d : Daemon) (path : Bytes), d.files (cfg.resolve d.cwd path) = some content →
        EmitsN kind (fun c => sendFile cfg d c s.tag path sent) true
          (body ++ noticeIf (cfg.maxout < sent + content.length))
          (min cfg.maxout (sent + content.length)) := by
  obtain ⟨hflat, hlen⟩ := pieces_chanChunk cfg kind content
  obtain ⟨body, hbody, hemits⟩ :=
    sendReads_exact kind s hcv hcap hlen hsent []
  rw [hflat] at hbody hemits
  refine ⟨body, hbody, ?_⟩
  intro d path hfile
  constructor
  intro c hc hkind
  have hchunk : chanChunk c = kind.chunk := by rw [chanChunk, hkind]
  simp only [sendFile, hfile, hchunk]
  exact hemits.on c hc hkind

end

/-! ## Both files -/

/-- A reply under the cap: the first bytes of both files, a notice behind each
that is cut, and the exit line. -/
def CappedReply (cap : ℕ) (out err : Bytes) (code : ℕ) (w : Bytes) : Prop :=
  ∃ fo fe : List Frame,
    Carried .out (out.take (min cap out.length)) fo ∧
    Carried .err (err.take (min err.length (cap - min cap out.length))) fe ∧
    w = encodeFrames
        (fo ++ noticeIf (min cap out.length < out.length) ++
          (fe ++ noticeIf (min err.length (cap - min cap out.length) < err.length))) ++
      (exitLine code ++ [lf])

theorem sendCapture_exact
    {cfg : Cfg} (hcv : cfg.cv = none) (hcap : 0 < cfg.maxout) {d : Daemon}
    (hd : d.chan.Steady) (d' : Daemon) (o : Answers) (env : List EnvEntry)
    {pout perr out err : Bytes} (hout : d.files (cfg.resolve d.cwd pout) = some out)
    (herr : d.files (cfg.resolve d.cwd perr) = some err) (code : ℕ) :
    ∃ c w, CappedReply cfg.maxout out err code w ∧ c.sent = d.chan.sent ++ w ∧ c.Steady ∧
      replyCapture cfg o d' env (sendCapture cfg d pout perr) code =
        { d' with chan := c, ctl := .session true env [] } := by
  obtain ⟨fo, hfo, hsendOut⟩ :=
    sendFile_exact d.chan.kind .out hcv hcap out (Nat.zero_le cfg.maxout)
  simp only [Nat.zero_add] at hsendOut
  obtain ⟨fe, hfe, hsendErr⟩ :=
    sendFile_exact d.chan.kind .err hcv hcap err
      (min_le_left cfg.maxout out.length)
  obtain ⟨hok, hsent, hsteady, hkind, htotal⟩ := (hsendOut d pout hout).on d.chan hd rfl
  obtain ⟨hok', hsent', hsteady', hkind', -⟩ :=
    (hsendErr d perr herr).on _ hsteady hkind
  have hcapture : sendCapture cfg d pout perr =
      (true, (sendFile cfg d (sendFile cfg d d.chan Stream.out.tag pout 0).2.1 Stream.err.tag
        perr (min cfg.maxout out.length)).2.1) := by
    simp only [sendCapture, hok, if_true, htotal, hok']
  have hcaptured : (sendCapture cfg d pout perr).2.Steady := by
    rw [hcapture]
    exact hsteady'
  obtain ⟨c, hc, -, hwhole, -⟩ := replyCapture_steady cfg o (d := d') env hcaptured code
  obtain ⟨hsentc, hreply⟩ := hwhole (by rw [hcapture])
  rw [Nat.sub_zero] at hfo
  refine ⟨c, _, ⟨fo, fe, ?_, ?_, rfl⟩, ?_, hc, hreply⟩
  · rcases Nat.le_total cfg.maxout out.length with h | h
    · rw [min_eq_left h]
      exact hfo
    · rw [min_eq_right h, List.take_length]
      rw [List.take_of_length_le h] at hfo
      exact hfo
  · rcases Nat.le_total err.length (cfg.maxout - min cfg.maxout out.length) with h | h
    · rw [min_eq_left h, List.take_length]
      rw [List.take_of_length_le h] at hfe
      exact hfe
    · rw [min_eq_right h]
      exact hfe
  · have hdropOut : noticeIf (cfg.maxout < out.length) =
        noticeIf (min cfg.maxout out.length < out.length) := noticeIf_congr (by omega)
    have hdropErr : noticeIf (cfg.maxout < min cfg.maxout out.length + err.length) =
        noticeIf (min err.length (cfg.maxout - min cfg.maxout out.length) < err.length) :=
      noticeIf_congr (by omega)
    rw [hsentc, hcapture, hsent', hsent, hdropOut, hdropErr]
    simp only [encodeFrames_append, List.append_assoc]

/-- RESULT and a blocking RUN send exactly the bytes under the cap. -/
theorem output_cap_exact
    {cfg : Cfg} (hcv : cfg.cv = none) (hcap : 0 < cfg.maxout) {d : Daemon}
    (hd : d.chan.Steady) (o : Answers) (env : List EnvEntry) (out err : Bytes) :
    (∀ arg, d.res.valid = true → (d.res.jobid : ℤ) = resultId arg →
      d.files (cfg.resolve d.cwd cfg.rof) = some out →
      d.files (cfg.resolve d.cwd cfg.ref) = some err →
      ∃ w, CappedReply cfg.maxout out err d.res.code w ∧
        (doResult cfg o d env arg).chan.sent = d.chan.sent ++ w ∧
        (doResult cfg o d env arg).ctl = .session true env []) ∧
    ∀ cmd child, cfg.build.live = false → o.child = some child →
      captureFiles cfg d.cwd d.files cfg.outf cfg.errf child.order child.out child.err
        (cfg.resolve d.cwd cfg.outf) = some out →
      captureFiles cfg d.cwd d.files cfg.outf cfg.errf child.order child.out child.err
        (cfg.resolve d.cwd cfg.errf) = some err →
      ∃ w, CappedReply cfg.maxout out err child.status.code w ∧
        (doRun cfg o d env (some cmd)).chan.sent = d.chan.sent ++ w ∧
        (doRun cfg o d env (some cmd)).ctl = .session true env [] := by
  constructor
  · intro arg hvalid hjobid hout herr
    let d' := (d.note (.fopen cfg.rof)).note (.fopen cfg.ref)
    have hd' : d'.chan.Steady := hd
    obtain ⟨c, w, hw, hsent, -, hreply⟩ :=
      sendCapture_exact hcv hcap hd' d' o env hout herr d.res.code
    have hstored : ¬ (d.res.valid = false ∨ (d.res.jobid : ℤ) ≠ resultId arg) := by
      simp [hvalid, hjobid]
    have hresult : doResult cfg o d env arg =
        { d' with chan := c, ctl := .session true env [] } := by
      rw [← hreply]
      simp only [doResult, hstored, if_false]
      rfl
    rw [hresult]
    exact ⟨w, hw, hsent, rfl⟩
  · intro cmd child hlive hchild hout herr
    let ran : Daemon :=
      { acceptRun d .run cmd env with
        files := captureFiles cfg d.cwd d.files cfg.outf cfg.errf child.order child.out child.err }
    have hran : ran.chan.Steady := hd
    obtain ⟨c, w, hw, hsent, -, hreply⟩ :=
      sendCapture_exact hcv hcap hran (unlink cfg (unlink cfg ran cfg.outf) cfg.errf) o env
        hout herr child.status.code
    have hrun : doRun cfg o d env (some cmd) =
        { unlink cfg (unlink cfg ran cfg.outf) cfg.errf with
          chan := c, ctl := .session true env [] } := by
      rw [← hreply]
      simp only [doRun, hlive, runBlocking, hchild]
      rfl
    rw [hrun]
    exact ⟨w, hw, hsent, rfl⟩

def fourCfg : Cfg := { smallCfg with maxout := 4 }

/-- A daemon with a stored result of three bytes on stdout and four on stderr. -/
def storedResult : Daemon :=
  { Daemon.init fourCfg [] [] fun f =>
      if f = ascii "ro" then some (ascii "abc")
      else if f = ascii "re" then some (ascii "defg") else none with
    res := ⟨true, 1, 7⟩ }

theorem output_cap_exact_four :
    CappedReply 4 (ascii "abc") (ascii "defg") 7
      (ascii "O 3" ++ [lf] ++ ascii "abcE 1" ++ [lf] ++ ascii "dE 34" ++ [lf] ++ capNotice ++
        ascii "X 7" ++ [lf]) := by
  have hcv : fourCfg.cv = none := rfl
  have hsteady : storedResult.chan.Steady := by decide
  obtain ⟨w, hw, hsent, -⟩ := (output_cap_exact hcv (by decide) hsteady {} []
    (ascii "abc") (ascii "defg")).1 (some (ascii "1")) rfl (by decide) (by decide) (by decide)
  have hwire : (doResult fourCfg {} storedResult [] (some (ascii "1"))).chan.sent =
      ascii "O 3" ++ [lf] ++ ascii "abcE 1" ++ [lf] ++ ascii "dE 34" ++ [lf] ++ capNotice ++
        ascii "X 7" ++ [lf] := by decide +kernel
  rw [hwire] at hsent
  rw [show w = _ from hsent.symm] at hw
  exact hw

end GrandCross
