import GrandCross.PreAuth
import GrandCross.ClientPoll

/-!
# Uploads and the command loop

`xfer_put` streams a file as D frames without waiting for the daemon, so
`do_put` may hand the session back to the command loop only behind the D 0
terminator.  It does so unless a frame is refused on the way: then the
command loop takes over in the middle of the stream.
-/

namespace GrandCross

open CText
open Transfer

/-! ## The sender -/

def putStream (reads : List Bytes) : Bytes :=
  encodeData reads ++ (ascii "D 0" ++ [lf])

/-- The loop of `xfer_put` over the results of `fread`. -/
def xferSend : List Bytes → Chan → Bool × Chan
  | [], c => (true, c)
  | piece :: reads, c =>
      let hdr := chanWriteAll c (frameHdr 68 piece.length)
      if hdr.1 then
        let data := chanWriteAll hdr.2 piece
        if data.1 then xferSend reads data.2 else (false, data.2)
      else (false, hdr.2)

def putLine (rpath : Bytes) : Bytes :=
  (gcdsStrlcat (gcdsStrlcat [] (ascii "PUT ") lineMax).1 rpath lineMax).1

/-- `file` is the local file when it can be opened: what its `fread` calls do,
and what it holds. -/
def xferPut (link : Link) (file : Option (List (Option ℕ) × Bytes)) (rpath : Bytes) :
    ℤ × Link :=
  match file with
  | none => (-1, link)
  | some (plan, content) =>
      match rcCmd link (putLine rpath) with
      | (none, link) => (-1, link)
      | (some line, link) =>
          if line ≠ ascii "OK" then (-1, link)
          else
            let chunk := min (chanChunk link.chan) wireFrameMax
            let sent := xferSend (freads chunk plan content) link.chan
            if sent.1 then
              let last := lioPutLine sent.2 (ascii "D 0")
              if last.1 then
                match lioGetLine lineMax link.inp with
                | (.ok reply, inp) =>
                    (if gcdsStarts (cstr reply) (ascii "OK") then 0 else -1,
                      ⟨last.2, inp⟩)
                | (_, inp) => (-1, ⟨last.2, inp⟩)
              else (-1, ⟨last.2, link.inp⟩)
            else (-1, ⟨sent.2, link.inp⟩)

theorem xferSend_sent
    {c : Chan} (hc : c.Steady) (reads : List Bytes) :
    (xferSend reads c).1 = true ∧ (xferSend reads c).2.Steady ∧
      (xferSend reads c).2.sent = c.sent ++ encodeData reads := by
  induction reads generalizing c with
  | nil => simp [xferSend, encodeData, hc]
  | cons piece reads ih =>
      have hhdr := wrote_chanWriteAll hc (frameHdr 68 piece.length)
      have hdata := wrote_chanWriteAll hhdr.steady piece
      obtain ⟨hok, hsteady, hsent⟩ := ih hdata.steady
      simp only [xferSend, hhdr.ok, if_true, hdata.ok]
      refine ⟨hok, hsteady, ?_⟩
      rw [hsent, hdata.sent, hhdr.sent]
      simp [encodeData]

theorem chunk_wireFrameMax (kind : ChanKind) :
    min kind.chunk wireFrameMax = kind.chunk ∧ 1 ≤ kind.chunk ∧ kind.chunk ≤ 1024 := by
  unfold ChanKind.chunk wireFrameMax serFrame
  cases kind <;> simp

/-- Once the daemon has answered OK, `xfer_put` sends what it reads, in frames
of at most a chunk. -/
theorem xferPut_sent
    {link link' : Link} {rpath : Bytes} (plan : List (Option ℕ)) (content : Bytes)
    (hok : rcCmd link (putLine rpath) = (some (ascii "OK"), link'))
    (hsteady : link'.chan.Steady) :
    (xferPut link (some (plan, content)) rpath).2.chan.sent =
      link'.chan.sent ++ putStream (freads link'.chan.kind.chunk plan content) := by
  obtain ⟨hchunk, -⟩ := chunk_wireFrameMax link'.chan.kind
  obtain ⟨hsend, hsteady', hsent⟩ :=
    xferSend_sent hsteady (freads link'.chan.kind.chunk plan content)
  have hlast := wrote_lioPutLine hsteady' (ascii "D 0")
  simp only [xferPut, hok, ne_eq, not_true_eq_false, if_false, chanChunk, hchunk, hsend,
    if_true, hlast.ok]
  split <;> simp [hlast.sent, hsent, putStream]

/-! ## The receiver -/

def Ctl.inPut : Ctl → Bool
  | .putHdr _ _ _ => true
  | .putData _ _ _ _ => true
  | _ => false

/-- The inputs that `do_put` reads, and those it leaves behind. -/
def putOver (cfg : Cfg) : Daemon → List Input → Daemon × List Input
  | d, [] => (d, [])
  | d, input :: inputs =>
      if d.ctl.inPut then putOver cfg (receive cfg d input) inputs
      else (d, input :: inputs)

def bytesIn (o : Answers) (bytes : Bytes) : List Input :=
  bytes.map fun b => (some b, o)

/-- The frames of an upload, each with the answer to its `fwrite`, and the
terminator with the answer to `fclose`. -/
def putInputs (frames : List (Bytes × Answers)) (last : Answers) : List Input :=
  (frames.flatMap fun f => bytesIn f.2 (frameHdr 68 f.1.length ++ f.1)) ++
    bytesIn last (ascii "D 0" ++ [lf])

/-- What `do_put` says to the first frame that it refuses. -/
def putRefusal (cfg : Cfg) : ℕ → List (Bytes × Answers) → Option Bytes
  | _, [] => none
  | total, f :: frames =>
      if 0 < cfg.maxout ∧ cfg.maxout < total + f.1.length then
        some (ascii "ERR 413 too large")
      else if f.2.fwrite then putRefusal cfg (total + f.1.length) frames
      else some (ascii "ERR 500 write failed")

/-- `do_put` comes back with the session open only when it has read its whole
input. -/
def InSync (cfg : Cfg) (d : Daemon) (inputs : List Input) : Prop :=
  (putOver cfg d inputs).1.ctl.inSession = true → (putOver cfg d inputs).2 = []

/-! ## One frame -/

section

variable (cfg : Cfg) (d : Daemon) (env : List EnvEntry) (put : Put)

theorem putOver_header_text
    (o : Answers) (text buf : Bytes) (hclean : LineClean text)
    (hfits : buf.length + text.length < 48) (rest : List Input) :
    putOver cfg { d with ctl := .putHdr env put buf } (bytesIn o text ++ rest) =
      putOver cfg { d with ctl := .putHdr env put (buf ++ text) } rest := by
  induction text generalizing buf with
  | nil => simp [bytesIn]
  | cons b text ih =>
      have hlf : b ≠ lf := fun hb => hclean.1 (by simp [hb])
      have hcr : b ≠ cr := fun hb => hclean.2 (by simp [hb])
      have htext : LineClean text :=
        ⟨fun hb => hclean.1 (by simp [hb]), fun hb => hclean.2 (by simp [hb])⟩
      simp only [List.length_cons] at hfits
      have hmore : lioGetByte 48 buf b = .more (buf ++ [b]) :=
        lioGetByte_clean hcr hlf (by omega)
      have hstep := ih (buf ++ [b]) htext (by
        simp only [List.length_append, List.length_singleton]
        omega)
      simp only [bytesIn, List.map_cons, List.cons_append, putOver, Ctl.inPut,
        if_true, receive, rx, hmore]
      simpa [bytesIn] using hstep

theorem putOver_header
    (o : Answers) (text : Bytes) (hclean : LineClean text)
    (hfits : text.length < 48) (rest : List Input) :
    putOver cfg { d with ctl := .putHdr env put [] }
        (bytesIn o (text ++ [lf]) ++ rest) =
      putOver cfg
        (doPutHeader cfg o { d with ctl := .putHdr env put text } env put
          (cstr text)) rest := by
  have hsplit : bytesIn o (text ++ [lf]) ++ rest =
      bytesIn o text ++ ((some lf, o) :: rest) := by
    simp [bytesIn]
  rw [hsplit, putOver_header_text cfg d env put o text [] hclean (by simpa using hfits)]
  simp [putOver, Ctl.inPut, receive, rx]

theorem putOver_payload
    (o : Answers) (len : ℕ) (data buf : Bytes) (hdata : data ≠ [])
    (hlen : buf.length + data.length = len) (rest : List Input) :
    ∃ buf', putOver cfg { d with ctl := .putData env put len buf }
        (bytesIn o data ++ rest) =
      putOver cfg
        (doPutData cfg o { d with ctl := .putData env put len buf' } env put
          (buf ++ data)) rest := by
  induction data generalizing buf with
  | nil => exact absurd rfl hdata
  | cons b data ih =>
      simp only [List.length_cons] at hlen
      have hin : (Ctl.putData env put len buf).inPut = true := rfl
      cases data with
      | nil =>
          have hfull : ¬ (buf ++ [b]).length < len := by
            simp only [List.length_append, List.length_singleton]
            simp only [List.length_nil] at hlen
            omega
          refine ⟨buf, ?_⟩
          simp only [bytesIn, List.map_cons, List.map_nil, List.cons_append,
            List.nil_append, putOver, hin, if_true, receive, rx, hfull, if_false]
      | cons b' data =>
          have hpart : (buf ++ [b]).length < len := by
            simp only [List.length_append, List.length_singleton]
            simp only [List.length_cons] at hlen
            omega
          obtain ⟨buf', hrest⟩ := ih (buf ++ [b]) (by simp) (by
            simp only [List.length_append, List.length_singleton]
            omega)
          have hrx : receive cfg { d with ctl := .putData env put len buf } (some b, o) =
              { d with ctl := .putData env put len (buf ++ [b]) } := by
            simp only [receive, rx, hpart, if_true]
          have hcons : bytesIn o (b :: b' :: data) ++ rest =
              (some b, o) :: (bytesIn o (b' :: data) ++ rest) := rfl
          refine ⟨buf', ?_⟩
          rw [hcons, putOver, if_pos hin, hrx, hrest]
          simp

theorem putOver_frame
    (o : Answers) (data : Bytes) (hpos : 1 ≤ data.length)
    (hmax : data.length ≤ cfg.build.frameMax) (rest : List Input) :
    ∃ ctl, putOver cfg { d with ctl := .putHdr env put [] }
        (bytesIn o (frameHdr 68 data.length ++ data) ++ rest) =
      putOver cfg (doPutData cfg o { d with ctl := ctl } env put data) rest := by
  have hwire := hmax.trans cfg.build.frameMax_le
  have hlen := hdrText_length 68 hwire
  have hclean : LineClean (hdrText 68 data.length) :=
    hdrText_clean (by decide) (by decide) data.length
  have hatol : atol (decimal data.length) = data.length :=
    atol_decimal (hwire.trans (by decide))
  have hsplit : bytesIn o (frameHdr 68 data.length ++ data) ++ rest =
      bytesIn o (hdrText 68 data.length ++ [lf]) ++ (bytesIn o data ++ rest) := by
    simp [bytesIn, frameHdr_eq]
  have hzero : ((data.length : ℕ) : ℤ) ≠ 0 := by omega
  have hbound : ¬ (((data.length : ℕ) : ℤ) < 0 ∨
      (cfg.build.frameMax : ℤ) < ((data.length : ℕ) : ℤ)) := by omega
  have hheader : doPutHeader cfg o
      { d with ctl := .putHdr env put (hdrText 68 data.length) } env put
      (hdrText 68 data.length) =
        { d with ctl := .putData env put data.length [] } := by
    simp only [hdrText, sp, doPutHeader, hatol, hzero, if_false, hbound,
      Int.toNat_natCast]
  obtain ⟨buf, hpayload⟩ :=
    putOver_payload cfg d env put o data.length data [] (by
      intro h
      simp [h] at hpos) (by simp) rest
  refine ⟨.putData env put data.length buf, ?_⟩
  rw [hsplit, putOver_header cfg d env put o _ hclean (by omega),
    cstr_hdrText (by decide), hheader, hpayload, List.nil_append]

theorem not_inPut_of_not_inSession
    {ctl : Ctl} (hctl : ctl.inSession = false) : ctl.inPut = false := by
  cases ctl with
  | putHdr => simp [Ctl.inSession, Ctl.phase] at hctl
  | putData => simp [Ctl.inSession, Ctl.phase] at hctl
  | _ => rfl

theorem putOver_stopped
    {d : Daemon} (hctl : d.ctl.inPut = false) (inputs : List Input) :
    putOver cfg d inputs = (d, inputs) := by
  cases inputs with
  | nil => rfl
  | cons input inputs => simp [putOver, hctl]

theorem reply_inSession (o : Answers) (msg : Bytes) :
    (reply cfg o d env msg).ctl.inSession = (lioPutLine d.chan msg).1 ∧
      (reply cfg o d env msg).ctl.inPut = false := by
  unfold reply
  split_ifs with hsent
  · exact ⟨hsent.symm, rfl⟩
  · have hover := sessionReturn_not_inSession cfg o
      { d with chan := (lioPutLine d.chan msg).2 }
    refine ⟨?_, not_inPut_of_not_inSession hover⟩
    rw [hover]
    simpa using hsent

theorem inSync_reply (o : Answers) (msg : Bytes) (inputs : List Input) :
    InSync cfg (reply cfg o d env msg) inputs ↔
      (inputs ≠ [] → (lioPutLine d.chan msg).1 = false) := by
  obtain ⟨hopen, hdone⟩ := reply_inSession cfg d env o msg
  unfold InSync
  rw [putOver_stopped cfg hdone, hopen]
  by_cases hempty : inputs = []
  · simp [hempty]
  · simp [hempty]

theorem putOver_terminator (last : Answers) :
    ∃ ctl, putOver cfg { d with ctl := .putHdr env put [] }
        (bytesIn last (ascii "D 0" ++ [lf])) =
      (if last.fclose then
        reply cfg last { d with ctl := ctl } env (ascii "OK " ++ decimal put.total)
      else
        reply cfg last (unlink cfg { d with ctl := ctl } put.path) env
          (ascii "ERR 500 write failed"), []) := by
  have hread := putOver_header cfg d env put last (ascii "D 0") (by decide)
    (by decide) []
  have hzero : atol (ascii "0") = 0 := by decide
  have hline : cstr (ascii "D 0") = 68 :: 32 :: ascii "0" := by decide
  rw [List.append_nil] at hread
  refine ⟨.putHdr env put (ascii "D 0"), ?_⟩
  rw [hread]
  simp only [hline, doPutHeader, hzero, if_true]
  split_ifs
  · rw [putOver_stopped cfg (reply_inSession cfg _ env last _).2]
  · rw [putOver_stopped cfg (reply_inSession cfg _ env last _).2]

theorem putInputs_ne_nil (frames : List (Bytes × Answers)) (last : Answers) :
    putInputs frames last ≠ [] := by
  simp [putInputs, bytesIn, ascii]

theorem putInputs_cons
    (f : Bytes × Answers) (frames : List (Bytes × Answers)) (last : Answers) :
    putInputs (f :: frames) last =
      bytesIn f.2 (frameHdr 68 f.1.length ++ f.1) ++ putInputs frames last := by
  simp [putInputs]

/-- From any frame on, `do_put` stays in step exactly when no later frame is
refused with an answer that gets through. -/
theorem inSync_frames
    (frames : List (Bytes × Answers)) (last : Answers)
    (hframes : ∀ f ∈ frames, 1 ≤ f.1.length ∧ f.1.length ≤ cfg.build.frameMax) :
    InSync cfg { d with ctl := .putHdr env put [] } (putInputs frames last) ↔
      ∀ msg, putRefusal cfg put.total frames = some msg →
        (lioPutLine d.chan msg).1 = false := by
  induction frames generalizing d put with
  | nil =>
      obtain ⟨ctl, hlast⟩ := putOver_terminator cfg d env put last
      simp [InSync, putInputs, putRefusal, hlast]
  | cons f frames ih =>
      have hf := hframes f (by simp)
      obtain ⟨ctl, hframe⟩ := putOver_frame cfg d env put f.2 f.1 hf.1 hf.2
        (putInputs frames last)
      have hsync : InSync cfg { d with ctl := .putHdr env put [] }
            (putInputs (f :: frames) last) ↔
          InSync cfg (doPutData cfg f.2 { d with ctl := ctl } env put f.1)
            (putInputs frames last) := by
        unfold InSync
        rw [putInputs_cons, hframe]
      rw [hsync]
      have hne := putInputs_ne_nil frames last
      unfold doPutData putRefusal
      split_ifs with hcap hwrite
      · rw [inSync_reply]
        simp [hne, unlink]
      · let file := cfg.resolve d.cwd put.path
        exact ih
          { d with
            files := Function.update d.files file
              (some ((d.files file).getD [] ++ f.1))
            log := d.log ++ [.append put.path f.1] }
          { put with total := put.total + f.1.length }
          fun g hg => hframes g (by simp [hg])
      · rw [inSync_reply]
        simp [hne, unlink]

/-- Without a refusal the whole upload is stored, and its size is the answer. -/
theorem putOver_accepted
    (frames : List (Bytes × Answers)) {last : Answers}
    (hframes : ∀ f ∈ frames, 1 ≤ f.1.length ∧ f.1.length ≤ cfg.build.frameMax)
    (hnone : putRefusal cfg put.total frames = none) (hclose : last.fclose = true)
    {file old : Bytes} (hnames : cfg.resolve d.cwd put.path = file)
    (hold : (d.files file).getD [] = old) :
    ∃ d' : Daemon, d'.chan = d.chan ∧
      (d'.files file).getD [] = old ++ (frames.map Prod.fst).flatten ∧
      ((d.files file).isSome → (d'.files file).isSome) ∧
      putOver cfg { d with ctl := .putHdr env put [] } (putInputs frames last) =
        (reply cfg last d' env
          (ascii "OK " ++
            decimal (put.total + ((frames.map Prod.fst).flatten).length)), []) := by
  induction frames generalizing d put old with
  | nil =>
      obtain ⟨ctl, hlast⟩ := putOver_terminator cfg d env put last
      rw [if_pos hclose] at hlast
      refine ⟨{ d with ctl := ctl }, rfl, by simpa using hold, id, ?_⟩
      simpa [putInputs] using hlast
  | cons f frames ih =>
      have hf := hframes f (by simp)
      obtain ⟨ctl, hframe⟩ := putOver_frame cfg d env put f.2 f.1 hf.1 hf.2
        (putInputs frames last)
      unfold putRefusal at hnone
      split_ifs at hnone with hcap hwrite
      have hstored : ((Function.update d.files file (some ((d.files file).getD [] ++ f.1)))
          file).getD [] = old ++ f.1 := by
        simp [hold]
      obtain ⟨d', hchan, hfile, hsome, hrest⟩ := ih
        { d with
          files := Function.update d.files file (some ((d.files file).getD [] ++ f.1))
          log := d.log ++ [.append put.path f.1] }
        { put with total := put.total + f.1.length }
        (fun g hg => hframes g (by simp [hg])) hnone hnames hstored
      refine ⟨d', hchan, ?_, fun _ => hsome (by simp), ?_⟩
      · rw [hfile, List.append_assoc]
        rfl
      · have htotal : put.total + (((f :: frames).map Prod.fst).flatten).length =
            put.total + f.1.length + ((frames.map Prod.fst).flatten).length := by
          simp only [List.map_cons, List.flatten_cons, List.length_append]
          omega
        rw [putInputs_cons, hframe, htotal, ← hrest]
        unfold doPutData
        rw [if_neg hcap, if_pos hwrite]
        simp only [hnames]

end

/-- Behind its OK, `do_put` hands an upload of `xfer_put` back in step exactly
when no frame is refused for the cap or a failed write, or when the refusal
cannot be sent either. -/
theorem doPut_inSync_iff
    (cfg : Cfg) {d : Daemon} {env : List EnvEntry} {path : Bytes}
    (hctl : d.ctl = .putHdr env ⟨path, 0⟩ [])
    (client : ChanKind) (frames : List (Bytes × Answers)) (last : Answers)
    (hframes : ∀ f ∈ frames, 1 ≤ f.1.length ∧ f.1.length ≤ client.chunk) :
    InSync cfg d (putInputs frames last) ↔
      ∀ msg, putRefusal cfg 0 frames = some msg →
        (lioPutLine d.chan msg).1 = false := by
  have hd : d = { d with ctl := .putHdr env ⟨path, 0⟩ [] } := by rw [← hctl]
  have hfits : ∀ f ∈ frames, 1 ≤ f.1.length ∧ f.1.length ≤ cfg.build.frameMax := by
    intro f hf
    have hf' := hframes f hf
    exact ⟨hf'.1, hf'.2.trans (client.chunk_le cfg).2⟩
  have hsync := inSync_frames cfg d env ⟨path, 0⟩ frames last hfits
  rw [← hd] at hsync
  exact hsync

def cappedCfg : Cfg := { smallCfg with maxout := 4 }

/-- A session that has sent AUTH and PUT. -/
def uploading : Daemon :=
  run cappedCfg (Daemon.init cappedCfg [] [] fun _ => none)
    (newPeer :: rxAll {} (ascii "AUTH t" ++ [lf] ++ ascii "PUT f" ++ [lf]))

theorem doPut_inSync_small :
    InSync cappedCfg uploading (putInputs [(ascii "ab", {}), (ascii "cd", {})] {}) := by
  have hctl : uploading.ctl = .putHdr [] ⟨ascii "f", 0⟩ [] := by decide
  refine (doPut_inSync_iff cappedCfg hctl .tcp _ _ (by decide)).2 ?_
  intro msg hmsg
  exact absurd hmsg (by simp [putRefusal, cappedCfg, smallCfg, ascii])

/-- The second frame of this upload is too large, so the third is read as
commands: its payload starts a command. -/
theorem doPut_leaves_frames :
    ¬ InSync cappedCfg uploading
        (putInputs [(ascii "ab", {}), (ascii "cde", {}),
          (ascii "RUN x" ++ [lf], {})] {}) ∧
      Obs.run .run (ascii "x") [] ∈
        (run cappedCfg uploading
          (rxAll {} (putStream [ascii "ab", ascii "cde", ascii "RUN x" ++ [lf]]))).log := by
  unfold InSync
  decide +kernel

end GrandCross
