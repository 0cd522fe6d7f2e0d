import GrandCross.SessionRun

/-!
# What the replies put on the wire

The senders of `session.c` on a channel whose writes succeed.  The bytes of
a reply depend on the files and the configuration only, never on how the
channel splits its writes, so they are given before the channel is.
-/

namespace GrandCross

open CText
open Transfer

/-- On every steady channel of the kind, the action returns `ok` and puts
exactly `bytes` on the wire. -/
structure Emits (kind : ChanKind) (act : Chan → Bool × Chan) (ok : Bool)
    (bytes : Bytes) : Prop where
  on : ∀ c : Chan, c.Steady → c.kind = kind →
    (act c).1 = ok ∧ (act c).2.sent = c.sent ++ bytes ∧
      (act c).2.Steady ∧ (act c).2.kind = kind

theorem Build.frameMax_le (b : Build) : b.frameMax ≤ wireFrameMax := by
  unfold Build.frameMax wireFrameMax
  split_ifs <;> omega

theorem emits_lioPutFrame
    (cfg : Cfg) (kind : ChanKind) (s : Stream) (data : Bytes) :
    ∃ fs : List Frame,
      Emits kind (fun c => lioPutFrame cfg.build.frameMax c s.tag data)
          (decide (1 ≤ data.length ∧ data.length ≤ cfg.build.frameMax))
          (encodeFrames fs) ∧
        (1 ≤ data.length ∧ data.length ≤ cfg.build.frameMax →
          ∃ hpos hfits, fs = [⟨s, data, hpos, hfits⟩]) := by
  have hmax := cfg.build.frameMax_le
  by_cases hlen : 1 ≤ data.length ∧ data.length ≤ cfg.build.frameMax
  · refine ⟨[⟨s, data, hlen.1, hlen.2.trans hmax⟩], ⟨?_⟩, fun _ => ⟨_, _, rfl⟩⟩
    intro c hc hkind
    have h := wrote_lioPutFrame hc s.tag hlen.1 hlen.2
    refine ⟨by simp [h.ok, hlen], ?_, h.steady, h.kind.trans hkind⟩
    simpa [Frame.encode] using h.sent
  · refine ⟨[], ⟨?_⟩, fun h => absurd h hlen⟩
    intro c hc hkind
    have hbad : data.length < 1 ∨ cfg.build.frameMax < data.length := by omega
    simp only [lioPutFrame, hbad, if_true]
    exact ⟨by simp [hlen], by simp, hc, hkind⟩

/-! ## Capture files -/

structure EmitsN (kind : ChanKind) (act : Chan → Bool × Chan × ℕ) (ok : Bool)
    (fs : List Frame) (total : ℕ) : Prop where
  on : ∀ c : Chan, c.Steady → c.kind = kind →
    (act c).1 = ok ∧ (act c).2.1.sent = c.sent ++ encodeFrames fs ∧
      (act c).2.1.Steady ∧ (act c).2.1.kind = kind ∧ (act c).2.2 = total

theorem emitsN_done (kind : ChanKind) (ok : Bool) (n : ℕ) :
    EmitsN kind (fun c => (ok, c, n)) ok [] n := by
  constructor
  intro c hc hkind
  simp [hc, hkind]

theorem Emits.counted
    {kind : ChanKind} {put : Chan → Bool × Chan} {ok : Bool} {fs : List Frame}
    (hput : Emits kind put ok (encodeFrames fs)) (n : ℕ) :
    EmitsN kind (fun c => ((put c).1, (put c).2, n)) ok fs n := by
  constructor
  intro c hc hkind
  obtain ⟨hok, hsent, hsteady, hkind'⟩ := hput.on c hc hkind
  exact ⟨hok, hsent, hsteady, hkind', rfl⟩

theorem Emits.andThen
    {kind : ChanKind} {put : Chan → Bool × Chan} {ok : Bool} {fs : List Frame}
    (hput : Emits kind put ok (encodeFrames fs))
    {next : Chan → Bool × Chan × ℕ} {ok' : Bool} {fs' : List Frame} {total : ℕ}
    (hnext : EmitsN kind next ok' fs' total) (n : ℕ) :
    EmitsN kind (fun c => if (put c).1 then next (put c).2 else (false, (put c).2, n))
      (ok && ok') (fs ++ if ok then fs' else []) (if ok then total else n) := by
  constructor
  intro c hc hkind
  obtain ⟨hok, hsent, hsteady, hkind'⟩ := hput.on c hc hkind
  cases ok with
  | true =>
      obtain ⟨hok', hsent', hsteady', hkind'', htotal⟩ :=
        hnext.on (put c).2 hsteady hkind'
      simp [hok, hok', hsent', hsent, hsteady', hkind'', htotal]
  | false => simp [hok, hsent, hsteady, hkind']

theorem capNotice_fits (cfg : Cfg) :
    1 ≤ capNotice.length ∧ capNotice.length ≤ cfg.build.frameMax := by
  have hlen : capNotice.length = 34 := by decide
  rw [hlen]
  unfold Build.frameMax
  split_ifs <;> omega

theorem sendCapped_emits
    (cfg : Cfg) (kind : ChanKind) (s : Stream) (data : Bytes) (sent : ℕ) :
    ∃ ok fs total,
      EmitsN kind (fun c => sendCapped cfg s.tag data sent c) ok fs total ∧
      (data ≠ [] → data.length ≤ cfg.build.frameMax → ok = true) := by
  obtain ⟨notice, hnotice, _⟩ := emits_lioPutFrame cfg kind .err capNotice
  have hlast : EmitsN kind
      (fun c => (true,
        (lioPutFrame cfg.build.frameMax c Stream.err.tag capNotice).2,
        sent + (cfg.maxout - sent))) true notice (sent + (cfg.maxout - sent)) := by
    constructor
    intro c hc hkind
    obtain ⟨_, hsent, hsteady, hkind'⟩ := hnotice.on c hc hkind
    exact ⟨rfl, hsent, hsteady, hkind', rfl⟩
  by_cases hroom : 0 < cfg.maxout - sent
  · obtain ⟨fs, hframe, _⟩ :=
      emits_lioPutFrame cfg kind s (data.take (cfg.maxout - sent))
    simp only [sendCapped, hroom, if_true]
    refine ⟨_, _, _, hframe.andThen hlast sent, ?_⟩
    intro hne hfits
    have hpos := List.length_pos_iff.mpr hne
    simp only [List.length_take, Bool.and_true, decide_eq_true_eq]
    omega
  · simp only [sendCapped, hroom, if_false, if_true]
    exact ⟨true, notice, _, hlast, fun _ _ => rfl⟩

/-- Whatever the conversion and the cap, `send_file` sends frames, and the
same ones on every channel. -/
theorem sendReads_emits
    (cfg : Cfg) (kind : ChanKind) (s : Stream) (reads : List Bytes) (sent : ℕ)
    (hold : Bytes) :
    ∃ ok fs total, EmitsN kind
      (fun c => sendReads cfg s.tag reads c sent hold) ok fs total := by
  induction reads generalizing sent hold with
  | nil =>
      simp only [sendReads]
      cases cfg.cv with
      | none => exact ⟨_, _, _, emitsN_done kind true sent⟩
      | some cv =>
          dsimp only
          by_cases hflush : 0 < (cv.flush hold).length
          · obtain ⟨fs, hframe, _⟩ :=
              emits_lioPutFrame cfg kind s (cv.flush hold)
            simp only [hflush, if_true]
            exact ⟨_, fs, _, hframe.counted _⟩
          · simp only [hflush, if_false]
            exact ⟨_, _, _, emitsN_done kind true sent⟩
  | cons piece reads ih =>
      simp only [sendReads]
      cases convertOut cfg hold piece with
      | none => exact ⟨_, _, _, emitsN_done kind false sent⟩
      | some conv =>
          dsimp only
          split_ifs
          · exact ih sent conv.1
          · obtain ⟨ok, fs, total, hcap, _⟩ :=
              sendCapped_emits cfg kind s conv.2 sent
            exact ⟨ok, fs, total, hcap⟩
          · obtain ⟨fs, hframe, _⟩ := emits_lioPutFrame cfg kind s conv.2
            obtain ⟨ok, fs', total, hrest⟩ := ih (sent + conv.2.length) conv.1
            exact ⟨_, _, _, hframe.andThen hrest sent⟩

theorem sendReads_plain
    {cfg : Cfg} (hcv : cfg.cv = none) (kind : ChanKind) (s : Stream)
    {reads : List Bytes} (hreads : ∀ piece ∈ reads,
      1 ≤ piece.length ∧ piece.length ≤ cfg.build.frameMax)
    (sent : ℕ) (hold : Bytes) :
    ∃ fs total,
      EmitsN kind (fun c => sendReads cfg s.tag reads c sent hold) true fs total ∧
      (cfg.maxout = 0 →
        payload s fs = reads.flatten ∧ ∀ f ∈ fs, f.stream = s) := by
  induction reads generalizing sent with
  | nil =>
      simp only [sendReads, hcv]
      exact ⟨[], sent, emitsN_done kind true sent, by simp⟩
  | cons piece reads ih =>
      have hpiece := hreads piece (by simp)
      have hne : piece ≠ [] := by
        intro h
        simp [h] at hpiece
      simp only [sendReads, convertOut, hcv, hne, if_false]
      by_cases hcap : 0 < cfg.maxout ∧ cfg.maxout < sent + piece.length
      · obtain ⟨ok, fs, total, hcapped, hok⟩ :=
          sendCapped_emits cfg kind s piece sent
        rw [hok hne hpiece.2] at hcapped
        simp only [hcap, and_self, if_true]
        refine ⟨fs, total, hcapped, ?_⟩
        intro hmaxout
        omega
      · obtain ⟨frame, hframe, hshape⟩ := emits_lioPutFrame cfg kind s piece
        obtain ⟨fs, total, hrest, hplain⟩ :=
          ih (fun p hp => hreads p (by simp [hp])) (sent + piece.length)
        obtain ⟨hpos, hfits, rfl⟩ := hshape hpiece
        have hall := hframe.andThen hrest sent
        simp only [hpiece, and_self, decide_true, Bool.and_true, if_true] at hall
        simp only [hcap, if_false]
        refine ⟨_, _, hall, ?_⟩
        intro hmaxout
        obtain ⟨hpayload, hstream⟩ := hplain hmaxout
        simpa [payload_cons, hpayload] using hstream

theorem ChanKind.chunk_le (kind : ChanKind) (cfg : Cfg) :
    1 ≤ kind.chunk ∧ kind.chunk ≤ cfg.build.frameMax := by
  unfold ChanKind.chunk Build.frameMax serFrame
  cases kind <;> dsimp only <;> split_ifs <;> omega

theorem pieces_chanChunk
    (cfg : Cfg) (kind : ChanKind) (content : Bytes) :
    (pieces kind.chunk content).flatten = content ∧
      ∀ piece ∈ pieces kind.chunk content,
        1 ≤ piece.length ∧ piece.length ≤ cfg.build.frameMax := by
  have hchunk := kind.chunk_le cfg
  refine ⟨pieces_flatten hchunk.1 content, ?_⟩
  intro piece hpiece
  have hlen := pieces_length hchunk.1 content piece hpiece
  omega

theorem freads_chanChunk
    (cfg : Cfg) (kind : ChanKind) (plan : List (Option ℕ)) (content : Bytes) :
    ∀ piece ∈ freads kind.chunk plan content,
      1 ≤ piece.length ∧ piece.length ≤ cfg.build.frameMax := by
  have hchunk := kind.chunk_le cfg
  intro piece hpiece
  have hlen := freads_length hchunk.1 plan content piece hpiece
  omega

/-! ## Whole replies -/

/-- What `send_file` sends for a file of a given content, or for an absent
one. -/
theorem sendFile_emits
    (cfg : Cfg) (kind : ChanKind) (s : Stream) (content : Option Bytes)
    (sent : ℕ) :
    ∃ ok fs total,
      (∀ (d : Daemon) (path : Bytes), d.files (cfg.resolve d.cwd path) = content →
        EmitsN kind (fun c => sendFile cfg d c s.tag path sent) ok fs total) ∧
      (cfg.cv = none → ok = true) ∧
      (cfg.cv = none → cfg.maxout = 0 →
        payload s fs = content.getD [] ∧ ∀ f ∈ fs, f.stream = s) := by
  cases content with
  | none =>
      refine ⟨true, [], sent, ?_, fun _ => rfl, by simp⟩
      intro d path hfile
      simp only [sendFile, hfile]
      exact emitsN_done kind true sent
  | some content =>
      have hact : ∀ (d : Daemon) (path : Bytes),
          d.files (cfg.resolve d.cwd path) = some content →
          ∀ {ok fs total}, EmitsN kind (fun c =>
            sendReads cfg s.tag (pieces kind.chunk content) c sent []) ok fs total →
          EmitsN kind (fun c => sendFile cfg d c s.tag path sent) ok fs total := by
        intro d path hfile ok fs total hemits
        constructor
        intro c hc hkind
        have hchunk : chanChunk c = kind.chunk := by rw [chanChunk, hkind]
        simp only [sendFile, hfile, hchunk]
        exact hemits.on c hc hkind
      obtain ⟨hflat, hlen⟩ := pieces_chanChunk cfg kind content
      by_cases hcv : cfg.cv = none
      · obtain ⟨fs, total, hemits, hplain⟩ := sendReads_plain hcv kind s hlen sent []
        refine ⟨true, fs, total, fun d path hfile => hact d path hfile hemits,
          fun _ => rfl, ?_⟩
        intro _ hmaxout
        have h := hplain hmaxout
        rw [hflat] at h
        exact h
      · obtain ⟨ok, fs, total, hemits⟩ :=
          sendReads_emits cfg kind s (pieces kind.chunk content) sent []
        exact ⟨ok, fs, total, fun d path hfile => hact d path hfile hemits,
          fun h => absurd h hcv, fun h => absurd h hcv⟩

theorem payload_other
    {s t : Stream} (hne : s ≠ t) {fs : List Frame}
    (hstream : ∀ f ∈ fs, f.stream = s) : payload t fs = [] := by
  have hfilter : fs.filter (fun f => f.stream = t) = [] := by
    rw [List.filter_eq_nil_iff]
    intro f hf
    simp [hstream f hf, hne]
  simp [payload, hfilter]

/-- The two capture files, for given contents of them: the same frames in
every state and on every channel. -/
theorem sendCapture_emits
    (cfg : Cfg) (kind : ChanKind) (out err : Option Bytes) :
    ∃ ok fs,
      (∀ (d : Daemon) (pout perr : Bytes),
        d.files (cfg.resolve d.cwd pout) = out →
        d.files (cfg.resolve d.cwd perr) = err →
        Emits kind (fun c => sendCapture cfg { d with chan := c } pout perr) ok
          (encodeFrames fs)) ∧
      (cfg.cv = none → ok = true) ∧
      (cfg.cv = none → cfg.maxout = 0 →
        payload .out fs = out.getD [] ∧ payload .err fs = err.getD []) := by
  obtain ⟨ok, fs, total, hout, hok, hplain⟩ :=
    sendFile_emits cfg kind .out out 0
  obtain ⟨ok', fs', total', herr, hok', hplain'⟩ :=
    sendFile_emits cfg kind .err err total
  refine ⟨ok && ok', fs ++ if ok then fs' else [], ?_, ?_, ?_⟩
  · intro d pout perr hpout hperr
    constructor
    intro c hc hkind
    obtain ⟨h₁, hsent, hsteady, hkind', htotal⟩ :=
      (hout { d with chan := c } pout hpout).on c hc hkind
    obtain ⟨h₂, hsent', hsteady', hkind'', _⟩ :=
      (herr { d with chan := c } perr hperr).on _ hsteady hkind'
    cases ok with
    | true => simp [sendCapture, h₁, htotal, h₂, hsent', hsent, hsteady', hkind'']
    | false => simp [sendCapture, h₁, hsent, hsteady, hkind']
  · intro hcv
    simp [hok hcv, hok' hcv]
  · intro hcv hmaxout
    have h := hplain hcv hmaxout
    have h' := hplain' hcv hmaxout
    have hother := payload_other (t := .err) (by decide) h.2
    have hother' := payload_other (t := .out) (by decide) h'.2
    simp [hok hcv, h.1, h'.1, hother, hother']

def encodeData (reads : List Bytes) : Bytes :=
  reads.flatMap fun piece => frameHdr 68 piece.length ++ piece

theorem sendData_emits
    (cfg : Cfg) (kind : ChanKind) {reads : List Bytes}
    (hreads : ∀ piece ∈ reads,
      1 ≤ piece.length ∧ piece.length ≤ cfg.build.frameMax) :
    Emits kind (fun c => sendData cfg reads c) true (encodeData reads) := by
  induction reads with
  | nil =>
      constructor
      intro c hc hkind
      simp [sendData, encodeData, hc, hkind]
  | cons piece reads ih =>
      constructor
      intro c hc hkind
      have hpiece := hreads piece (by simp)
      have hframe := wrote_lioPutFrame hc 68 hpiece.1 hpiece.2
      obtain ⟨hok, hsent, hsteady, hkind'⟩ :=
        (ih fun p hp => hreads p (by simp [hp])).on _ hframe.steady
          (hframe.kind.trans hkind)
      simp [sendData, hframe.ok, hok, hsent, hframe.sent, hsteady, hkind',
        encodeData]

/-! ## Replies in a session -/

theorem jobFinish_chan
    (cfg : Cfg) (d : Daemon) (jobid : ℕ) (result : Option Captured) :
    (jobFinish cfg d jobid result).chan = d.chan := by
  cases result <;> rfl

theorem openTrunc_chan (cfg : Cfg) (d : Daemon) (ok : Bool) (path : Bytes) :
    (openTrunc cfg d ok path).chan = d.chan := by
  unfold openTrunc
  split_ifs <;> rfl

@[simp] theorem sessionReturn_chan (cfg : Cfg) (o : Answers) (d : Daemon) :
    (sessionReturn cfg o d).chan = d.chan := by
  unfold sessionReturn runPending liveExecJob
  dsimp only
  split_ifs
  · split
    · rw [jobFinish_chan]
      rfl
    · split
      · rw [jobFinish_chan, openTrunc_chan, openTrunc_chan]
        rfl
      · dsimp only
        rw [openTrunc_chan, openTrunc_chan]
        rfl
  · split
    · rw [jobFinish_chan]
      rfl
    · rw [jobFinish_chan, openTrunc_chan, openTrunc_chan]
      rfl
  · split
    · rw [jobFinish_chan]
      rfl
    · rw [jobFinish_chan]
      rfl
  · rfl

theorem reply_steady
    (cfg : Cfg) (o : Answers) {d : Daemon} (hd : d.chan.Steady)
    (env : List EnvEntry) (msg : Bytes) :
    ∃ c : Chan, c.sent = d.chan.sent ++ (msg ++ [lf]) ∧ c.Steady ∧
      c.kind = d.chan.kind ∧
      reply cfg o d env msg = { d with chan := c, ctl := .session true env [] } := by
  have hline := wrote_lioPutLine hd msg
  refine ⟨(lioPutLine d.chan msg).2, hline.sent, hline.steady, hline.kind, ?_⟩
  unfold reply
  rw [if_pos hline.ok]

theorem replyCapture_steady
    (cfg : Cfg) (o : Answers) {d : Daemon} (env : List EnvEntry)
    {sent : Bool × Chan} (hsteady : sent.2.Steady) (code : ℕ) :
    ∃ c : Chan, c.Steady ∧ c.kind = sent.2.kind ∧
      (sent.1 = true →
        c.sent = sent.2.sent ++ (exitLine code ++ [lf]) ∧
        replyCapture cfg o d env sent code =
          { d with chan := c, ctl := .session true env [] }) ∧
      (sent.1 = false →
        c.sent = sent.2.sent ∧
        replyCapture cfg o d env sent code = sessionReturn cfg o { d with chan := c }) := by
  unfold replyCapture
  by_cases hok : sent.1 = true
  · obtain ⟨c, hsent, hc, hkind, hreply⟩ :=
      reply_steady cfg o (d := { d with chan := sent.2 }) hsteady env (exitLine code)
    rw [if_pos hok, hreply]
    exact ⟨c, hc, hkind, fun _ => ⟨hsent, rfl⟩, by simp [hok]⟩
  · rw [if_neg hok]
    exact ⟨sent.2, hsteady, rfl, by simp [hok], fun _ => ⟨rfl, rfl⟩⟩

theorem replyCapture_plain
    {cfg : Cfg} (hcv : cfg.cv = none) (o : Answers) {d : Daemon}
    (hd : d.chan.Steady) (d' : Daemon) (env : List EnvEntry) (pout perr : Bytes)
    (code : ℕ) :
    ∃ fs c, c.sent = d.chan.sent ++ encodeStream fs code ∧ c.Steady ∧
      replyCapture cfg o d' env (sendCapture cfg d pout perr) code =
        { d' with chan := c, ctl := .session true env [] } ∧
      (cfg.maxout = 0 →
        payload .out fs = (d.files (cfg.resolve d.cwd pout)).getD [] ∧
        payload .err fs = (d.files (cfg.resolve d.cwd perr)).getD []) := by
  obtain ⟨ok, fs, hemits, hok, hplain⟩ := sendCapture_emits cfg d.chan.kind
    (d.files (cfg.resolve d.cwd pout)) (d.files (cfg.resolve d.cwd perr))
  obtain ⟨hflag, hsent, hsteady, _⟩ :=
    (hemits d pout perr rfl rfl).on d.chan hd rfl
  rw [hok hcv] at hflag
  obtain ⟨c, hc, _, hwhole, _⟩ :=
    replyCapture_steady cfg o (d := d') env hsteady code
  obtain ⟨hc', hreply⟩ := hwhole hflag
  refine ⟨fs, c, ?_, hc, hreply, hplain hcv⟩
  rw [hc', hsent, encodeStream, List.append_assoc]

theorem doResult_emits
    (cfg : Cfg) (kind : ChanKind) (out err : Option Bytes) :
    ∃ ok fs,
      (∀ (o : Answers) (d : Daemon) (env : List EnvEntry) (arg : Option Bytes),
        d.chan.Steady → d.chan.kind = kind → d.res.valid = true →
        (d.res.jobid : ℤ) = resultId arg →
        d.files (cfg.resolve d.cwd cfg.rof) = out →
        d.files (cfg.resolve d.cwd cfg.ref) = err →
        (doResult cfg o d env arg).chan.sent = d.chan.sent ++
          (if ok then encodeStream fs d.res.code else encodeFrames fs)) ∧
      (cfg.cv = none → ok = true) ∧
      (cfg.cv = none → cfg.maxout = 0 →
        payload .out fs = out.getD [] ∧ payload .err fs = err.getD []) := by
  obtain ⟨ok, fs, hemits, hok, hplain⟩ := sendCapture_emits cfg kind out err
  refine ⟨ok, fs, ?_, hok, hplain⟩
  intro o d env arg hd hkind hvalid hjobid hout herr
  have hstored : ¬ (d.res.valid = false ∨ (d.res.jobid : ℤ) ≠ resultId arg) := by
    simp [hvalid, hjobid]
  let d' := (d.note (.fopen cfg.rof)).note (.fopen cfg.ref)
  obtain ⟨hflag, hsent, hsteady, _⟩ :=
    (hemits d' cfg.rof cfg.ref hout herr).on d.chan hd hkind
  obtain ⟨c, _, _, hwhole, hbroken⟩ :=
    replyCapture_steady cfg o (d := d') env hsteady d.res.code
  have hresult : doResult cfg o d env arg =
      replyCapture cfg o d' env (sendCapture cfg d' cfg.rof cfg.ref) d.res.code := by
    simp only [doResult, hstored, if_false]
    rfl
  rw [hresult]
  cases ok with
  | true =>
      obtain ⟨hc, hreply⟩ := hwhole hflag
      have hchan := congrArg Daemon.chan hreply
      calc
        (replyCapture cfg o d' env (sendCapture cfg d' cfg.rof cfg.ref)
            d.res.code).chan.sent = c.sent := by
              exact congrArg Chan.sent hchan
        _ = d.chan.sent ++ encodeStream fs d.res.code := by
              rw [hc, hsent, encodeStream, List.append_assoc]
  | false =>
      obtain ⟨hc, hreply⟩ := hbroken hflag
      have hchan := congrArg Daemon.chan hreply
      rw [sessionReturn_chan] at hchan
      calc
        (replyCapture cfg o d' env (sendCapture cfg d' cfg.rof cfg.ref)
            d.res.code).chan.sent = c.sent := by
              exact congrArg Chan.sent hchan
        _ = d.chan.sent ++ encodeFrames fs := by
              rw [hc, hsent]

end GrandCross
