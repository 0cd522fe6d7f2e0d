import GrandCross.ClientXfer
import GrandCross.AsyncClients

/-!
# Both ends of a transfer

`xfer_put` against `do_put` and `do_get` against `xfer_get`, over a connection
on which nothing is lost: what one end reads is what the other sends.  Each
end is run on the whole stream of the other; then there is only one stream
that the two can have exchanged.
-/

namespace GrandCross

open CText
open Transfer

def sentBetween (c c' : Chan) : Bytes := c'.sent.drop c.sent.length

/-- The daemon reads what the client sends, and the client what it answers. -/
def Connected (cfg : Cfg) (o : Answers) (d : Daemon) (link link' : Link) : Prop :=
  link.inp.pending = sentSince d (feed cfg o d (sentBetween link.chan link'.chan))

theorem sentBetween_of_append
    {c c' : Chan} {bytes : Bytes} (hsent : c'.sent = c.sent ++ bytes) :
    sentBetween c c' = bytes := by
  rw [sentBetween, hsent, List.drop_left]

/-! ## The client -/

structure Link.Steady (link : Link) : Prop where
  chan : link.chan.Steady
  inp : link.inp.Steady

/-- The line has been sent, and the reply read. -/
theorem rcCmd_steady
    {link : Link} (hlink : link.Steady) (line : Bytes) {reply rest : Bytes}
    (hclean : LineClean reply ∧ nul ∉ reply) (hfits : reply.length < lineMax)
    (hpending : link.inp.pending = reply ++ lf :: rest) :
    ∃ link' : Link, rcCmd link line = (some reply, link') ∧ link'.Steady ∧
      link'.chan.sent = link.chan.sent ++ (line ++ [lf]) ∧
      link'.chan.kind = link.chan.kind ∧ link'.inp.pending = rest := by
  have hline := wrote_lioPutLine hlink.chan line
  obtain ⟨inp, hinp, hrest, hget⟩ :=
    lioGetLine_clean lineMax hlink.inp hpending hclean.1 hfits
  refine ⟨⟨(lioPutLine link.chan line).2, inp⟩, ?_, ⟨hline.steady, hinp⟩, hline.sent,
    hline.kind, hrest⟩
  simp only [rcCmd, hline.ok, if_true, hget, cstr_eq_self hclean.2]

theorem rcCmd_sent
    {link : Link} (hlink : link.chan.Steady) (line : Bytes) :
    (rcCmd link line).2.chan.sent = link.chan.sent ++ (line ++ [lf]) ∧
      (rcCmd link line).2.chan.Steady ∧
      (rcCmd link line).2.chan.kind = link.chan.kind := by
  have hline := wrote_lioPutLine hlink line
  unfold rcCmd
  dsimp only
  rw [if_pos hline.ok]
  split <;> exact ⟨hline.sent, hline.steady, hline.kind⟩

theorem okLine_clean : LineClean (ascii "OK") ∧ nul ∉ ascii "OK" := by decide

theorem storedLine_clean (n : ℕ) :
    LineClean (ascii "OK " ++ decimal n) ∧ nul ∉ ascii "OK " ++ decimal n :=
  wordLine_clean (by decide : LineClean (ascii "OK ") ∧ nul ∉ ascii "OK ") n

/-- What `xfer_put` sends, whatever it hears. -/
theorem xferPut_sends
    {link : Link} (hlink : link.chan.Steady) (plan : List (Option ℕ)) (content rpath : Bytes) :
    (xferPut link (some (plan, content)) rpath).2.chan.sent =
      link.chan.sent ++ (putLine rpath ++ [lf] ++
        if (rcCmd link (putLine rpath)).1 = some (ascii "OK") then
          putStream (freads link.chan.kind.chunk plan content)
        else []) := by
  obtain ⟨hsent, hsteady, hkind⟩ := rcCmd_sent hlink (putLine rpath)
  cases hcmd : rcCmd link (putLine rpath) with
  | mk reply link' =>
      rw [hcmd] at hsent hsteady hkind
      dsimp only at hsent hsteady hkind
      cases reply with
      | none => simp [xferPut, hcmd, hsent]
      | some reply =>
          by_cases hok : reply = ascii "OK"
          · subst hok
            rw [xferPut_sent plan content hcmd hsteady, hsent, hkind]
            simp
          · simp [xferPut, hcmd, hok, hsent]

/-- `xfer_put` succeeds when the daemon answers OK, and a line that starts so
behind the file. -/
theorem xferPut_answered
    {link : Link} (hlink : link.Steady) (plan : List (Option ℕ)) (content rpath : Bytes)
    {n : ℕ} (hn : n ≤ longMax) {rest : Bytes}
    (hpending : link.inp.pending =
      ascii "OK" ++ lf :: (ascii "OK " ++ decimal n ++ lf :: rest)) :
    (xferPut link (some (plan, content)) rpath).1 = 0 ∧
      (xferPut link (some (plan, content)) rpath).2.inp.pending = rest := by
  obtain ⟨link', hcmd, hlink', -, -, hrest⟩ :=
    rcCmd_steady hlink (putLine rpath) okLine_clean (by decide) hpending
  obtain ⟨hchunk, -⟩ := chunk_wireFrameMax link'.chan.kind
  obtain ⟨hsend, hsteady, -⟩ :=
    xferSend_sent hlink'.chan (freads link'.chan.kind.chunk plan content)
  have hlast := wrote_lioPutLine hsteady (ascii "D 0")
  obtain ⟨inp, -, hdone, hget⟩ := lioGetLine_clean lineMax hlink'.inp hrest
    (storedLine_clean n).1 (by
      have hword : (ascii "OK ").length = 3 := by decide
      have hdigits : (decimal n).length ≤ 19 :=
        decimal_length_le (by omega) (lt_of_le_of_lt hn (by decide))
      rw [List.length_append, hword]
      unfold lineMax
      omega)
  have hstarts : gcdsStarts (ascii "OK " ++ decimal n) (ascii "OK") = true := by
    simp [gcdsStarts, ascii]
  have hcstr := cstr_eq_self (storedLine_clean n).2
  simp only [xferPut, hcmd, ne_eq, not_true_eq_false, if_false, chanChunk, hchunk, hsend,
    if_true, hlast.ok, hget, hcstr, hstarts]
  exact ⟨trivial, hdone⟩

/-- The frames of `xfer_get` behind its OK, with a local file that takes all of
them. -/
theorem getLoop_complete
    {frameMax : ℕ} (hmax : frameMax ≤ wireFrameMax) {reads : List Bytes}
    (hreads : ∀ piece ∈ reads, 1 ≤ piece.length ∧ piece.length ≤ frameMax)
    {g : Get} (hinp : g.inp.Steady) (hwrite : false ∉ g.fwrite) {rest : Bytes}
    (hpending : g.inp.pending = putStream reads ++ rest)
    {fuel : ℕ} (hfuel : reads.length < fuel) :
    ∃ g' : Get, getLoop frameMax fuel g = (true, g') ∧ g'.inp.Steady ∧
      g'.inp.pending = rest ∧ g'.saved = g.saved ++ reads.flatten := by
  induction reads generalizing g fuel with
  | nil =>
      obtain ⟨fuel, rfl⟩ : ∃ k, fuel = k + 1 := ⟨fuel - 1, by omega⟩
      have hlastLine : g.inp.pending = ascii "D 0" ++ lf :: rest := by
        simpa [putStream, encodeData] using hpending
      obtain ⟨inp, hsteady, hrest, hline⟩ :=
        lioGetLine_clean lineMax hinp hlastLine (by decide) (by decide)
      have hlast : getFrame frameMax { g with inp := inp } (cstr (ascii "D 0")) =
          (some true, { g with inp := inp }) := rfl
      refine ⟨{ g with inp := inp }, ?_, hsteady, hrest, by simp⟩
      rw [getLoop, hline]
      dsimp only
      rw [hlast]
  | cons piece reads ih =>
      obtain ⟨fuel, rfl⟩ : ∃ k, fuel = k + 1 := ⟨fuel - 1, by omega⟩
      have hpiece := hreads piece (by simp)
      have hwire := hpiece.2.trans hmax
      have hlen := hdrText_length 68 hwire
      have hatol : atol (decimal piece.length) = piece.length :=
        atol_decimal (hwire.trans (by decide))
      have hheader : g.inp.pending =
          hdrText 68 piece.length ++ lf :: (piece ++ (putStream reads ++ rest)) := by
        simpa [putStream, encodeData, frameHdr_eq] using hpending
      obtain ⟨inp, hsteady, hdata, hline⟩ :=
        lioGetLine_clean lineMax hinp hheader
          (hdrText_clean (by decide) (by decide) _) (by
            unfold lineMax
            omega)
      obtain ⟨inp', hsteady', hrest, hread⟩ :=
        Source.readN_steady hsteady (n := piece.length) (by simp [hdata])
      rw [hdata, List.take_left] at hread
      rw [hdata, List.drop_left] at hrest
      have hzero : ((piece.length : ℕ) : ℤ) ≠ 0 := by omega
      have hfits : ¬ (((piece.length : ℕ) : ℤ) < 0 ∨
          (frameMax : ℤ) < ((piece.length : ℕ) : ℤ)) := by omega
      have htakes : g.fwrite.headD true = true := by
        cases hanswers : g.fwrite with
        | nil => rfl
        | cons w ws =>
            have hw : w ≠ false := fun h => hwrite (by simp [hanswers, h])
            simpa using hw
      have hframe : getFrame frameMax { g with inp := inp }
          (cstr (hdrText 68 piece.length)) =
            (none, ⟨inp', g.fwrite.tail, g.saved ++ piece⟩) := by
        rw [cstr_hdrText (by decide)]
        simp only [hdrText, sp, getFrame, hatol, hzero, if_false, hfits,
          Int.toNat_natCast, hread, htakes, if_true]
      obtain ⟨g', hloop, hg', hrest', hsaved⟩ := ih
        (fun p hp => hreads p (by simp [hp]))
        (g := ⟨inp', g.fwrite.tail, g.saved ++ piece⟩) hsteady'
        (fun h => hwrite (List.mem_of_mem_tail h)) hrest (by simpa using hfuel)
      refine ⟨g', ?_, hg', hrest', by simpa using hsaved⟩
      rw [getLoop, hline]
      dsimp only
      rw [hframe]
      exact hloop

theorem putStream_length (reads : List Bytes) : reads.length < (putStream reads).length := by
  have hhdr : ∀ n, 1 ≤ (frameHdr 68 n).length := by
    intro n
    simp [frameHdr]
  induction reads with
  | nil => decide
  | cons piece reads ih =>
      have h := hhdr piece.length
      simp only [putStream, encodeData, List.flatMap_cons, List.length_append,
        List.length_cons] at ih ⊢
      omega

theorem xferGet_answered
    {frameMax : ℕ} (hmax : frameMax ≤ wireFrameMax) {reads : List Bytes}
    (hreads : ∀ piece ∈ reads, 1 ≤ piece.length ∧ piece.length ≤ frameMax)
    {link : Link} (hlink : link.Steady) (rpath : Bytes) {file : LocalFile}
    (hcreate : file.create = true) (hwrite : false ∉ file.fwrite)
    (hclose : file.fclose = true) {rest : Bytes}
    (hpending : link.inp.pending = ascii "OK" ++ lf :: (putStream reads ++ rest)) :
    ∃ link' : Link, xferGet frameMax link rpath file = (0, link', some reads.flatten) ∧
      link'.chan.sent = link.chan.sent ++ (getLine rpath ++ [lf]) ∧
      link'.inp.pending = rest := by
  obtain ⟨link', hcmd, hlink', hsent, -, hrest⟩ :=
    rcCmd_steady hlink (getLine rpath) okLine_clean (by decide) hpending
  have hfuel : reads.length < link'.inp.pending.length + 1 := by
    have hlen := putStream_length reads
    rw [hrest, List.length_append]
    omega
  obtain ⟨g', hloop, -, hdone, hsaved⟩ :=
    getLoop_complete hmax hreads (g := ⟨link'.inp, file.fwrite, []⟩) hlink'.inp hwrite hrest
      hfuel
  refine ⟨⟨link'.chan, g'.inp⟩, ?_, hsent, hdone⟩
  simp only [xferGet, hcmd, ne_eq, not_true_eq_false, if_false, hcreate, if_true, hloop,
    hclose, Bool.and_self, hsaved, List.nil_append]

/-- The client of a download sends its command only. -/
theorem xferGet_sends
    {link : Link} (hlink : link.chan.Steady) (frameMax : ℕ) (rpath : Bytes)
    (file : LocalFile) :
    (xferGet frameMax link rpath file).2.1.chan.sent =
      link.chan.sent ++ (getLine rpath ++ [lf]) := by
  obtain ⟨hsent, -, -⟩ := rcCmd_sent hlink (getLine rpath)
  unfold xferGet
  cases hcmd : rcCmd link (getLine rpath) with
  | mk reply link' =>
      rw [hcmd] at hsent
      cases reply with
      | none => exact hsent
      | some reply =>
          dsimp only
          split_ifs <;> exact hsent

/-! ## The daemon -/

section

variable {cfg : Cfg} {d : Daemon} {env : List EnvEntry}

theorem feed_of_putOver
    (o : Answers) {bytes : Bytes} (hall : (putOver cfg d (bytesIn o bytes)).2 = []) :
    feed cfg o d bytes = (putOver cfg d (bytesIn o bytes)).1 := by
  induction bytes generalizing d with
  | nil => rfl
  | cons b bytes ih =>
      have hcons : bytesIn o (b :: bytes) = (some b, o) :: bytesIn o bytes := rfl
      rw [hcons, putOver] at hall ⊢
      split_ifs at hall ⊢ with hin
      · exact ih hall

theorem putInputs_eq (o : Answers) (reads : List Bytes) :
    putInputs (reads.map fun piece => (piece, o)) o = bytesIn o (putStream reads) := by
  have hframes : (reads.map fun piece => (piece, o)).flatMap
      (fun f => bytesIn f.2 (frameHdr 68 f.1.length ++ f.1)) =
        bytesIn o (encodeData reads) := by
    induction reads with
    | nil => rfl
    | cons piece reads ih =>
        simp only [List.map_cons, List.flatMap_cons, ih, encodeData]
        simp [bytesIn]
  rw [putInputs, hframes]
  simp [putStream, bytesIn]

theorem putRefusal_uncapped
    (hcap : cfg.maxout = 0) {o : Answers} (hwrite : o.fwrite = true) (total : ℕ)
    (reads : List Bytes) :
    putRefusal cfg total (reads.map fun piece => (piece, o)) = none := by
  induction reads generalizing total with
  | nil => rfl
  | cons piece reads ih =>
      simp [putRefusal, hcap, hwrite, ih]

/-- The command of an upload, up to the OK. -/
theorem feed_put_line
    (hctl : d.ctl = .session true env []) (hd : d.chan.Steady) (o : Answers)
    (hcreate : o.create = true) {line path : Bytes} (hpath : path ≠ [])
    (hline : Says cfg line (ascii "PUT" ++ sp :: path)) :
    ∃ d' : Daemon, feed cfg o d (line ++ [lf]) =
        { d' with ctl := .putHdr env ⟨path, 0⟩ [] } ∧
      d'.chan.Steady ∧ d'.chan.sent = d.chan.sent ++ (ascii "OK" ++ [lf]) ∧
      d'.cwd = d.cwd ∧ d'.files (cfg.resolve d.cwd path) = some [] := by
  have hcut : cutAt sp (ascii "PUT" ++ sp :: path) = (ascii "PUT", some path) :=
    cutAt_append_cons (by decide) path
  have hverb : verbOf (ascii "PUT") = .put := by decide
  have hok := wrote_lioPutLine hd (ascii "OK")
  rw [feed_whole_line o hctl hline hcut, hverb]
  cases path with
  | nil => exact absurd rfl hpath
  | cons b p =>
      refine ⟨{ openTrunc cfg { d with ctl := .session true env line } true (b :: p) with
        chan := (lioPutLine d.chan (ascii "OK")).2 }, ?_, hok.steady, hok.sent, ?_, ?_⟩
      · simp only [sessionCmd, doPut, hcreate, if_true, openTrunc, hok.ok]
      · simp [openTrunc]
      · simp [openTrunc]

theorem feed_upload
    (hcap : cfg.maxout = 0) (hctl : d.ctl = .session true env []) (hd : d.chan.Steady)
    {o : Answers} (hcreate : o.create = true) (hwrite : o.fwrite = true)
    (hclose : o.fclose = true) {line path : Bytes} (hpath : path ≠ [])
    (hline : Says cfg line (ascii "PUT" ++ sp :: path)) {reads : List Bytes}
    (hreads : ∀ piece ∈ reads, 1 ≤ piece.length ∧ piece.length ≤ cfg.build.frameMax) :
    ∃ d', feed cfg o d (line ++ [lf] ++ putStream reads) = d' ∧
      d'.ctl = .session true env [] ∧
      d'.files (cfg.resolve d.cwd path) = some reads.flatten ∧
      d'.chan.sent = d.chan.sent ++
        (ascii "OK" ++ lf :: (ascii "OK " ++ decimal reads.flatten.length ++ [lf])) := by
  obtain ⟨d₁, hopen, hsteady, hsent, hcwd, hfile⟩ :=
    feed_put_line hctl hd o hcreate hpath hline
  have hnames : cfg.resolve d₁.cwd path = cfg.resolve d.cwd path := by rw [hcwd]
  have hempty : (d₁.files (cfg.resolve d.cwd path)).getD [] = [] := by
    rw [hfile]
    rfl
  obtain ⟨d₂, hchan, hstored, hsome, hover⟩ := putOver_accepted cfg d₁ env ⟨path, 0⟩
    (reads.map fun piece => (piece, o)) (by simpa using hreads)
    (putRefusal_uncapped hcap hwrite 0 reads) hclose hnames hempty
  rw [putInputs_eq] at hover
  have hfeed : feed cfg o { d₁ with ctl := .putHdr env ⟨path, 0⟩ [] } (putStream reads) =
      (putOver cfg { d₁ with ctl := .putHdr env ⟨path, 0⟩ [] }
        (bytesIn o (putStream reads))).1 :=
    feed_of_putOver o (by rw [hover])
  have hmap : (reads.map fun piece => (piece, o)).map Prod.fst = reads := by
    simp [Function.comp_def]
  rw [hmap] at hstored hover
  obtain ⟨c, hc, -, -, hreply⟩ := reply_steady cfg o (d := d₂) (by rw [hchan]; exact hsteady)
    env (ascii "OK " ++ decimal reads.flatten.length)
  refine ⟨_, rfl, ?_⟩
  rw [feed_append, hopen, hfeed, hover]
  simp only [zero_add]
  rw [hreply]
  refine ⟨rfl, ?_, ?_⟩
  · obtain ⟨content, hcontent⟩ := Option.isSome_iff_exists.mp (hsome (by simp [hfile]))
    dsimp only
    rw [hcontent] at hstored ⊢
    simpa using hstored
  · simp only [hc, hchan, hsent]
    simp

/-- A download: OK, the file, and the terminator. -/
theorem feed_download
    (hctl : d.ctl = .session true env []) (hd : d.chan.Steady) (o : Answers)
    {line path content : Bytes} (hpath : path ≠ [])
    (hline : Says cfg line (ascii "GET" ++ sp :: path))
    (hfile : d.files (cfg.resolve d.cwd path) = some content) :
    ∃ d', feed cfg o d (line ++ [lf]) = d' ∧ d'.ctl = .session true env [] ∧
      d'.files = d.files ∧
      d'.chan.sent = d.chan.sent ++
        (ascii "OK" ++ lf :: putStream (freads d.chan.kind.chunk o.fread content)) := by
  have hcut : cutAt sp (ascii "GET" ++ sp :: path) = (ascii "GET", some path) :=
    cutAt_append_cons (by decide) path
  have hverb : verbOf (ascii "GET") = .get := by decide
  have hok := wrote_lioPutLine hd (ascii "OK")
  have hreads := freads_chanChunk cfg d.chan.kind o.fread content
  obtain ⟨hdata, hsent, hsteady, -⟩ :=
    (sendData_emits cfg d.chan.kind hreads).on _ hok.steady hok.kind
  have hchunk : chanChunk (lioPutLine d.chan (ascii "OK")).2 = d.chan.kind.chunk := by
    rw [chanChunk, hok.kind]
  rw [feed_whole_line o hctl hline hcut, hverb]
  cases path with
  | nil => exact absurd rfl hpath
  | cons b p =>
      obtain ⟨c, hc, -, -, hreply⟩ := reply_steady cfg o
        (d := { ({ d with ctl := .session true env line } : Daemon).note (.fopen (b :: p)) with
          chan := (sendData cfg (freads d.chan.kind.chunk o.fread content)
            (lioPutLine d.chan (ascii "OK")).2).2 }) hsteady env (ascii "D 0")
      refine ⟨_, rfl, ?_⟩
      have hget : sessionCmd cfg o { d with ctl := .session true env line } env .get
          (some (b :: p)) =
            reply cfg o
              { ({ d with ctl := .session true env line } : Daemon).note (.fopen (b :: p)) with
                chan := (sendData cfg (freads d.chan.kind.chunk o.fread content)
                  (lioPutLine d.chan (ascii "OK")).2).2 } env (ascii "D 0") := by
        simp only [sessionCmd, doGet, hfile, Daemon.note, hok.ok, if_true, hchunk, hdata]
      rw [hget, hreply]
      refine ⟨rfl, rfl, ?_⟩
      simp only [hc, hsent, hok.sent, putStream]
      simp

end

/-! ## Round trips -/

/-- What a file can hold: its size is a `long`. -/
structure FileData where
  bytes : Bytes
  fits : bytes.length ≤ longMax

/-- The file has been uploaded, and the daemon waits for the next command. -/
structure PutDone (cfg : Cfg) (d d' : Daemon) (env : List EnvEntry) (path content : Bytes)
    (code : ℤ) (link' : Link) (sent : Bytes) (rpath : Bytes) : Prop where
  code : code = 0
  ctl : d'.ctl = .session true env []
  file : d'.files (cfg.resolve d.cwd path) = some content
  reply : sentSince d d' =
    ascii "OK" ++ [lf] ++ (ascii "OK " ++ decimal content.length ++ [lf])
  inSync : link'.inp.pending = []
  frames : ∃ pieces, sent = putLine rpath ++ [lf] ++ putStream pieces ∧
    pieces.flatten = content ∧
    ∀ piece ∈ pieces, 1 ≤ piece.length ∧ piece.length ≤ cfg.build.frameMax

/-- The file has been downloaded, and the daemon waits for the next command. -/
structure GetDone (client : Build) (d d' : Daemon) (env : List EnvEntry) (content : Bytes)
    (code : ℤ) (link' : Link) (saved : Option Bytes) : Prop where
  code : code = 0
  ctl : d'.ctl = .session true env []
  file : saved = some content
  kept : d'.files = d.files
  inSync : link'.inp.pending = []
  frames : ∃ pieces, sentSince d d' = ascii "OK" ++ [lf] ++ putStream pieces ∧
    pieces.flatten = content ∧
    ∀ piece ∈ pieces, 1 ≤ piece.length ∧ piece.length ≤ client.frameMax

section

variable {cfg : Cfg} {d : Daemon} {env : List EnvEntry}

theorem sentSince_of_append
    {d' : Daemon} {bytes : Bytes} (hsent : d'.chan.sent = d.chan.sent ++ bytes) :
    sentSince d d' = bytes :=
  sentBetween_of_append hsent

/-- A connection on which nothing is lost carries one answer only. -/
theorem put_heard
    (hcap : cfg.maxout = 0) (hctl : d.ctl = .session true env []) (hd : d.chan.Steady)
    {o : Answers} (hcreate : o.create = true) (hwrite : o.fwrite = true)
    (hclose : o.fclose = true) {rpath path : Bytes} (hpath : path ≠ [])
    (hline : Says cfg (putLine rpath) (ascii "PUT" ++ sp :: path))
    {link : Link} (hlink : link.Steady) (plan : List (Option ℕ)) (content : Bytes) :
    Connected cfg o d link (xferPut link (some (plan, content)) rpath).2 ↔
      link.inp.pending = ascii "OK" ++ lf :: (ascii "OK " ++
        decimal (freads link.chan.kind.chunk plan content).flatten.length ++ [lf]) := by
  have hreads := freads_chanChunk cfg link.chan.kind plan content
  obtain ⟨d₁, hopen, -, hsent₁, -, -⟩ := feed_put_line hctl hd o hcreate hpath hline
  obtain ⟨d', hfeed, -, -, hsent⟩ :=
    feed_upload hcap hctl hd hcreate hwrite hclose hpath hline hreads
  have hbytes := sentBetween_of_append (xferPut_sends hlink.chan plan content rpath)
  have hstart : ∀ rest, link.inp.pending = ascii "OK" ++ lf :: rest →
      (rcCmd link (putLine rpath)).1 = some (ascii "OK") := by
    intro rest hpending
    obtain ⟨link', hcmd, -⟩ :=
      rcCmd_steady hlink (putLine rpath) okLine_clean (by decide) hpending
    rw [hcmd]
  unfold Connected
  rw [hbytes]
  constructor
  · intro hheard
    by_cases hok : (rcCmd link (putLine rpath)).1 = some (ascii "OK")
    · rw [if_pos hok, hfeed, sentSince_of_append hsent] at hheard
      exact hheard
    · have hsince : sentSince d (feed cfg o d (putLine rpath ++ [lf])) =
          ascii "OK" ++ [lf] := by
        rw [hopen]
        exact sentBetween_of_append hsent₁
      rw [if_neg hok, List.append_nil, hsince] at hheard
      exact absurd (hstart [] hheard) hok
  · intro hheard
    rw [if_pos (hstart _ hheard), hfeed, sentSince_of_append hsent]
    exact hheard

theorem put_done
    (hcap : cfg.maxout = 0) (hctl : d.ctl = .session true env []) (hd : d.chan.Steady)
    {o : Answers} (hcreate : o.create = true) (hwrite : o.fwrite = true)
    (hclose : o.fclose = true) {rpath path : Bytes} (hpath : path ≠ [])
    (hline : Says cfg (putLine rpath) (ascii "PUT" ++ sp :: path))
    {link : Link} (hlink : link.Steady) (plan : List (Option ℕ)) (content : FileData)
    (hconn : Connected cfg o d link (xferPut link (some (plan, content.bytes)) rpath).2) :
    PutDone cfg d
      (feed cfg o d (sentBetween link.chan
        (xferPut link (some (plan, content.bytes)) rpath).2.chan)) env path
      (freads link.chan.kind.chunk plan content.bytes).flatten
      (xferPut link (some (plan, content.bytes)) rpath).1
      (xferPut link (some (plan, content.bytes)) rpath).2
      (sentBetween link.chan (xferPut link (some (plan, content.bytes)) rpath).2.chan)
      rpath := by
  have hreads := freads_chanChunk cfg link.chan.kind plan content.bytes
  have hheard := (put_heard hcap hctl hd hcreate hwrite hclose hpath hline hlink plan
    content.bytes).mp hconn
  have hsize : (freads link.chan.kind.chunk plan content.bytes).flatten.length ≤ longMax :=
    (freads_flatten_le (link.chan.kind.chunk_le cfg).1 plan content.bytes).length_le.trans
      content.fits
  obtain ⟨hcode, hdone⟩ := xferPut_answered hlink plan content.bytes rpath hsize hheard
  obtain ⟨link', hcmd, -⟩ :=
    rcCmd_steady hlink (putLine rpath) okLine_clean (by decide) hheard
  have hbytes := sentBetween_of_append (xferPut_sends hlink.chan plan content.bytes rpath)
  rw [hcmd, if_pos rfl] at hbytes
  obtain ⟨d', hfeed, hctl', hfile, hsent⟩ :=
    feed_upload hcap hctl hd hcreate hwrite hclose hpath hline hreads
  rw [hbytes, hfeed]
  exact
    { code := hcode
      ctl := hctl'
      file := hfile
      reply := by
        rw [sentSince_of_append hsent]
        simp
      inSync := hdone
      frames := ⟨_, rfl, rfl, hreads⟩ }

theorem get_heard
    (hctl : d.ctl = .session true env []) (hd : d.chan.Steady) (o : Answers)
    {rpath path content : Bytes} (hpath : path ≠ [])
    (hline : Says cfg (getLine rpath) (ascii "GET" ++ sp :: path))
    (hfile : d.files (cfg.resolve d.cwd path) = some content) {link : Link}
    (hlink : link.Steady) (frameMax : ℕ) (file : LocalFile) :
    Connected cfg o d link (xferGet frameMax link rpath file).2.1 ↔
      link.inp.pending =
        ascii "OK" ++ lf :: putStream (freads d.chan.kind.chunk o.fread content) := by
  obtain ⟨d', hfeed, -, -, hsent⟩ := feed_download hctl hd o hpath hline hfile
  have hbytes := sentBetween_of_append (xferGet_sends hlink.chan frameMax rpath file)
  unfold Connected
  rw [hbytes, hfeed, sentSince_of_append hsent]

theorem get_done
    (hctl : d.ctl = .session true env []) (hd : d.chan.Steady) (o : Answers)
    {rpath path content : Bytes} (hpath : path ≠ [])
    (hline : Says cfg (getLine rpath) (ascii "GET" ++ sp :: path))
    (hfile : d.files (cfg.resolve d.cwd path) = some content) {link : Link}
    (hlink : link.Steady) (client : Build) {file : LocalFile} (hcreate : file.create = true)
    (hwrite : false ∉ file.fwrite) (hclose : file.fclose = true)
    (hconn : Connected cfg o d link (xferGet client.frameMax link rpath file).2.1) :
    GetDone client d
      (feed cfg o d (sentBetween link.chan
        (xferGet client.frameMax link rpath file).2.1.chan)) env
      (freads d.chan.kind.chunk o.fread content).flatten
      (xferGet client.frameMax link rpath file).1
      (xferGet client.frameMax link rpath file).2.1
      (xferGet client.frameMax link rpath file).2.2 := by
  have hfits : ∀ piece ∈ freads d.chan.kind.chunk o.fread content,
      1 ≤ piece.length ∧ piece.length ≤ client.frameMax :=
    freads_chanChunk { cfg with build := client } d.chan.kind o.fread content
  have hheard := (get_heard hctl hd o hpath hline hfile hlink client.frameMax file).mp hconn
  have hanswer : link.inp.pending =
      ascii "OK" ++ lf :: (putStream (freads d.chan.kind.chunk o.fread content) ++ []) := by
    simpa using hheard
  obtain ⟨link', hget, hsent', hrest⟩ := xferGet_answered client.frameMax_le hfits hlink rpath
    hcreate hwrite hclose hanswer
  obtain ⟨d', hfeed, hctl', hkept, hsent⟩ := feed_download hctl hd o hpath hline hfile
  rw [hget]
  dsimp only
  rw [sentBetween_of_append hsent', hfeed]
  exact
    { code := rfl
      ctl := hctl'
      file := rfl
      kept := hkept
      inSync := hrest
      frames := ⟨_, by rw [sentSince_of_append hsent]; simp, rfl, hfits⟩ }

end

/-- Without a cap and without failures, over any two channels and however the
calls on them and on the files split, the two ends of a transfer can exchange
only streams with which the file arrives whole. -/
theorem transfers_round_trip
    (cfg : Cfg) (client : Build) (hcap : cfg.maxout = 0) {d : Daemon} {env : List EnvEntry}
    (hctl : d.ctl = .session true env []) (hd : d.chan.Steady) (o : Answers)
    (hcreate : o.create = true) (hwrite : o.fwrite = true) (hclose : o.fclose = true)
    (c : Chan) (hc : c.Steady) (rplan : List (Option ℕ)) (hr : none ∉ rplan)
    (rpath path : Bytes) (hpath : path ≠ []) (content : FileData) :
    (∀ plan, Says cfg (putLine rpath) (ascii "PUT" ++ sp :: path) →
      ReadsWhole c.kind.chunk plan content.bytes →
      let put := fun heard => xferPut ⟨c, ⟨rplan, heard⟩⟩ (some (plan, content.bytes)) rpath
      (∃ heard, Connected cfg o d ⟨c, ⟨rplan, heard⟩⟩ (put heard).2) ∧
      ∀ heard, Connected cfg o d ⟨c, ⟨rplan, heard⟩⟩ (put heard).2 →
        PutDone cfg d (feed cfg o d (sentBetween c (put heard).2.chan)) env path
          content.bytes (put heard).1 (put heard).2 (sentBetween c (put heard).2.chan)
          rpath) ∧
    (∀ file : LocalFile, file.create = true → false ∉ file.fwrite → file.fclose = true →
      Says cfg (getLine rpath) (ascii "GET" ++ sp :: path) →
      d.files (cfg.resolve d.cwd path) = some content.bytes →
      ReadsWhole d.chan.kind.chunk o.fread content.bytes →
      let get := fun heard => xferGet client.frameMax ⟨c, ⟨rplan, heard⟩⟩ rpath file
      (∃ heard, Connected cfg o d ⟨c, ⟨rplan, heard⟩⟩ (get heard).2.1) ∧
      ∀ heard, Connected cfg o d ⟨c, ⟨rplan, heard⟩⟩ (get heard).2.1 →
        GetDone client d (feed cfg o d (sentBetween c (get heard).2.1.chan)) env
          content.bytes (get heard).1 (get heard).2.1 (get heard).2.2) := by
  have hlink : ∀ heard, Link.Steady ⟨c, ⟨rplan, heard⟩⟩ := fun _ => ⟨hc, hr⟩
  constructor
  · intro plan hline hwhole put
    have hflat := (freads_flatten_iff (c.kind.chunk_le cfg).1 plan content.bytes).mpr hwhole
    refine ⟨⟨ascii "OK" ++ lf :: (ascii "OK " ++
        decimal (freads c.kind.chunk plan content.bytes).flatten.length ++ [lf]),
      (put_heard hcap hctl hd hcreate hwrite hclose hpath hline (hlink _) plan
        content.bytes).mpr rfl⟩, ?_⟩
    intro heard hconn
    have hdone := put_done hcap hctl hd hcreate hwrite hclose hpath hline (hlink heard) plan
      content hconn
    rw [hflat] at hdone
    exact hdone
  · intro file hlocal hsaves hcloses hline hfile hwhole get
    have hflat :=
      (freads_flatten_iff (d.chan.kind.chunk_le cfg).1 o.fread content.bytes).mpr hwhole
    refine ⟨⟨ascii "OK" ++ lf :: putStream (freads d.chan.kind.chunk o.fread content.bytes),
      (get_heard hctl hd o hpath hline hfile (hlink _) client.frameMax file).mpr rfl⟩, ?_⟩
    intro heard hconn
    have hdone := get_done hctl hd o hpath hline hfile (hlink heard) client hlocal hsaves
      hcloses hconn
    rw [hflat] at hdone
    exact hdone

/-- A logged-in session, with a file of five bytes under every name. -/
def fileSession : Daemon :=
  run smallCfg (Daemon.init smallCfg [] [] fun _ => some (ascii "ab" ++ [lf] ++ ascii "cd"))
    (newPeer :: rxAll {} (ascii "AUTH t" ++ [lf]))

def fiveBytes : FileData := ⟨ascii "ab" ++ [lf] ++ ascii "cd", by decide⟩

/-- A file with an LF in it, over split writes and short reads. -/
theorem transfers_round_trip_five :
    (∃ heard,
      let put := xferPut ⟨⟨.tcp, ⟨[some 1, some 0], []⟩⟩, ⟨[some 2], heard⟩⟩
        (some ([some 1], fiveBytes.bytes)) (ascii "f")
      PutDone smallCfg fileSession
        (feed smallCfg {} fileSession (sentBetween ⟨.tcp, ⟨[some 1, some 0], []⟩⟩ put.2.chan))
        [] (ascii "f") fiveBytes.bytes put.1 put.2
        (sentBetween ⟨.tcp, ⟨[some 1, some 0], []⟩⟩ put.2.chan) (ascii "f")) ∧
    ∃ heard,
      let get := xferGet smallCfg.build.frameMax
        ⟨⟨.tcp, ⟨[some 1, some 0], []⟩⟩, ⟨[some 2], heard⟩⟩ (ascii "f") {}
      GetDone smallCfg.build fileSession
        (feed smallCfg {} fileSession (sentBetween ⟨.tcp, ⟨[some 1, some 0], []⟩⟩ get.2.1.chan))
        [] fiveBytes.bytes get.1 get.2.1 get.2.2 := by
  obtain ⟨hput, hget⟩ := transfers_round_trip smallCfg smallCfg.build rfl
    (by decide : fileSession.ctl = .session true [] []) (by decide) {} rfl rfl rfl
    ⟨.tcp, ⟨[some 1, some 0], []⟩⟩ (by decide) [some 2] (by decide) (ascii "f") (ascii "f")
    (by decide) fiveBytes
  constructor
  · have hwhole : ReadsWhole ChanKind.tcp.chunk [some 1] fiveBytes.bytes := .inr trivial
    obtain ⟨⟨heard, hconn⟩, hall⟩ :=
      hput [some 1] ⟨by decide, by decide, by decide⟩ hwhole
    exact ⟨heard, hall heard hconn⟩
  · obtain ⟨⟨heard, hconn⟩, hall⟩ := hget {} rfl (by decide) rfl
      ⟨by decide, by decide, by decide⟩ rfl trivial
    exact ⟨heard, hall heard hconn⟩

end GrandCross
