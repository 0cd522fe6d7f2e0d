import GrandCross.OutputGrows
import GrandCross.TransferHeard

/-!
# Success means the whole file

What a daemon has sent and stored after any part of what a client sends, in
any mixture with failed reads.  Either it has denied the transfer, or it has
gone through to the terminator; and then the file is what the sender's `fread`
calls returned.  Neither sender asks `ferror` whether those calls got to the
end of the file.
-/

namespace GrandCross

open CText
open Transfer

def hear (cfg : Cfg) (d : Daemon) (inputs : List Input) : Daemon :=
  inputs.foldl (receive cfg) d

@[simp] theorem hear_nil (cfg : Cfg) (d : Daemon) : hear cfg d [] = d := rfl

@[simp] theorem hear_cons (cfg : Cfg) (d : Daemon) (input : Input) (inputs : List Input) :
    hear cfg d (input :: inputs) = hear cfg (receive cfg d input) inputs := rfl

theorem hear_bytesIn (cfg : Cfg) (o : Answers) (d : Daemon) (bytes : Bytes) :
    hear cfg d (bytesIn o bytes) = feed cfg o d bytes := by
  induction bytes generalizing d with
  | nil => rfl
  | cons b bytes ih => exact ih (rx cfg o d b)

theorem hear_putOver (cfg : Cfg) (d : Daemon) (inputs : List Input) :
    hear cfg d inputs = hear cfg (putOver cfg d inputs).1 (putOver cfg d inputs).2 := by
  induction inputs generalizing d with
  | nil => rfl
  | cons input inputs ih =>
      rw [putOver]
      split_ifs
      · exact ih (receive cfg d input)
      · rfl

def bytesOf (inputs : List Input) : Bytes := inputs.filterMap Prod.fst

@[simp] theorem bytesOf_append (first rest : List Input) :
    bytesOf (first ++ rest) = bytesOf first ++ bytesOf rest :=
  List.filterMap_append

theorem bytesOf_bytesIn (o : Answers) (bytes : Bytes) : bytesOf (bytesIn o bytes) = bytes := by
  simp [bytesOf, bytesIn]

theorem bytesOf_some
    {inputs : List Input} {s : Bytes} (hinputs : inputs.map Prod.fst = s.map some) :
    bytesOf inputs = s := by
  have hcompose : bytesOf inputs = (inputs.map Prod.fst).filterMap id := by
    simp [bytesOf, List.filterMap_map]
  rw [hcompose, hinputs]
  simp

/-! ## A refused transfer stays refused -/

section

variable {cfg : Cfg} {c : Chan} {d : Daemon}

theorem Grows.receive (h : Grows c d) (input : Input) : Grows c (receive cfg d input) := by
  obtain ⟨received, o⟩ := input
  cases received with
  | none => exact h.hup o
  | some b => exact h.rx o b

theorem gcdsStrlcat_keeps (dst src : Bytes) (size : ℕ) :
    dst <+: (gcdsStrlcat dst src size).1 := by
  unfold gcdsStrlcat
  split_ifs
  · exact List.prefix_append _ _
  · exact List.prefix_refl _

theorem greeting_head (cfg : Cfg) : ∃ rest, greeting cfg = 71 :: rest := by
  have hkeeps : ∀ (parts : List Bytes) (greet : Bytes),
      greet <+: parts.foldl (fun greet part => (gcdsStrlcat greet part lineMax).1) greet := by
    intro parts
    induction parts with
    | nil => exact fun greet => List.prefix_refl _
    | cons part parts ih => exact fun greet => (gcdsStrlcat_keeps greet part _).trans (ih _)
  obtain ⟨rest, hrest⟩ := hkeeps
    ([cfg.osTag, ascii " ", cfg.host] ++
      ((if cfg.async then [ascii " ASYNC"] else []) ++
        ((if cfg.live then [ascii " LIVE"] else []) ++
          ((if cfg.ix then [ascii " INTERACTIVE"] else []) ++
            (if cfg.build.wireUtf8 then [ascii " UTF8"] else [])))))
    (ascii "GCDS 1 ")
  refine ⟨ascii "CDS 1 " ++ rest, ?_⟩
  have hfirst : (gcdsStrlcat [] (ascii "GCDS 1 ") lineMax).1 = ascii "GCDS 1 " := by decide
  simp only [greeting, List.append_assoc, List.cons_append, List.foldl_cons, hfirst]
  exact hrest.symm

theorem refused_sessionRun
    (o : Answers) (hsent : d.chan.sent = c.sent) : Refused c (sessionRun cfg o d) := by
  obtain ⟨text, hgreet⟩ := greeting_head cfg
  obtain ⟨part, hpart, hline, hall⟩ := lioPutLine_part d.chan (greeting cfg)
  rw [hsent] at hpart
  rw [hgreet, List.cons_append] at hline
  unfold sessionRun
  dsimp only
  split_ifs with hok
  · refine refused_of_part (.inr rfl) hpart hline ?_
    intro hnone
    rw [hall hok] at hnone
    simp at hnone
  · have hreturn := sessionReturn_quiet cfg o
      (d := { d with
        job := { d.job with pending := false }
        log := d.log ++ [.sessionStart]
        chan := (lioPutLine d.chan (greeting cfg)).2 }) rfl
    rw [hreturn]
    exact refused_of_part (.inr rfl) hpart hline fun _ => ⟨idleCtl_between cfg, rfl⟩

theorem Refused.receive (h : Refused c d) (input : Input) :
    Refused c (receive cfg d input) := by
  cases h with
  | said b hb hsent =>
      have hmore : Grows d.chan (GrandCross.receive cfg d input) :=
        Grows.receive (List.prefix_refl _) input
      exact .said b hb (hsent.trans hmore)
  | waiting hsent hctl hpending =>
      obtain ⟨received, o⟩ := input
      generalize hwait : d.ctl = ctl at hctl
      cases ctl with
      | accept =>
          cases received <;>
            simp only [GrandCross.receive, rx, hup, hwait] <;>
            exact .waiting hsent (by rw [hwait]; rfl) hpending
      | down =>
          cases received <;>
            simp only [GrandCross.receive, rx, hup, hwait] <;>
            exact .waiting hsent (by rw [hwait]; rfl) hpending
      | hello buf =>
          cases received with
          | none =>
              simp only [GrandCross.receive, hup, hwait]
              exact .waiting hsent rfl hpending
          | some b =>
              simp only [GrandCross.receive, rx, hwait]
              split
              · exact .waiting hsent rfl hpending
              · split_ifs
                · exact refused_sessionRun o hsent
                · exact .waiting hsent rfl hpending
              · exact .waiting hsent rfl hpending
      | _ => cases hctl

theorem Refused.hear (h : Refused c d) (inputs : List Input) :
    Refused c (hear cfg d inputs) := by
  induction inputs generalizing d with
  | nil => exact h
  | cons input inputs ih => exact ih (h.receive input)

/-- All that is heard between the line OK and its end is denied. -/
theorem Refused.denied
    {c' : Chan} {part : Bytes} (hsent : c'.sent = c.sent ++ part)
    (hpart : part <+: ascii "OK" ++ [lf]) (h : Refused c' d) :
    Denied (sentBetween c d.chan) := by
  cases h with
  | waiting hsame hctl hpending =>
      refine ⟨part, [], hpart, ?_, by simp⟩
      rw [sentBetween_of_append (hsame.trans hsent), List.append_nil]
  | said b hb hsaid =>
      obtain ⟨rest, hrest⟩ := hsaid
      refine ⟨part, b :: rest, hpart, ?_, by simpa using hb⟩
      apply sentBetween_of_append
      rw [← hrest, hsent]
      simp

theorem Refused.denied_since
    {d' : Daemon} (h : Refused d.chan d') : Denied (sentSince d d') := by
  have hsent : d.chan.sent = d.chan.sent ++ [] := by simp
  exact h.denied hsent List.nil_prefix

/-! ## Failed reads between commands -/

/-- Where nothing but failed reads comes in, nothing is sent or stored. -/
theorem hear_calm
    (hctl : d.ctl.calm = true) (hpending : d.job.pending = false) {inputs : List Input}
    (hbytes : bytesOf inputs = []) :
    (hear cfg d inputs).files = d.files ∧ (hear cfg d inputs).chan = d.chan := by
  induction inputs generalizing d with
  | nil => exact ⟨rfl, rfl⟩
  | cons input inputs ih =>
      obtain ⟨received, o⟩ := input
      cases received with
      | some b => simp [bytesOf] at hbytes
      | none =>
          have hnext : (hup cfg o d).ctl.calm = true ∧
              (hup cfg o d).job.pending = false ∧
              (hup cfg o d).files = d.files ∧ (hup cfg o d).chan = d.chan := by
            unfold hup
            generalize hwait : d.ctl = ctl at hctl
            cases ctl with
            | accept => exact ⟨by rw [hwait]; rfl, hpending, rfl, rfl⟩
            | down => exact ⟨by rw [hwait]; rfl, hpending, rfl, rfl⟩
            | hello buf => exact ⟨rfl, hpending, rfl, rfl⟩
            | session authed env buf =>
                dsimp only
                rw [sessionReturn_quiet cfg o hpending]
                exact ⟨idleCtl_calm cfg, hpending, rfl, rfl⟩
            | _ => cases hctl
          obtain ⟨hcalm, hquiet, hfiles, hchan⟩ := hnext
          obtain ⟨hfiles', hchan'⟩ := ih hcalm hquiet (by simpa [bytesOf] using hbytes)
          exact ⟨hfiles'.trans hfiles, hchan'.trans hchan⟩

/-! ## The command line -/

/-- As long as only bytes of the line are heard nothing is sent; a failed read
ends the session, and the LF runs the command. -/
theorem line_heard
    {env : List EnvEntry} {buf rest line : Bytes}
    (hctl : d.ctl = .session true env buf) (hpending : d.job.pending = false)
    {text : Bytes} (hline : line = buf ++ text) (hclean : LineClean line)
    (hfits : line.length < lineMax) {inputs : List Input}
    (hbytes : bytesOf inputs <+: text ++ lf :: rest) :
    Refused d.chan (hear cfg d inputs) ∨ (hear cfg d inputs).chan = d.chan ∨
      ∃ o ∈ inputs.map Prod.snd, ∃ post, bytesOf post <+: rest ∧
        hear cfg d inputs =
          hear cfg
            (sessionLine cfg o { d with ctl := .session true env line } true env line)
            post := by
  induction inputs generalizing d buf text with
  | nil => exact .inr (.inl rfl)
  | cons input inputs ih =>
      obtain ⟨received, o⟩ := input
      cases received with
      | none =>
          left
          have hover : receive cfg d (none, o) = sessionReturn cfg o d := by
            simp only [receive, hup, hctl]
          rw [hear_cons, hover]
          exact (refused_return o hpending rfl).hear inputs
      | some b =>
          have hstep : bytesOf ((some b, o) :: inputs) = b :: bytesOf inputs := rfl
          rw [hstep] at hbytes
          cases text with
          | nil =>
              obtain ⟨rfl, hrest⟩ := List.cons_prefix_cons.mp hbytes
              rw [List.append_nil] at hline
              subst hline
              refine .inr (.inr ⟨o, by simp, inputs, hrest, ?_⟩)
              have hread : ({ d with ctl := .session true env line } : Daemon) = d := by
                rw [← hctl]
              rw [hear_cons, hread]
              simp only [receive, rx, hctl, lioGetByte_lf]
          | cons b' text =>
              obtain ⟨rfl, hrest⟩ := List.cons_prefix_cons.mp hbytes
              have hcr : b ≠ cr := fun h => hclean.2 (by simp [hline, h])
              have hlf : b ≠ lf := fun h => hclean.1 (by simp [hline, h])
              have hroom : buf.length + 1 < lineMax := by
                rw [hline] at hfits
                simp only [List.length_append, List.length_cons] at hfits
                omega
              have hmore : receive cfg d (some b, o) =
                  { d with ctl := .session true env (buf ++ [b]) } := by
                simp only [receive, rx, hctl, lioGetByte_clean hcr hlf hroom]
              rw [hear_cons, hmore]
              rcases ih (d := { d with ctl := .session true env (buf ++ [b]) }) rfl hpending
                (by rw [hline]; simp) hrest with hlost | hopen | ⟨o', ho', post, hpost, hread⟩
              · exact .inl hlost
              · exact .inr (.inl hopen)
              · exact .inr (.inr ⟨o', by simp [ho'], post, hpost, hread⟩)

/-- A command that is sent as `line`, from its first byte on. -/
theorem command_heard
    {env : List EnvEntry} (hctl : d.ctl = .session true env [])
    (hpending : d.job.pending = false) {line text rest cmd : Bytes} {arg : Option Bytes}
    (hline : Says cfg line text) (hcut : cutAt sp text = (cmd, arg)) {inputs : List Input}
    (hbytes : bytesOf inputs <+: line ++ lf :: rest) :
    Denied (sentSince d (hear cfg d inputs)) ∨
      ∃ o ∈ inputs.map Prod.snd, ∃ post, bytesOf post <+: rest ∧
        hear cfg d inputs =
          hear cfg
            (sessionCmd cfg o { d with ctl := .session true env line } env (verbOf cmd) arg)
            post := by
  have htext : line = [] ++ line := rfl
  rcases line_heard hctl hpending htext hline.clean hline.fits hbytes with
    hlost | hopen | ⟨o, ho, post, hpost, hread⟩
  · exact .inl hlost.denied_since
  · left
    refine ⟨[], [], List.nil_prefix, ?_, by simp⟩
    exact sentBetween_of_append (by rw [hopen]; simp)
  · refine .inr ⟨o, ho, post, hpost, ?_⟩
    rw [hread]
    simp only [sessionLine, hline.text, hcut, if_true]

/-! ## Uploads -/

theorem put_heard_part
    (hpending : d.job.pending = false) (o : Answers) (env : List EnvEntry) (path : Bytes)
    {reads : List Bytes}
    (hreads : ∀ piece ∈ reads, 1 ≤ piece.length ∧ piece.length ≤ wireFrameMax)
    {post : List Input} (hpost : bytesOf post <+: putStream reads) :
    Denied (sentSince d (hear cfg (doPut cfg o d env (some path)) post)) ∨
      (hear cfg (doPut cfg o d env (some path)) post).files (cfg.resolve d.cwd path) =
        some reads.flatten := by
  have hdenied : ∀ d' : Daemon, Refused d.chan d' → Denied (sentSince d (hear cfg d' post)) :=
    fun d' h => (h.hear post).denied_since
  by_cases hpath : path = []
  · subst hpath
    exact .inl (hdenied _ (refused_reply o hpending env (ascii "400 missing path")))
  by_cases hcreate : o.create = true
  swap
  · left
    apply hdenied
    cases path with
    | nil => exact absurd rfl hpath
    | cons b p =>
        simp only [doPut, if_neg hcreate]
        exact refused_reply o hpending env (ascii "404 cannot create")
  obtain ⟨part, hsent, hpart, hall⟩ := lioPutLine_part d.chan (ascii "OK")
  have hbehind : ∀ d' : Daemon, Refused (lioPutLine d.chan (ascii "OK")).2 d' →
      Denied (sentSince d d') := fun d' h => h.denied hsent hpart
  by_cases hok : (lioPutLine d.chan (ascii "OK")).1 = true
  swap
  · left
    rw [doPut_created cfg d o env hpath hcreate]
    dsimp only
    rw [if_neg hok]
    have hover : Refused (lioPutLine d.chan (ascii "OK")).2
        (sessionReturn cfg o
          { openTrunc cfg d true path with chan := (lioPutLine d.chan (ascii "OK")).2 }) :=
      refused_return o hpending rfl
    exact hbehind _ (hover.hear post)
  · obtain ⟨used, hused, hrest⟩ :=
      putOver_uploading (uploading_doPut hpending o env hpath hcreate hok) post
    rw [hear_putOver]
    rcases hrest with ⟨hnil, s, -, hup⟩ | ⟨-, hend⟩
    · left
      rw [hnil, hear_nil]
      refine ⟨part, [], hpart, ?_, by simp⟩
      exact sentBetween_of_append (by rw [hup.chan, hsent, List.append_nil])
    · cases hend with
      | refused hfile hrefused => exact .inl (hbehind _ (hrefused.hear _))
      | stored s content hheard hup hfile hctl hquiet =>
          right
          have hs : bytesOf used = s := bytesOf_some (by simpa using hheard)
          have hsplit : bytesOf post = s ++ bytesOf
              (putOver cfg (doPut cfg o d env (some path)) post).2 := by
            conv_lhs => rw [hused]
            rw [bytesOf_append, hs]
          rw [hsplit] at hpost
          obtain ⟨hwhole, hcontent⟩ :=
            upload_putStream hreads hup ((List.prefix_append _ _).trans hpost)
          -- behind the terminator there is nothing left to hear
          have hnothing : bytesOf (putOver cfg (doPut cfg o d env (some path)) post).2 = [] := by
            rw [hwhole] at hpost
            simpa using hpost.length_le
          rw [(hear_calm hctl hquiet hnothing).1, hfile, hcontent]

theorem put_outcome
    {env : List EnvEntry} (hctl : d.ctl = .session true env [])
    (hpending : d.job.pending = false) {line path : Bytes}
    (hline : Says cfg line (ascii "PUT" ++ sp :: path)) {reads : List Bytes}
    (hreads : ∀ piece ∈ reads, 1 ≤ piece.length ∧ piece.length ≤ wireFrameMax)
    {inputs : List Input} (hbytes : bytesOf inputs <+: line ++ lf :: putStream reads) :
    Denied (sentSince d (hear cfg d inputs)) ∨
      (hear cfg d inputs).files (cfg.resolve d.cwd path) = some reads.flatten := by
  have hcut : cutAt sp (ascii "PUT" ++ sp :: path) = (ascii "PUT", some path) :=
    cutAt_append_cons (by decide) path
  have hverb : verbOf (ascii "PUT") = .put := by decide
  rcases command_heard hctl hpending hline hcut hbytes with hdenied | ⟨o, -, post, hpost, hrun⟩
  · exact .inl hdenied
  · rw [hrun, hverb]
    exact put_heard_part (d := { d with ctl := .session true env line }) hpending o env path
      hreads hpost

/-! ## Downloads -/

theorem reply_chan (o : Answers) (env : List EnvEntry) (msg : Bytes) :
    (reply cfg o d env msg).chan = (lioPutLine d.chan msg).2 := by
  unfold reply
  split_ifs
  · rfl
  · rw [sessionReturn_chan]

theorem get_heard_part
    (hpending : d.job.pending = false) (o : Answers) (env : List EnvEntry)
    {path content : Bytes} (hfile : d.files (cfg.resolve d.cwd path) = some content)
    {post : List Input} (hpost : bytesOf post = []) :
    Denied (sentSince d (hear cfg (doGet cfg o d env (some path)) post)) ∨
      sentSince d (hear cfg (doGet cfg o d env (some path)) post) <+:
        ascii "OK" ++ lf :: putStream (freads d.chan.kind.chunk o.fread content) := by
  cases path with
  | nil =>
      have hrefused : Refused d.chan (doGet cfg o d env (some [])) :=
        refused_reply o hpending env (ascii "400 missing path")
      exact .inl (hrefused.hear post).denied_since
  | cons b p =>
      obtain ⟨part, hsent, hpart, hall⟩ := lioPutLine_part d.chan (ascii "OK")
      have hchunk : chanChunk (lioPutLine d.chan (ascii "OK")).2 = d.chan.kind.chunk := by
        rw [chanChunk, lioPutLine_kind]
      generalize hreads : freads d.chan.kind.chunk o.fread content = reads
      simp only [doGet, hfile, Daemon.note, hchunk, hreads]
      obtain ⟨data, hdata, hstream, hend⟩ :=
        sendData_part cfg reads (lioPutLine d.chan (ascii "OK")).2
      have hbehind : ∀ d' bytes, (lioPutLine d.chan (ascii "OK")).1 = true →
          d'.ctl.calm = true → d'.job.pending = false →
          d'.chan.sent = (lioPutLine d.chan (ascii "OK")).2.sent ++ bytes →
          bytes <+: putStream reads →
          sentSince d (hear cfg d' post) <+: ascii "OK" ++ lf :: putStream reads := by
        intro d' bytes hok hcalm hquiet hmore hpre
        have hsince : sentSince d (hear cfg d' post) = ascii "OK" ++ lf :: bytes := by
          apply sentBetween_of_append
          rw [(hear_calm hcalm hquiet hpost).2, hmore, hsent, hall hok]
          simp
        rw [hsince]
        exact (List.prefix_append_right_inj _).mpr (List.cons_prefix_cons.mpr ⟨rfl, hpre⟩)
      split_ifs with hok hsend
      · right
        obtain ⟨-, hcalm, hquiet⟩ := @reply_leaves cfg
          { d.note (.fopen (b :: p)) with
            chan := (sendData cfg reads (lioPutLine d.chan (ascii "OK")).2).2 }
          o hpending env (ascii "D 0")
        obtain ⟨last, hlast, htail, -⟩ := lioPutLine_part
          (sendData cfg reads (lioPutLine d.chan (ascii "OK")).2).2 (ascii "D 0")
        refine hbehind _ (encodeData reads ++ last) hok hcalm hquiet ?_ ?_
        · rw [reply_chan, hlast, hdata, hend hsend, List.append_assoc]
        · exact (List.prefix_append_right_inj _).mpr htail
      · right
        obtain ⟨-, hcalm, hquiet⟩ := @sessionReturn_leaves cfg
          { d.note (.fopen (b :: p)) with
            chan := (sendData cfg reads (lioPutLine d.chan (ascii "OK")).2).2 }
          o hpending
        refine hbehind _ data hok hcalm hquiet ?_ (hstream.trans (List.prefix_append _ _))
        rw [sessionReturn_chan]
        exact hdata
      · left
        have hover : Refused (lioPutLine d.chan (ascii "OK")).2
            (sessionReturn cfg o
              { d.note (.fopen (b :: p)) with chan := (lioPutLine d.chan (ascii "OK")).2 }) :=
          refused_return o hpending rfl
        exact (hover.hear post).denied hsent hpart

theorem get_outcome
    {env : List EnvEntry} (hctl : d.ctl = .session true env [])
    (hpending : d.job.pending = false) {line path content : Bytes}
    (hline : Says cfg line (ascii "GET" ++ sp :: path))
    (hfile : d.files (cfg.resolve d.cwd path) = some content) {inputs : List Input}
    (hbytes : bytesOf inputs <+: line ++ [lf]) {plan : List (Option ℕ)}
    (hplan : ∀ input ∈ inputs, input.2.fread = plan) :
    Denied (sentSince d (hear cfg d inputs)) ∨
      sentSince d (hear cfg d inputs) <+:
        ascii "OK" ++ lf :: putStream (freads d.chan.kind.chunk plan content) := by
  have hcut : cutAt sp (ascii "GET" ++ sp :: path) = (ascii "GET", some path) :=
    cutAt_append_cons (by decide) path
  have hverb : verbOf (ascii "GET") = .get := by decide
  rcases command_heard hctl hpending hline hcut hbytes with hdenied | ⟨o, ho, post, hpost, hrun⟩
  · exact .inl hdenied
  · obtain ⟨input, hinput, rfl⟩ := List.mem_map.mp ho
    rw [hrun, hverb, ← hplan input hinput]
    exact get_heard_part (d := { d with ctl := .session true env line }) hpending input.2 env
      hfile (List.prefix_nil.mp hpost)

end

/-! ## Success -/

/-- The daemon hears a part of what the client sends, and the client a part of
what the daemon answers. -/
structure Hears (cfg : Cfg) (d : Daemon) (inputs : List Input) (link link' : Link) :
    Prop where
  daemon : bytesOf inputs <+: sentBetween link.chan link'.chan
  client : link.inp.pending <+: sentSince d (hear cfg d inputs)

theorem hears_of_connected
    {cfg : Cfg} {o : Answers} {d : Daemon} {link link' : Link}
    (h : Connected cfg o d link link') :
    Hears cfg d (bytesIn o (sentBetween link.chan link'.chan)) link link' := by
  unfold Connected at h
  constructor
  · rw [bytesOf_bytesIn]
  · rw [hear_bytesIn, ← h]

/-- Uploads of this source, read with these `fread` calls, report success only
when the remote file is the source. -/
def PutReports (kind : ChanKind) (plan : List (Option ℕ)) (content : Bytes) : Prop :=
  ∀ (cfg : Cfg) (out : List (Option ℕ)) (cwd : Bytes) (files : Bytes → Option Bytes)
    (evs : List Ev) (env : List EnvEntry) (rpath path : Bytes) (link : Link)
    (inputs : List Input),
    let d := run cfg (Daemon.init cfg out cwd files) evs
    let put := xferPut link (some (plan, content)) rpath
    d.ctl = .session true env [] → link.chan.kind = kind →
    Says cfg (putLine rpath) (ascii "PUT" ++ sp :: path) →
    Hears cfg d inputs link put.2 → put.1 = 0 →
    (hear cfg d inputs).files (cfg.resolve d.cwd path) = some content

/-- Downloads of this remote file report success only when the local file is
the remote one. -/
def GetReports (kind : ChanKind) (plan : List (Option ℕ)) (content : Bytes) : Prop :=
  ∀ (cfg : Cfg) (client : Build) (out : List (Option ℕ)) (cwd : Bytes)
    (files : Bytes → Option Bytes) (evs : List Ev) (env : List EnvEntry)
    (rpath path : Bytes) (link : Link) (file : LocalFile) (inputs : List Input),
    let d := run cfg (Daemon.init cfg out cwd files) evs
    let get := xferGet client.frameMax link rpath file
    d.ctl = .session true env [] → d.chan.kind = kind →
    Says cfg (getLine rpath) (ascii "GET" ++ sp :: path) →
    d.files (cfg.resolve d.cwd path) = some content →
    (∀ input ∈ inputs, input.2.fread = plan) →
    Hears cfg d inputs link get.2.1 → get.1 = 0 → get.2.2 = some content

theorem freads_wireFrameMax (kind : ChanKind) (plan : List (Option ℕ)) (content : Bytes) :
    ∀ piece ∈ freads kind.chunk plan content,
      1 ≤ piece.length ∧ piece.length ≤ wireFrameMax := by
  obtain ⟨-, hpos, hsmall⟩ := chunk_wireFrameMax kind
  intro piece hpiece
  obtain ⟨hone, hlen⟩ := freads_length hpos plan content piece hpiece
  exact ⟨hone, hlen.trans (hsmall.trans (by decide))⟩

/-- A daemon on either kind of channel, with one content under every name. -/
def kindCfg (kind : ChanKind) : Cfg := { smallCfg with kind := kind }

def loginEvs : ChanKind → List Ev
  | .tcp => newPeer :: rxAll {} (ascii "AUTH t" ++ [lf])
  | .ser => rxAll {} (ascii "HELLO" ++ lf :: (ascii "AUTH t" ++ [lf]))

def login (kind : ChanKind) (content : Bytes) : Daemon :=
  run (kindCfg kind) (Daemon.init (kindCfg kind) [] [] fun _ => some content) (loginEvs kind)

theorem login_waits (kind : ChanKind) (content : Bytes) :
    (login kind content).ctl = .session true [] [] ∧ (login kind content).chan.Steady ∧
      (login kind content).chan.kind = kind ∧
      ∀ path, (login kind content).files path = some content := by
  have hplan : (login kind content).chan.out.plan = [] := by
    cases kind <;> rfl
  refine ⟨?_, ?_, ?_, ?_⟩
  · cases kind <;> rfl
  · simp [Chan.Steady, Sink.Steady, hplan]
  · cases kind <;> rfl
  · intro path
    cases kind <;> rfl

section

variable {kind : ChanKind} {plan : List (Option ℕ)}

theorem put_reports
    {content : Bytes} (hwhole : ReadsWhole kind.chunk plan content) :
    PutReports kind plan content := by
  intro cfg out cwd files evs env rpath path link inputs d put hctl hkind hline hheard hzero
  have hpending := (inv_reachable cfg out cwd files evs).inside.pending
  obtain ⟨-, hpos, -⟩ := chunk_wireFrameMax kind
  have hflat := (freads_flatten_iff hpos plan content).mpr hwhole
  obtain ⟨hsent, t, t', rest, hanswers, hlf, hok, hstored⟩ := xferPut_zero hzero
  rw [hkind] at hsent
  have hclient := hheard.client
  have hbytes := hheard.daemon
  rw [hanswers] at hclient
  rw [hsent, List.append_assoc] at hbytes
  have hreads := freads_wireFrameMax kind plan content
  rcases put_outcome hctl hpending hline hreads hbytes with hdenied | hfile
  · have hrefused := hdenied.put hclient hlf hok
    rw [hstored] at hrefused
    cases hrefused
  · rw [hfile, hflat]

theorem get_reports
    {content : Bytes} (hwhole : ReadsWhole kind.chunk plan content) :
    GetReports kind plan content := by
  intro cfg client out cwd files evs env rpath path link file inputs d get hctl hkind hline
    hfile hplan hheard hzero
  have hpending := (inv_reachable cfg out cwd files evs).inside.pending
  obtain ⟨-, hpos, -⟩ := chunk_wireFrameMax kind
  have hflat := (freads_flatten_iff hpos plan content).mpr hwhole
  obtain ⟨hsent, t, s, saved, rest, hanswers, hlf, hok, hup, hsaved⟩ := xferGet_zero hzero
  have hclient := hheard.client
  have hbytes := hheard.daemon
  rw [hanswers] at hclient
  rw [hsent] at hbytes
  have hreads := freads_wireFrameMax kind plan content
  rcases get_outcome hctl hpending hline hfile hbytes hplan with hdenied | hstream
  · exact absurd hup (hdenied.get hclient hlf hok)
  · rw [hkind] at hstream
    obtain ⟨-, hrest⟩ := line_unique hlf (by decide) (hclient.trans hstream)
    obtain ⟨-, hcontent⟩ := upload_putStream hreads hup ((List.prefix_append _ _).trans hrest)
    rw [hsaved, hcontent, hflat]

/-- A client whose channel takes everything, and which hears these bytes. -/
def hearing (kind : ChanKind) (bytes : Bytes) : Link := ⟨⟨kind, ⟨[], []⟩⟩, ⟨[], bytes⟩⟩

theorem hearing_steady (kind : ChanKind) (bytes : Bytes) : (hearing kind bytes).Steady :=
  ⟨by simp [hearing, Chan.Steady, Sink.Steady], by simp [hearing, Source.Steady]⟩

theorem whole_of_put_reports
    {content : FileData} (h : PutReports kind plan content.bytes) :
    ReadsWhole kind.chunk plan content.bytes := by
  obtain ⟨-, hpos, -⟩ := chunk_wireFrameMax kind
  obtain ⟨hctl, hsteady, -, -⟩ := login_waits kind []
  have hline : Says (kindCfg kind) (putLine (ascii "f")) (ascii "PUT" ++ sp :: ascii "f") :=
    ⟨by decide, by decide, rfl⟩
  obtain ⟨bytes, hbytes⟩ : ∃ bytes, bytes = ascii "OK" ++ lf :: (ascii "OK " ++
    decimal (freads kind.chunk plan content.bytes).flatten.length ++ [lf]) := ⟨_, rfl⟩
  have hlink := hearing_steady kind bytes
  have hconn := (put_heard (o := {}) rfl hctl hsteady rfl rfl rfl (by decide) hline hlink plan
    content.bytes).mpr hbytes
  have hdone := put_done rfl hctl hsteady rfl rfl rfl (by decide) hline hlink plan content hconn
  have hfile := hdone.file
  have hwhole := h (kindCfg kind) [] [] (fun _ => some []) (loginEvs kind) [] (ascii "f")
    (ascii "f") (hearing kind bytes) (bytesIn {} (sentBetween (hearing kind bytes).chan
      (xferPut (hearing kind bytes) (some (plan, content.bytes)) (ascii "f")).2.chan))
    hctl rfl hline
    (hears_of_connected hconn) hdone.code
  rw [hear_bytesIn] at hwhole
  rw [← freads_flatten_iff hpos]
  exact Option.some.inj (hfile.symm.trans hwhole)

theorem whole_of_get_reports
    {content : FileData} (h : GetReports kind plan content.bytes) :
    ReadsWhole kind.chunk plan content.bytes := by
  obtain ⟨-, hpos, -⟩ := chunk_wireFrameMax kind
  obtain ⟨hctl, hsteady, hkind, hfiles⟩ := login_waits kind content.bytes
  have hline : Says (kindCfg kind) (getLine (ascii "f")) (ascii "GET" ++ sp :: ascii "f") :=
    ⟨by decide, by decide, rfl⟩
  have hfile := hfiles ((kindCfg kind).resolve (login kind content.bytes).cwd (ascii "f"))
  let o : Answers := { fread := plan }
  obtain ⟨bytes, hbytes⟩ : ∃ bytes, bytes = ascii "OK" ++ lf ::
    putStream (freads (login kind content.bytes).chan.kind.chunk o.fread content.bytes) :=
    ⟨_, rfl⟩
  have hlink := hearing_steady kind bytes
  have hconn := (get_heard hctl hsteady o (by decide) hline hfile hlink
    smallCfg.build.frameMax {}).mpr hbytes
  have hall : ({} : LocalFile).create = true ∧ false ∉ ({} : LocalFile).fwrite ∧
      ({} : LocalFile).fclose = true := by decide
  have hdone := get_done hctl hsteady o (by decide) hline hfile hlink smallCfg.build hall.1
    hall.2.1 hall.2.2 hconn
  have hsaved := hdone.file
  rw [hkind] at hsaved
  have hwhole := h (kindCfg kind) smallCfg.build [] [] (fun _ => some content.bytes)
    (loginEvs kind) [] (ascii "f") (ascii "f") (hearing kind bytes) {}
    (bytesIn o (sentBetween (hearing kind bytes).chan
      (xferGet smallCfg.build.frameMax (hearing kind bytes) (ascii "f") {}).2.1.chan))
    hctl hkind hline hfile (by simp [bytesIn, o])
    (hears_of_connected hconn) hdone.code
  rw [← freads_flatten_iff hpos]
  exact Option.some.inj (hsaved.symm.trans hwhole)

end

/-- Either end reports success for whole files only, exactly when no `fread` of
the source fails before its end: a failed call is taken for the end of the
file. -/
theorem reports_whole_iff
    (kind : ChanKind) (plan : List (Option ℕ)) (content : FileData) :
    (PutReports kind plan content.bytes ↔ ReadsWhole kind.chunk plan content.bytes) ∧
      (GetReports kind plan content.bytes ↔ ReadsWhole kind.chunk plan content.bytes) :=
  ⟨⟨whole_of_put_reports, put_reports⟩, ⟨whole_of_get_reports, get_reports⟩⟩

def twoBytes : FileData := ⟨ascii "ab", by decide⟩

/-- The first `fread` of a file of two bytes fails: both ends report success,
for an empty file. -/
theorem unread_source_reported :
    (let link := hearing .tcp (ascii "OK" ++ lf :: (ascii "OK 0" ++ [lf]))
      let put := xferPut link (some ([none], ascii "ab")) (ascii "f")
      let d := login .tcp (ascii "old")
      Connected (kindCfg .tcp) {} d link put.2 ∧ put.1 = 0 ∧
        (feed (kindCfg .tcp) {} d (sentBetween link.chan put.2.chan)).files (ascii "f") =
          some []) ∧
    (let link := hearing .tcp (ascii "OK" ++ lf :: (ascii "D 0" ++ [lf]))
      let get := xferGet smallCfg.build.frameMax link (ascii "f") {}
      let d := login .tcp (ascii "ab")
      Connected (kindCfg .tcp) { fread := [none] } d link get.2.1 ∧ get.1 = 0 ∧
        get.2.2 = some []) ∧
    ¬ PutReports .tcp [none] (ascii "ab") ∧ ¬ GetReports .tcp [none] (ascii "ab") := by
  have hshort : ¬ ReadsWhole ChanKind.tcp.chunk [none] twoBytes.bytes := by
    unfold ReadsWhole
    decide
  refine ⟨⟨?_, ?_, ?_⟩, ⟨?_, ?_, ?_⟩, ?_, ?_⟩
  · unfold Connected
    decide +kernel
  · decide +kernel
  · decide +kernel
  · unfold Connected
    decide +kernel
  · decide +kernel
  · decide +kernel
  · exact fun h => hshort (@whole_of_put_reports _ _ twoBytes h)
  · exact fun h => hshort (@whole_of_get_reports _ _ twoBytes h)

end GrandCross
