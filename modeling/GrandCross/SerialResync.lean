import GrandCross.PreAuth

/-!
# Resynchronisation of a serial line

A serial line has no connections: whatever arrived before, the client sends
QUIT and HELLO, and the daemon must then be at the start of a fresh session.
Noise may have left it in the attention wait or in an unauthenticated
session, in the middle of a line of any length; an authenticated peer may
have left it anywhere it waits for a new line.
-/

namespace GrandCross

open CText
open Transfer

/-- A byte on the serial line, with the pass of the supervision loop that
finds it when a command is running, and the answers of the operating
system. -/
structure Arrival where
  byte : Byte
  sel : Sel
  answers : Answers

/-- A byte arrives.  While a command runs `select` reports the line first; it
is a serial line, so there is no listen socket. -/
def deliver (cfg : Cfg) (d : Daemon) (a : Arrival) : Daemon :=
  match d.ctl with
  | .live l =>
      rx cfg a.answers
        (liveSelect cfg a.answers d l { a.sel with ls := none, sess := true }) a.byte
  | _ => rx cfg a.answers d a.byte

def deliverAll (cfg : Cfg) (d : Daemon) (as : List Arrival) : Daemon :=
  as.foldl (deliver cfg) d

@[simp] theorem deliverAll_nil (cfg : Cfg) (d : Daemon) :
    deliverAll cfg d [] = d := rfl

@[simp] theorem deliverAll_cons
    (cfg : Cfg) (d : Daemon) (a : Arrival) (as : List Arrival) :
    deliverAll cfg d (a :: as) = deliverAll cfg (deliver cfg d a) as := rfl

theorem deliverAll_append
    (cfg : Cfg) (d : Daemon) (as bs : List Arrival) :
    deliverAll cfg d (as ++ bs) = deliverAll cfg (deliverAll cfg d as) bs :=
  List.foldl_append

structure AtHello (d : Daemon) (buf : Bytes) : Prop where
  ctl : d.ctl = .hello buf
  steady : d.chan.Steady
  pending : d.job.pending = false

structure AtLogin (d : Daemon) (buf : Bytes) : Prop where
  ctl : d.ctl = .session false [] buf
  steady : d.chan.Steady
  pending : d.job.pending = false

section

variable {cfg : Cfg} (hser : cfg.kind = .ser)

include hser

theorem atHello_sessionReturn
    (o : Answers) {d : Daemon} (hsteady : d.chan.Steady)
    (hpending : d.job.pending = false) : AtHello (sessionReturn cfg o d) [] := by
  rw [sessionReturn_quiet cfg o hpending]
  refine ⟨?_, hsteady, hpending⟩
  simp [idleCtl, hser]

end

theorem sessionRun_steady
    (cfg : Cfg) (o : Answers) {d : Daemon} (hsteady : d.chan.Steady) :
    AtLogin (sessionRun cfg o d) [] ∧
      (sessionRun cfg o d).chan.sent = d.chan.sent ++ (greeting cfg ++ [lf]) := by
  have hgreet := wrote_lioPutLine hsteady (greeting cfg)
  have hrun : sessionRun cfg o d =
      { d with
        ctl := .session false [] []
        chan := (lioPutLine d.chan (greeting cfg)).2
        job := { d.job with pending := false }
        log := d.log ++ [.sessionStart] } := by
    simp only [sessionRun, hgreet.ok, if_true]
  rw [hrun]
  exact ⟨⟨rfl, hgreet.steady, rfl⟩, hgreet.sent⟩

/-! ## One byte -/

theorem deliver_hello
    (cfg : Cfg) {d : Daemon} {buf : Bytes} (h : AtHello d buf) (a : Arrival) :
    (∀ buf', lioGetByte lineMax buf a.byte = .more buf' →
      AtHello (deliver cfg d a) buf') ∧
    (∀ line, lioGetByte lineMax buf a.byte = .ok line →
      cstr line ≠ ascii "HELLO" → AtHello (deliver cfg d a) []) ∧
    (∀ line, lioGetByte lineMax buf a.byte = .ok line →
      cstr line = ascii "HELLO" →
      AtLogin (deliver cfg d a) [] ∧ (deliver cfg d a).chan.sent =
        d.chan.sent ++ (greeting cfg ++ [lf])) ∧
    (lioGetByte lineMax buf a.byte = .elong → AtHello (deliver cfg d a) []) := by
  have hdeliver : deliver cfg d a = rx cfg a.answers d a.byte := by
    simp [deliver, h.ctl]
  rw [hdeliver]
  simp only [rx, h.ctl]
  refine ⟨?_, ?_, ?_, ?_⟩
  · intro buf' hmore
    rw [hmore]
    exact ⟨rfl, h.steady, h.pending⟩
  · intro line hok hne
    rw [hok]
    dsimp only
    rw [if_neg hne]
    exact ⟨rfl, h.steady, h.pending⟩
  · intro line hok heq
    rw [hok]
    dsimp only
    rw [if_pos heq]
    exact sessionRun_steady cfg a.answers h.steady
  · intro hlong
    rw [hlong]
    exact ⟨rfl, h.steady, h.pending⟩

section

variable {cfg : Cfg} (hser : cfg.kind = .ser)

include hser

theorem deliver_login
    {d : Daemon} {buf : Bytes} (h : AtLogin d buf) (a : Arrival) :
    (∀ buf', lioGetByte lineMax buf a.byte = .more buf' →
      AtLogin (deliver cfg d a) buf') ∧
    (∀ line, lioGetByte lineMax buf a.byte = .ok line →
      .auth ∉ (deliver cfg d a).log → AtHello (deliver cfg d a) []) ∧
    (lioGetByte lineMax buf a.byte = .elong → AtHello (deliver cfg d a) []) := by
  have hdeliver : deliver cfg d a = rx cfg a.answers d a.byte := by
    simp [deliver, h.ctl]
  rw [hdeliver]
  simp only [rx, h.ctl]
  refine ⟨?_, ?_, ?_⟩
  · intro buf' hmore
    rw [hmore]
    exact ⟨rfl, h.steady, h.pending⟩
  · intro line hok hauth
    rw [hok] at hauth ⊢
    simp only [sessionLine, Bool.false_eq_true, if_false] at hauth ⊢
    have hsteady : (handleAuth cfg d.chan (cutAt sp (sessionText cfg line)).1
        (cutAt sp (sessionText cfg line)).2).2.Steady := by
      unfold handleAuth
      by_cases hquit : (cutAt sp (sessionText cfg line)).1 = ascii "QUIT"
      · rw [if_pos hquit]
        exact (wrote_lioPutLine h.steady _).steady
      · rw [if_neg hquit]
        split_ifs
        · exact (wrote_lioPutLine h.steady _).steady
        · exact (wrote_lioPutLine h.steady _).steady
    split_ifs at hauth ⊢
    · simp at hauth
    · exact atHello_sessionReturn hser a.answers hsteady h.pending
  · intro hlong
    rw [hlong]
    exact atHello_sessionReturn hser a.answers
      (wrote_lioPutLine h.steady _).steady h.pending

/-! ## Lines -/

omit hser

theorem Reader.deliver
    {size : ℕ} {ctl : Bytes → Ctl} (h : Reader cfg size ctl) {d : Daemon}
    {buf : Bytes} (hctl : d.ctl = ctl buf) (a : Arrival) :
    deliver cfg d a = rx cfg a.answers d a.byte := by
  unfold GrandCross.deliver
  split
  · next l hlive => exact absurd (hctl.symm.trans hlive) (h.idle buf l)
  · rfl

theorem Reader.text
    {size : ℕ} {ctl : Bytes → Ctl} (h : Reader cfg size ctl) {d : Daemon}
    {buf : Bytes} (hctl : d.ctl = ctl buf) (as : List Arrival)
    (hclean : LineClean (as.map Arrival.byte))
    (hfits : buf.length + as.length < size) :
    deliverAll cfg d as = { d with ctl := ctl (buf ++ as.map Arrival.byte) } := by
  induction as generalizing d buf with
  | nil =>
      simp only [deliverAll_nil, List.map_nil, List.append_nil]
      rw [← hctl]
  | cons a as ih =>
      have hlf : a.byte ≠ lf := fun hb => hclean.1 (by simp [hb])
      have hcr : a.byte ≠ cr := fun hb => hclean.2 (by simp [hb])
      have hrest : LineClean (as.map Arrival.byte) :=
        ⟨fun hb => hclean.1 (by simp [hb]), fun hb => hclean.2 (by simp [hb])⟩
      simp only [List.length_cons] at hfits
      have hmore : lioGetByte size buf a.byte = .more (buf ++ [a.byte]) :=
        lioGetByte_clean hcr hlf (by omega)
      have hfirst := h.more d a.answers a.byte buf _ hctl hmore
      have hend := ih (d := { d with ctl := ctl (buf ++ [a.byte]) }) rfl hrest (by
        simp only [List.length_append, List.length_singleton]
        omega)
      rw [deliverAll_cons, h.deliver hctl, hfirst, hend]
      simp

include hser

/-! ## Noise -/

def Noisy (d : Daemon) : Prop :=
  ∃ buf, nul ∉ buf ∧ (AtHello d buf ∨ AtLogin d buf)

omit hser in
theorem lioGetByte_more_nul
    {buf buf' : Bytes} {b : Byte}
    (hmore : lioGetByte lineMax buf b = .more buf') (hbuf : nul ∉ buf)
    (hb : b ≠ nul) : nul ∉ buf' := by
  unfold lioGetByte at hmore
  split_ifs at hmore
  · simp only [LineStep.more.injEq] at hmore
    rwa [← hmore]
  · simp only [LineStep.more.injEq] at hmore
    rw [← hmore]
    simpa [hbuf] using fun h => hb h.symm

theorem Noisy.deliver
    {d : Daemon} (h : Noisy d) {a : Arrival} (hnul : a.byte ≠ nul)
    (hauth : .auth ∉ (deliver cfg d a).log) : Noisy (deliver cfg d a) := by
  obtain ⟨buf, hbuf, hhello | hlogin⟩ := h
  · obtain ⟨hmore, hother, hgreet, hlong⟩ := deliver_hello cfg hhello a
    cases hbyte : lioGetByte lineMax buf a.byte with
    | more buf' =>
        exact ⟨buf', lioGetByte_more_nul hbyte hbuf hnul, .inl (hmore buf' hbyte)⟩
    | ok line =>
        by_cases hline : cstr line = ascii "HELLO"
        · exact ⟨[], by simp, .inr (hgreet line hbyte hline).1⟩
        · exact ⟨[], by simp, .inl (hother line hbyte hline)⟩
    | elong => exact ⟨[], by simp, .inl (hlong hbyte)⟩
  · obtain ⟨hmore, hrefused, hlong⟩ := deliver_login hser hlogin a
    cases hbyte : lioGetByte lineMax buf a.byte with
    | more buf' =>
        exact ⟨buf', lioGetByte_more_nul hbyte hbuf hnul, .inr (hmore buf' hbyte)⟩
    | ok line => exact ⟨[], by simp, .inl (hrefused line hbyte hauth)⟩
    | elong => exact ⟨[], by simp, .inl (hlong hbyte)⟩

/-- No prefix of the arrivals contains an accepted AUTH line. -/
def NeverAuthed (cfg : Cfg) (d : Daemon) (as : List Arrival) : Prop :=
  ∀ pre, pre <+: as → .auth ∉ (deliverAll cfg d pre).log

omit hser in
theorem NeverAuthed.tail
    {d : Daemon} {as bs : List Arrival} (h : NeverAuthed cfg d (as ++ bs)) :
    NeverAuthed cfg (deliverAll cfg d as) bs := by
  intro pre hpre
  rw [← deliverAll_append]
  exact h (as ++ pre) ((List.prefix_append_right_inj as).mpr hpre)

theorem Noisy.deliverAll
    {d : Daemon} (h : Noisy d) {as : List Arrival}
    (hnul : ∀ a ∈ as, a.byte ≠ nul) (hauth : NeverAuthed cfg d as) :
    Noisy (deliverAll cfg d as) := by
  induction as generalizing d with
  | nil => exact h
  | cons a as ih =>
      have hone : NeverAuthed cfg d [a] := fun pre hpre =>
        hauth pre (hpre.trans (List.prefix_append [a] as))
      have hfirst : .auth ∉ (GrandCross.deliver cfg d a).log :=
        hone [a] (List.prefix_refl _)
      have hboth : NeverAuthed cfg d ([a] ++ as) := hauth
      have hrest : NeverAuthed cfg (GrandCross.deliver cfg d a) as := hboth.tail
      exact ih (h.deliver hser (hnul a (by simp)) hfirst)
        (fun b hb => hnul b (by simp [hb])) hrest

/-! ## The attention sequence -/

omit hser in
theorem lioGetByte_text
    {b : Byte} (hlf : b ≠ lf) (hcr : b ≠ cr) (buf : Bytes) :
    lioGetByte lineMax buf b = .more (buf ++ [b]) ∨
      lioGetByte lineMax buf b = .elong := by
  unfold lioGetByte
  rw [if_neg hcr, if_neg hlf]
  split_ifs
  · exact .inr rfl
  · exact .inl rfl

omit hser in
/-- Text in the attention wait: it is stored, unless an overlong line makes
the daemon start over behind some byte of it. -/
theorem hello_text
    {d : Daemon} {buf : Bytes} (h : AtHello d buf) (as : List Arrival)
    (hclean : LineClean (as.map Arrival.byte)) :
    ∃ buf', AtHello (GrandCross.deliverAll cfg d as) buf' ∧
      (buf' = buf ++ as.map Arrival.byte ∨ buf' <:+ as.map Arrival.byte) := by
  induction as generalizing d buf with
  | nil => exact ⟨buf, h, .inl (by simp)⟩
  | cons a as ih =>
      have hlf : a.byte ≠ lf := fun hb => hclean.1 (by simp [hb])
      have hcr : a.byte ≠ cr := fun hb => hclean.2 (by simp [hb])
      have hrest : LineClean (as.map Arrival.byte) :=
        ⟨fun hb => hclean.1 (by simp [hb]), fun hb => hclean.2 (by simp [hb])⟩
      have hstep := deliver_hello cfg h a
      rcases lioGetByte_text hlf hcr buf with hmore | hlong
      · obtain ⟨buf', hend, hbuf'⟩ := ih (hstep.1 _ hmore) hrest
        refine ⟨buf', hend, ?_⟩
        rcases hbuf' with rfl | hsuffix
        · left
          simp
        · exact .inr (hsuffix.trans (List.suffix_cons _ _))
      · obtain ⟨buf', hend, hbuf'⟩ := ih (hstep.2.2.2 hlong) hrest
        refine ⟨buf', hend, .inr ?_⟩
        rcases hbuf' with rfl | hsuffix
        · exact List.suffix_cons _ _
        · exact hsuffix.trans (List.suffix_cons _ _)

theorem login_text
    {d : Daemon} {buf : Bytes} (h : AtLogin d buf) (as : List Arrival)
    (hclean : LineClean (as.map Arrival.byte)) :
    AtLogin (GrandCross.deliverAll cfg d as) (buf ++ as.map Arrival.byte) ∨
      ∃ buf', AtHello (GrandCross.deliverAll cfg d as) buf' ∧
        buf' <:+ as.map Arrival.byte := by
  induction as generalizing d buf with
  | nil => exact .inl (by simpa using h)
  | cons a as ih =>
      have hlf : a.byte ≠ lf := fun hb => hclean.1 (by simp [hb])
      have hcr : a.byte ≠ cr := fun hb => hclean.2 (by simp [hb])
      have hrest : LineClean (as.map Arrival.byte) :=
        ⟨fun hb => hclean.1 (by simp [hb]), fun hb => hclean.2 (by simp [hb])⟩
      have hstep := deliver_login hser h a
      rcases lioGetByte_text hlf hcr buf with hmore | hlong
      · rcases ih (hstep.1 _ hmore) hrest with hend | ⟨buf', hend, hsuffix⟩
        · left
          simpa using hend
        · exact .inr ⟨buf', hend, hsuffix.trans (List.suffix_cons _ _)⟩
      · obtain ⟨buf', hend, hbuf'⟩ := hello_text (hstep.2.2 hlong) as hrest
        refine .inr ⟨buf', hend, ?_⟩
        rcases hbuf' with rfl | hsuffix
        · exact List.suffix_cons _ _
        · exact hsuffix.trans (List.suffix_cons _ _)

omit hser in
theorem quit_ne_hello
    {buf line : Bytes} (hbuf : nul ∉ buf)
    (hline : line = buf ++ ascii "QUIT" ∨ line <:+ ascii "QUIT") :
    cstr line ≠ ascii "HELLO" := by
  rcases hline with rfl | hsuffix
  · have hnul : nul ∉ buf ++ ascii "QUIT" := by
      rw [List.mem_append]
      rintro (h | h)
      · exact hbuf h
      · exact absurd h (by decide)
    rw [cstr_eq_self hnul]
    intro h
    have hlast := congrArg List.getLast? h
    have hquit : (ascii "QUIT").getLast? = some 84 := by decide
    have hhello : (ascii "HELLO").getLast? = some 79 := by decide
    rw [List.getLast?_append, hquit, hhello] at hlast
    simp at hlast
  · have hmem : line ∈ (ascii "QUIT").tails := (List.mem_tails line _).mpr hsuffix
    have hall : ∀ s ∈ (ascii "QUIT").tails, cstr s ≠ ascii "HELLO" := by decide
    exact hall line hmem

omit hser in
theorem AtHello.quit
    {d : Daemon} {buf : Bytes} (h : AtHello d buf) (hbuf : nul ∉ buf)
    {quit : List Arrival} {a : Arrival}
    (hquit : quit.map Arrival.byte = ascii "QUIT") (ha : a.byte = lf) :
    AtHello (GrandCross.deliverAll cfg d (quit ++ [a])) [] := by
  have hclean : LineClean (quit.map Arrival.byte) := by
    rw [hquit]
    decide
  obtain ⟨line, hat, hline⟩ := hello_text h quit hclean
  rw [hquit] at hline
  have hok : lioGetByte lineMax line a.byte = .ok line := by
    rw [ha, lioGetByte_lf]
  rw [deliverAll_append]
  exact (deliver_hello cfg hat a).2.1 line hok (quit_ne_hello hbuf hline)

theorem Noisy.quit
    {d : Daemon} (h : Noisy d) {quit : List Arrival} {a : Arrival}
    (hquit : quit.map Arrival.byte = ascii "QUIT") (ha : a.byte = lf)
    (hauth : .auth ∉ (GrandCross.deliverAll cfg d (quit ++ [a])).log) :
    AtHello (GrandCross.deliverAll cfg d (quit ++ [a])) [] := by
  have hclean : LineClean (quit.map Arrival.byte) := by
    rw [hquit]
    decide
  obtain ⟨buf, hbuf, hhello | hlogin⟩ := h
  · exact hhello.quit hbuf hquit ha
  · rw [deliverAll_append] at hauth ⊢
    rcases login_text hser hlogin quit hclean with hat | ⟨line, hat, hline⟩
    · have hok : lioGetByte lineMax (buf ++ quit.map Arrival.byte) a.byte =
          .ok (buf ++ quit.map Arrival.byte) := by
        rw [ha, lioGetByte_lf]
      exact (deliver_login hser hat a).2.1 _ hok hauth
    · -- an overlong line has ended the session within QUIT
      rw [hquit] at hline
      have hok : lioGetByte lineMax line a.byte = .ok line := by
        rw [ha, lioGetByte_lf]
      exact (deliver_hello cfg hat a).2.1 line hok (quit_ne_hello hbuf (.inr hline))

omit hser in
theorem AtHello.greets
    {d : Daemon} (h : AtHello d []) {hello : List Arrival} {a : Arrival}
    (hhello : hello.map Arrival.byte = ascii "HELLO") (ha : a.byte = lf) :
    AtLogin (GrandCross.deliverAll cfg d (hello ++ [a])) [] ∧
      (GrandCross.deliverAll cfg d (hello ++ [a])).chan.sent =
        (GrandCross.deliverAll cfg d hello).chan.sent ++ (greeting cfg ++ [lf]) := by
  have hclean : LineClean (hello.map Arrival.byte) := by
    rw [hhello]
    decide
  have hlen : hello.length = 5 := by
    have := congrArg List.length hhello
    rwa [List.length_map] at this
  have hstored := (reader_hello cfg).text h.ctl hello hclean (by
    rw [hlen]
    decide)
  have hat : AtHello (GrandCross.deliverAll cfg d hello) (ascii "HELLO") := by
    rw [hstored, hhello]
    exact ⟨rfl, h.steady, h.pending⟩
  have hline : lioGetByte lineMax (ascii "HELLO") a.byte = .ok (ascii "HELLO") := by
    rw [ha, lioGetByte_lf]
  rw [deliverAll_append]
  exact (deliver_hello cfg hat a).2.2.1 _ hline (by decide)

/-! ## Authenticated peers -/

/-- The places where an authenticated peer leaves the daemon waiting for a new
line: the command loop, a PUT between two frames, a running RUN or RUNI. -/
inductive AwaitsLine : Ctl → Prop
  | command (env : List EnvEntry) : AwaitsLine (.session true env [])
  | put (env : List EnvEntry) (put : Put) : AwaitsLine (.putHdr env put [])
  | running {l : Live} (hmode : l.mode ≠ .job) : AwaitsLine (.live l)
  | frame (l : Live) (sel : Sel) : AwaitsLine (.liveLine l sel [])

omit hser in
/-- Input on the session channel while a command runs: RUN gives the session
up, RUNI reads a frame header. -/
theorem livePass_input
    (cfg : Cfg) (o : Answers) {d : Daemon} (hsteady : d.chan.Steady) {l : Live}
    (hmode : l.mode ≠ .job) {sel : Sel} (hsess : sel.sess = true) :
    ∃ d' : Daemon, d'.chan.Steady ∧ d'.job = d.job ∧
      (livePass cfg o d l sel = sessionReturn cfg o d' ∨
        ∃ l', livePass cfg o d l sel = { d' with ctl := .liveLine l' sel [] }) := by
  have hout := pumped_pumpReady cfg d l .out sel.out
  have herr := hout.trans (pumped_pumpReady cfg _ _ .err sel.err)
  have hcap := herr.trans (pumped_liveCap cfg _ _)
  have hjob : ∀ {r : Daemon × Live}, Pumped d l r → r.1.job = d.job := by
    intro r hr
    rw [hr.daemon]
  unfold livePass
  rw [if_neg hmode]
  dsimp only
  split_ifs
  · split
    · exact ⟨_, hcap.steady hsteady, hjob hcap, .inr ⟨_, rfl⟩⟩
    · exact ⟨_, hcap.steady hsteady, hjob hcap, .inl rfl⟩
  · exact ⟨_, herr.steady hsteady, hjob herr, .inl rfl⟩
  · exact ⟨_, hout.steady hsteady, hjob hout, .inl rfl⟩

omit hser in
theorem Reader.line
    {size : ℕ} {ctl : Bytes → Ctl} (h : Reader cfg size ctl) {d : Daemon}
    (hctl : d.ctl = ctl []) {text : List Arrival} {a : Arrival}
    (hclean : LineClean (text.map Arrival.byte)) (hfits : text.length < size) :
    GrandCross.deliverAll cfg d (text ++ [a]) =
      rx cfg a.answers { d with ctl := ctl (text.map Arrival.byte) } a.byte := by
  have hstored := h.text hctl text hclean (by simpa using hfits)
  rw [deliverAll_append, hstored, deliverAll_cons, deliverAll_nil]
  exact h.deliver rfl a

/-- From every such place QUIT leads to an empty attention wait. -/
theorem quit_of_awaitsLine
    {d : Daemon} (hsteady : d.chan.Steady) (hpending : d.job.pending = false)
    (hwaits : AwaitsLine d.ctl)
    (hascii : sessionText cfg (ascii "QUIT") = ascii "QUIT")
    {quit : List Arrival} {a : Arrival}
    (hquit : quit.map Arrival.byte = ascii "QUIT") (ha : a.byte = lf) :
    AtHello (GrandCross.deliverAll cfg d (quit ++ [a])) [] := by
  have hclean : LineClean (quit.map Arrival.byte) := by
    rw [hquit]
    decide
  have hlen : quit.length = 4 := by
    have := congrArg List.length hquit
    rwa [List.length_map] at this
  have hframe : ∀ {d' : Daemon} {l : Live} {sel : Sel}, d'.chan.Steady →
      d'.job.pending = false → d'.ctl = .liveLine l sel [] →
      AtHello (GrandCross.deliverAll cfg d' (quit ++ [a])) [] := by
    intro d' l sel hsteady' hpending' hctl
    rw [(reader_liveLine cfg l sel).line hctl hclean (by rw [hlen]; decide), hquit, ha]
    simp only [rx, lioGetByte_lf]
    exact atHello_sessionReturn hser a.answers hsteady' hpending'
  generalize hctl : d.ctl = ctl at hwaits
  cases hwaits with
  | command env =>
      have hcut : cutAt sp (ascii "QUIT") = (ascii "QUIT", none) := by decide
      have hverb : verbOf (ascii "QUIT") = .quit := by decide
      rw [(reader_session cfg true env).line hctl hclean (by rw [hlen]; decide),
        hquit, ha]
      simp only [rx, lioGetByte_lf, sessionLine, hascii, hcut, hverb, if_true,
        sessionCmd]
      exact atHello_sessionReturn hser a.answers
        (wrote_lioPutLine hsteady _).steady hpending
  | put env put =>
      have hline : cstr (ascii "QUIT") = [81, 85, 73, 84] := by decide
      rw [(reader_putHdr cfg env put).line hctl hclean (by rw [hlen]; decide),
        hquit, ha]
      simp only [rx, lioGetByte_lf, hline, doPutHeader, putAbort]
      exact atHello_sessionReturn hser a.answers
        (wrote_lioPutLine (c := d.chan) hsteady _).steady hpending
  | @running l hmode =>
      cases quit with
      | nil => simp at hlen
      | cons q quit =>
          -- `select` reports the first byte of QUIT before it is read
          have hdeliver : ∀ d', livePass cfg q.answers d l
              { q.sel with ls := none, sess := true } = d' →
              (∀ l', d'.ctl ≠ .live l') →
              GrandCross.deliverAll cfg d (q :: quit ++ [a]) =
                GrandCross.deliverAll cfg d' (q :: quit ++ [a]) := by
            intro d' hpass hnot
            have hfirst : GrandCross.deliver cfg d q = GrandCross.deliver cfg d' q := by
              have hd' : GrandCross.deliver cfg d' q = rx cfg q.answers d' q.byte := by
                unfold GrandCross.deliver
                split
                · next l' hlive => exact absurd hlive (hnot l')
                · rfl
              rw [hd', ← hpass]
              simp [GrandCross.deliver, hctl, liveSelect]
            rw [List.cons_append, deliverAll_cons, hfirst, ← deliverAll_cons]
          have hreadable : ({ q.sel with ls := none, sess := true } : Sel).sess = true := rfl
          obtain ⟨d', hsteady', hjob', hlost | ⟨l', hheader⟩⟩ :=
            livePass_input cfg q.answers hsteady hmode hreadable
          · have hpending' : d'.job.pending = false := by rw [hjob', hpending]
            have hat := atHello_sessionReturn hser q.answers hsteady' hpending'
            rw [hdeliver _ hlost (by simp [hat.ctl])]
            exact hat.quit (by simp) hquit ha
          · rw [hdeliver _ hheader (by simp)]
            exact hframe hsteady' (by rw [hjob', hpending]) rfl
  | frame l sel => exact hframe hsteady hpending hctl

end

/-- On a serial line, QUIT and HELLO lead to a greeting and a fresh session:
behind any NUL-free history without an accepted AUTH line, and from every
reachable state in which an authenticated peer is waited for. -/
theorem serial_resync
    (cfg : Cfg) (hser : cfg.kind = .ser)
    (hascii : sessionText cfg (ascii "QUIT") = ascii "QUIT")
    (quit hello : List Arrival) (a b : Arrival)
    (hquit : quit.map Arrival.byte = ascii "QUIT") (ha : a.byte = lf)
    (hhello : hello.map Arrival.byte = ascii "HELLO") (hb : b.byte = lf)
    (plan : List (Option ℕ)) (cwd : Bytes) (files : Bytes → Option Bytes) :
    (∀ history : List Arrival, none ∉ plan → (∀ c ∈ history, c.byte ≠ nul) →
      NeverAuthed cfg (Daemon.init cfg plan cwd files)
        (history ++ (quit ++ [a] ++ (hello ++ [b]))) →
      AtLogin (deliverAll cfg (Daemon.init cfg plan cwd files)
        (history ++ (quit ++ [a] ++ (hello ++ [b])))) [] ∧
      (deliverAll cfg (Daemon.init cfg plan cwd files)
          (history ++ (quit ++ [a] ++ (hello ++ [b])))).chan.sent =
        (deliverAll cfg (Daemon.init cfg plan cwd files)
          (history ++ (quit ++ [a] ++ hello))).chan.sent ++
          (greeting cfg ++ [lf])) ∧
    (∀ (evs : List Ev) (d : Daemon),
      d = run cfg (Daemon.init cfg plan cwd files) evs → d.chan.Steady →
      AwaitsLine d.ctl →
      AtLogin (deliverAll cfg d (quit ++ [a] ++ (hello ++ [b]))) [] ∧
      (deliverAll cfg d (quit ++ [a] ++ (hello ++ [b]))).chan.sent =
        (deliverAll cfg d (quit ++ [a] ++ hello)).chan.sent ++
          (greeting cfg ++ [lf])) := by
  have hend : ∀ d : Daemon, AtHello (deliverAll cfg d (quit ++ [a])) [] →
      AtLogin (deliverAll cfg d (quit ++ [a] ++ (hello ++ [b]))) [] ∧
      (deliverAll cfg d (quit ++ [a] ++ (hello ++ [b]))).chan.sent =
        (deliverAll cfg d (quit ++ [a] ++ hello)).chan.sent ++
          (greeting cfg ++ [lf]) := by
    intro d hat
    rw [deliverAll_append cfg d (quit ++ [a]) (hello ++ [b]),
      deliverAll_append cfg d (quit ++ [a]) hello]
    exact hat.greets hhello hb
  constructor
  · intro history hplan hnul hauth
    have hinit : Noisy (Daemon.init cfg plan cwd files) := by
      refine ⟨[], by simp, .inl ⟨?_, hplan, rfl⟩⟩
      simp [Daemon.init, idleCtl, hser]
    have hhistory : NeverAuthed cfg (Daemon.init cfg plan cwd files) history :=
      fun pre hpre => hauth pre (hpre.trans (List.prefix_append _ _))
    have hnoisy := hinit.deliverAll hser hnul hhistory
    have hauthQuit : .auth ∉ (deliverAll cfg
        (deliverAll cfg (Daemon.init cfg plan cwd files) history)
        (quit ++ [a])).log := by
      apply hauth.tail
      exact List.prefix_append _ _
    rw [deliverAll_append cfg _ history (quit ++ [a] ++ (hello ++ [b])),
      deliverAll_append cfg _ history (quit ++ [a] ++ hello)]
    exact hend _ (hnoisy.quit hser hquit ha hauthQuit)
  · intro evs d hd hsteady hwaits
    have hinv := inv_reachable cfg plan cwd files evs
    rw [← hd] at hinv
    exact hend d (quit_of_awaitsLine hser hsteady hinv.inside.pending hwaits hascii
      hquit ha)

/-- A serial daemon that has read part of a line when the client comes. -/
def serialCfg : Cfg := { smallCfg with kind := .ser }

def arrivals (text : String) : List Arrival :=
  (ascii text).map fun b => ⟨b, {}, {}⟩

def lineEnd : Arrival := ⟨lf, {}, {}⟩

def halfHello : List Arrival :=
  arrivals "HEL" ++ (arrivals "QUIT" ++ [lineEnd] ++ (arrivals "HELLO" ++ [lineEnd]))

theorem serialCfg_resync :
    AtLogin (deliverAll serialCfg (Daemon.init serialCfg [] [] fun _ => none)
      halfHello) [] := by
  have hnever : NeverAuthed serialCfg (Daemon.init serialCfg [] [] fun _ => none)
      halfHello := by
    intro pre hpre
    have hall : ∀ n < 15, .auth ∉ (deliverAll serialCfg
        (Daemon.init serialCfg [] [] fun _ => none) (halfHello.take n)).log := by
      decide
    have hlen : pre.length < 15 :=
      Nat.lt_succ_of_le (hpre.length_le.trans (by decide))
    rw [List.prefix_iff_eq_take.mp hpre]
    exact hall pre.length hlen
  exact ((serial_resync serialCfg rfl (by decide) (arrivals "QUIT")
    (arrivals "HELLO") lineEnd lineEnd (by decide) rfl (by decide) rfl
    [] [] (fun _ => none)).1 (arrivals "HEL") (by decide) (by decide) hnever).1

end GrandCross
