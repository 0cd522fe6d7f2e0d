import GrandCross.AsyncClients
import GrandCross.ClientRequest
import GrandCross.LinePieces
import GrandCross.SerialResync

/-!
# Opening a session from both ends

`rc_open` and `rc_auth` of the client against `session_run` of the daemon.  The
client learns from the greeting what the daemon was started with, and both ends
agree on whether the session is authenticated.
-/

namespace GrandCross

open CText
open Transfer

/-! ## Words of the greeting -/

/-- A string that `strtok` returns whole and a line carries unchanged. -/
structure OneWord (w : Bytes) : Prop where
  ne : w ≠ []
  word : sp ∉ w
  clean : LineClean w
  nonul : nul ∉ w

instance (w : Bytes) : Decidable (OneWord w) :=
  decidable_of_iff (w ≠ [] ∧ sp ∉ w ∧ LineClean w ∧ nul ∉ w)
    ⟨fun h => ⟨h.1, h.2.1, h.2.2.1, h.2.2.2⟩, fun h => ⟨h.ne, h.word, h.clean, h.nonul⟩⟩

theorem strtok_append_sp (s t : Bytes) : strtok (s ++ sp :: t) = strtok s ++ strtok t := by
  unfold strtok
  rw [List.splitOnP_append_cons s t (by simp), List.filter_append]

theorem strtok_word {w : Bytes} (hne : w ≠ []) (hword : sp ∉ w) : strtok w = [w] := by
  have hclean : ∀ b ∈ w, (b == sp) = false := by
    intro b hb
    have hb' : b ≠ sp := fun h => hword (h ▸ hb)
    simpa using hb'
  unfold strtok
  rw [List.splitOnP_eq_singleton hclean]
  simp [hne]

theorem strtok_nil : strtok [] = [] := by
  simp [strtok, List.splitOnP_nil]

/-- Tokens are not empty and have no blank in them. -/
theorem mem_strtok {line w : Bytes} (hw : w ∈ strtok line) : w ≠ [] ∧ sp ∉ w := by
  obtain ⟨hsplit, hne⟩ := List.mem_filter.mp hw
  refine ⟨by simpa using hne, fun hsp => ?_⟩
  have hflat : sp ∈ (line.splitOnP (· == sp)).flatten :=
    List.mem_flatten.mpr ⟨w, hsplit, hsp⟩
  rw [LinePieces.splitOnP_flatten] at hflat
  simp at hflat

/-- What the daemon offers, as words. -/
def capWords (cfg : Cfg) : List Bytes :=
  (if cfg.async then [ascii "ASYNC"] else []) ++ (if cfg.live then [ascii "LIVE"] else []) ++
    (if cfg.ix then [ascii "INTERACTIVE"] else []) ++
    (if cfg.build.wireUtf8 then [ascii "UTF8"] else [])

def capText (cfg : Cfg) : Bytes := (capWords cfg).flatMap fun w => sp :: w

theorem capText_length (cfg : Cfg) : (capText cfg).length ≤ 28 := by
  unfold capText capWords
  cases cfg.async <;> cases cfg.live <;> cases cfg.ix <;> cases cfg.build.wireUtf8 <;> decide

theorem capText_clean (cfg : Cfg) : LineClean (capText cfg) ∧ nul ∉ capText cfg := by
  unfold capText capWords
  cases cfg.async <;> cases cfg.live <;> cases cfg.ix <;> cases cfg.build.wireUtf8 <;> decide

/-- The parts of a line of bounded parts are joined whole. -/
theorem foldl_gcdsStrlcat
    {parts : List Bytes} {dst : Bytes} {size : ℕ}
    (h : dst.length + parts.flatten.length < size) :
    parts.foldl (fun s part => (gcdsStrlcat s part size).1) dst = dst ++ parts.flatten := by
  induction parts generalizing dst with
  | nil => simp
  | cons part parts ih =>
      rw [List.flatten_cons, List.length_append] at h
      rw [List.foldl_cons, gcdsStrlcat_fits (by omega), ih (by
        rw [List.length_append]
        omega)]
      simp

section

variable {cfg : Cfg} (htag : cfg.osTag.length < 32) (hhost : cfg.host.length < 64)
include htag hhost

/-- The greeting fits its line. -/
theorem greeting_eq :
    greeting cfg = ascii "GCDS 1 " ++ cfg.osTag ++ sp :: cfg.host ++ capText cfg := by
  have hparts : ([ascii "GCDS 1 ", cfg.osTag, ascii " ", cfg.host] ++
      (if cfg.async then [ascii " ASYNC"] else []) ++
      (if cfg.live then [ascii " LIVE"] else []) ++
      (if cfg.ix then [ascii " INTERACTIVE"] else []) ++
      (if cfg.build.wireUtf8 then [ascii " UTF8"] else [])).flatten =
      ascii "GCDS 1 " ++ cfg.osTag ++ sp :: cfg.host ++ capText cfg := by
    unfold capText capWords
    cases cfg.async <;> cases cfg.live <;> cases cfg.ix <;> cases cfg.build.wireUtf8 <;>
      simp [ascii, sp]
  have hcaps := capText_length cfg
  have hseven : (ascii "GCDS 1 ").length = 7 := rfl
  unfold greeting
  dsimp only
  rw [foldl_gcdsStrlcat, hparts, List.nil_append]
  rw [hparts]
  unfold lineMax
  simp only [List.length_append, List.length_cons, List.length_nil]
  omega

theorem greeting_length : (greeting cfg).length < lineMax := by
  have hcaps := capText_length cfg
  have hseven : (ascii "GCDS 1 ").length = 7 := rfl
  rw [greeting_eq htag hhost]
  unfold lineMax
  simp only [List.length_append, List.length_cons]
  omega

end

theorem strtok_capText (cfg : Cfg) (s : Bytes) :
    strtok (s ++ capText cfg) = strtok s ++ capWords cfg := by
  have hwords : ∀ w ∈ capWords cfg, w ≠ [] ∧ sp ∉ w := by
    unfold capWords
    cases cfg.async <;> cases cfg.live <;> cases cfg.ix <;> cases cfg.build.wireUtf8 <;>
      decide
  unfold capText
  generalize capWords cfg = ws at hwords
  induction ws generalizing s with
  | nil => simp
  | cons w ws ih =>
      obtain ⟨hw, hws⟩ := List.forall_mem_cons.mp hwords
      rw [List.flatMap_cons, ← List.append_assoc, ih _ hws, strtok_append_sp,
        strtok_word hw.1 hw.2, List.append_assoc, List.singleton_append]

/-! ## What the client learns -/

/-- What a client should know of the daemon. -/
def Cfg.view (cfg : Cfg) : Greet where
  ostag := cfg.osTag
  rhost := cfg.host
  capAsync := cfg.async
  capIx := cfg.ix
  capLive := cfg.live

theorem contains_capWords (cfg : Cfg) :
    (capWords cfg).contains (ascii "ASYNC") = cfg.async ∧
      (capWords cfg).contains (ascii "INTERACTIVE") = cfg.ix ∧
      (capWords cfg).contains (ascii "LIVE") = cfg.live := by
  unfold capWords
  cases cfg.async <;> cases cfg.live <;> cases cfg.ix <;> cases cfg.build.wireUtf8 <;> decide

section

variable {cfg : Cfg} (hword : OneWord cfg.osTag) (htag : cfg.osTag.length < 32)
  (hhost : cfg.host.length < 64)
include hword htag hhost

theorem strtok_greeting :
    strtok (greeting cfg) =
      ascii "GCDS" :: ascii "1" :: cfg.osTag :: (strtok cfg.host ++ capWords cfg) := by
  have hfront : ascii "GCDS 1 " ++ cfg.osTag =
      ascii "GCDS" ++ sp :: (ascii "1" ++ sp :: cfg.osTag) := rfl
  have hmagic : strtok (ascii "GCDS") = [ascii "GCDS"] := strtok_word (by decide) (by decide)
  have hone : strtok (ascii "1") = [ascii "1"] := strtok_word (by decide) (by decide)
  rw [greeting_eq htag hhost, strtok_capText, strtok_append_sp, hfront, strtok_append_sp,
    strtok_append_sp, hmagic, hone, strtok_word hword.ne hword.word]
  rfl

/-- The client takes the daemon's greeting for what it is exactly when the host
name is one word. -/
theorem parseGreet_view_iff :
    parseGreet (greeting cfg) = some cfg.view ↔ cfg.host ≠ [] ∧ sp ∉ cfg.host := by
  have htagcut : cfg.osTag.take 31 = cfg.osTag := List.take_of_length_le (by omega)
  have hver : (1 : ℤ) ≤ atol (ascii "1") := by decide
  unfold parseGreet
  rw [strtok_greeting hword htag hhost]
  constructor
  · intro hview
    cases htokens : strtok cfg.host ++ capWords cfg with
    | nil => simp [htokens] at hview
    | cons w caps =>
        rw [htokens] at hview
        dsimp only at hview
        rw [if_pos ⟨rfl, hver⟩] at hview
        have hrhost : w.take 63 = cfg.host := congrArg Greet.rhost (Option.some.inj hview)
        cases hhosttok : strtok cfg.host with
        | nil =>
            -- Without a word in the host name, a blank or nothing stands for it.
            have hmem : w ∈ capWords cfg := by
              rw [hhosttok, List.nil_append] at htokens
              rw [htokens]
              exact List.mem_cons_self
            have hnotok : ∀ w ∈ capWords cfg, strtok (w.take 63) ≠ [] := by
              unfold capWords
              cases cfg.async <;> cases cfg.live <;> cases cfg.ix <;>
                cases cfg.build.wireUtf8 <;> decide
            exact absurd (hrhost ▸ hhosttok) (hnotok w hmem)
        | cons v vs =>
            have hfirst : w ∈ strtok cfg.host := by
              rw [hhosttok] at htokens ⊢
              rw [(List.cons.inj htokens).1]
              exact List.mem_cons_self
            obtain ⟨hne, hsp⟩ := mem_strtok hfirst
            constructor
            · intro hnil
              rw [hnil] at hhosttok
              simp [strtok_nil] at hhosttok
            · rw [← hrhost]
              exact fun hmem => hsp (List.mem_of_mem_take hmem)
  · rintro ⟨hne, hsp⟩
    have hhostcut : cfg.host.take 63 = cfg.host := List.take_of_length_le (by omega)
    obtain ⟨hasync, hix, hlive⟩ := contains_capWords cfg
    rw [strtok_word hne hsp]
    dsimp only [List.singleton_append]
    rw [if_pos ⟨rfl, hver⟩]
    simp only [gcdsStrlcpy, Nat.reduceSub, htagcut, hhostcut, hasync, hix, hlive]
    rfl

end

/-! ## The client's end -/

/-- A line in front of the source is read without its carriage returns, which
take no room in the buffer. -/
theorem lioGetLine_stripped
    {s : Source} (hs : s.Steady) {line rest : Bytes}
    (hpending : s.pending = line ++ lf :: rest) (hline : lf ∉ line)
    (hsize : (stripCr line).length < lineMax) :
    ∃ s' : Source, s'.Steady ∧ s'.pending = rest ∧
      lioGetLine lineMax s = (.ok (stripCr line), s') := by
  obtain ⟨plan', hplan', hloop⟩ : ∃ plan', none ∉ plan' ∧
      lioGetLoop lineMax s.plan (line ++ lf :: rest) [] =
        (.ok ([] ++ stripCr line), ⟨plan', rest⟩) :=
    lioGetLoop_line hs hline (by rwa [List.length_nil, Nat.zero_add])
  refine ⟨⟨plan', rest⟩, hplan', rfl, ?_⟩
  unfold lioGetLine
  rw [hpending, hloop]
  rfl

/-- A line that `rc_open` drops on a serial line. -/
structure NoiseLine (line : Bytes) : Prop where
  noLf : lf ∉ line
  short : (stripCr line).length < lineMax
  other : gcdsStarts (cstr (stripCr line)) (ascii "GCDS ") = false

def noiseText (noise : List Bytes) : Bytes := noise.flatMap fun line => line ++ [lf]

theorem greetLoop_noise
    {noise : List Bytes} (hnoise : ∀ line ∈ noise, NoiseLine line) (fuel : ℕ) {s : Source}
    (hs : s.Steady) {rest : Bytes} (hpending : s.pending = noiseText noise ++ rest) :
    ∃ s' : Source, s'.Steady ∧ s'.pending = rest ∧
      greetLoop .ser (fuel + noise.length) s = greetLoop .ser fuel s' := by
  induction noise generalizing s with
  | nil => exact ⟨s, hs, hpending, rfl⟩
  | cons line noise ih =>
      obtain ⟨hfirst, hnoise⟩ := List.forall_mem_cons.mp hnoise
      have hsplit : s.pending = line ++ lf :: (noiseText noise ++ rest) := by
        rw [hpending]
        simp [noiseText]
      obtain ⟨s₁, hs₁, hpending₁, hget⟩ :=
        lioGetLine_stripped hs hsplit hfirst.noLf hfirst.short
      obtain ⟨s', hs', hpending', hloop⟩ := ih hnoise hs₁ hpending₁
      refine ⟨s', hs', hpending', ?_⟩
      rw [List.length_cons, ← Nat.add_assoc, greetLoop, hget]
      dsimp only
      rw [if_neg (by simp [hfirst.other]), if_neg (by decide)]
      exact hloop

theorem noiseText_length (noise : List Bytes) : noise.length ≤ (noiseText noise).length := by
  induction noise with
  | nil => simp
  | cons line noise ih =>
      unfold noiseText at ih ⊢
      rw [List.flatMap_cons, List.length_append, List.length_append, List.length_cons,
        List.length_singleton]
      omega

theorem greetLoop_line
    {kind : ChanKind} {fuel : ℕ} {s : Source} (hs : s.Steady) {line rest : Bytes}
    (hpending : s.pending = line ++ lf :: rest) (hclean : LineClean line) (hnul : nul ∉ line)
    (hsize : line.length < lineMax) (hstarts : gcdsStarts line (ascii "GCDS ") = true) :
    ∃ s' : Source, s'.Steady ∧ s'.pending = rest ∧
      greetLoop kind (fuel + 1) s = some (line, s') := by
  obtain ⟨s', hs', hpending', hget⟩ := lioGetLine_clean lineMax hs hpending hclean hsize
  refine ⟨s', hs', hpending', ?_⟩
  rw [greetLoop, hget]
  dsimp only
  rw [cstr_eq_self hnul, if_pos hstarts]

/-- What a client on this kind of channel sends before it reads. -/
def hail : ChanKind → Bytes
  | .tcp => []
  | .ser => ascii "QUIT" ++ [lf] ++ (ascii "HELLO" ++ [lf])

theorem rcHail_steady
    {c : Chan} (hc : c.Steady) :
    ∃ c' : Chan, rcHail c = some c' ∧ c'.Steady ∧ c'.sent = c.sent ++ hail c.kind := by
  unfold rcHail
  cases hkind : c.kind with
  | tcp => exact ⟨c, rfl, hc, (List.append_nil _).symm⟩
  | ser =>
      have hquit := wrote_lioPutLine hc (ascii "QUIT")
      have hhello := wrote_lioPutLine hquit.steady (ascii "HELLO")
      dsimp only
      rw [if_pos hquit.ok, if_pos hhello.ok]
      refine ⟨_, rfl, hhello.steady, ?_⟩
      rw [hhello.sent, hquit.sent, List.append_assoc]
      rfl

/-- The client is connected, has sent `sent`, and is going to read `pending`. -/
structure Opened (link : Link) (sent pending : Bytes) : Prop where
  chan : link.chan.Steady
  inp : link.inp.Steady
  sent : link.chan.sent = sent
  pending : link.inp.pending = pending

/-- A host name of one word, and the tag of a system, as they are greeted with. -/
structure Cfg.Greets (cfg : Cfg) : Prop where
  tag : OneWord cfg.osTag
  tag_short : cfg.osTag.length < 32
  host : OneWord cfg.host
  host_short : cfg.host.length < 64

theorem Cfg.Greets.sessionInit
    {cfg : Cfg} (h : cfg.Greets) (tmpdir u : Bytes) (advAsync liveOk ixOk : Bool) :
    (GrandCross.sessionInit cfg tmpdir u advAsync liveOk ixOk).Greets :=
  ⟨h.tag, h.tag_short, h.host, h.host_short⟩

theorem Cfg.Greets.line
    {cfg : Cfg} (h : cfg.Greets) :
    LineClean (greeting cfg) ∧ nul ∉ greeting cfg ∧
      gcdsStarts (greeting cfg) (ascii "GCDS ") = true := by
  obtain ⟨hclean, hnul⟩ := capText_clean cfg
  have hfront : LineClean (ascii "GCDS 1 ") ∧ nul ∉ ascii "GCDS 1 " := by decide
  have hblank : LineClean [sp] ∧ nul ∉ [sp] := by decide
  rw [greeting_eq h.tag_short h.host_short]
  have hassoc : ascii "GCDS 1 " ++ cfg.osTag ++ sp :: cfg.host ++ capText cfg =
      ascii "GCDS 1 " ++ cfg.osTag ++ ([sp] ++ cfg.host) ++ capText cfg := rfl
  rw [hassoc]
  refine ⟨((hfront.1.append h.tag.clean).append (hblank.1.append h.host.clean)).append hclean,
    ?_, rfl⟩
  simp only [List.mem_append, not_or]
  exact ⟨⟨⟨hfront.2, h.tag.nonul⟩, hblank.2, h.host.nonul⟩, hnul⟩

/-- `rc_open` finds the greeting behind what is left on the line. -/
theorem rcOpen_greets
    {cfg : Cfg} (h : cfg.Greets) {conf : HostConf} {noise : List Bytes}
    (hnoise : ∀ line ∈ noise, NoiseLine line) (htcp : conf.kind = .tcp → noise = [])
    {wplan : List (Option ℕ)} (hw : none ∉ wplan) {inp : Source} (hinp : inp.Steady)
    {rest : Bytes} (hpending : inp.pending = noiseText noise ++ (greeting cfg ++ lf :: rest)) :
    ∃ link, rcOpen conf (some (wplan, inp)) = some (link, cfg.view) ∧
      Opened link (hail conf.kind) rest := by
  obtain ⟨hclean, hnul, hstarts⟩ := h.line
  have hparse : parseGreet (greeting cfg) = some cfg.view :=
    (parseGreet_view_iff h.tag h.tag_short h.host_short).mpr ⟨h.host.ne, h.host.word⟩
  have hsize := greeting_length h.tag_short h.host_short
  have hsteady : (⟨conf.kind, ⟨wplan, []⟩⟩ : Chan).Steady := hw
  obtain ⟨c, hhail, hc, hsent⟩ := rcHail_steady hsteady
  obtain ⟨inp', hinp', hpending', hloop⟩ : ∃ inp' : Source, inp'.Steady ∧
      inp'.pending = rest ∧
      greetLoop conf.kind (inp.pending.length + 1) inp = some (greeting cfg, inp') := by
    cases hkind : conf.kind with
    | tcp =>
        rw [htcp hkind] at hpending
        exact greetLoop_line hinp hpending hclean hnul hsize hstarts
    | ser =>
        have hcount := noiseText_length noise
        have hlen : noise.length ≤ inp.pending.length := by
          rw [hpending, List.length_append]
          omega
        obtain ⟨fuel, hfuel⟩ := Nat.exists_eq_add_of_le hlen
        have hturns : inp.pending.length + 1 = (fuel + 1) + noise.length := by omega
        obtain ⟨s', hs', hpending', hskip⟩ := greetLoop_noise hnoise (fuel + 1) hinp hpending
        rw [hturns, hskip]
        exact greetLoop_line hs' hpending' hclean hnul hsize hstarts
  refine ⟨⟨c, inp'⟩, ?_, hc, hinp', ?_, hpending'⟩
  · unfold rcOpen
    dsimp only
    rw [hhail]
    dsimp only
    rw [hloop]
    dsimp only
    rw [hparse, Option.map_some]
  · rw [hsent]
    rfl

theorem authLine_eq {t : Bytes} (ht : t.length < confValMax) :
    authLine t = ascii "AUTH " ++ t := by
  have hfive : (ascii "AUTH ").length = 5 := rfl
  unfold confValMax at ht
  have hfront : (gcdsStrlcat [] (ascii "AUTH ") lineMax).1 = ascii "AUTH " := by decide
  unfold authLine
  rw [hfront, gcdsStrlcat_fits (by
    unfold lineMax
    omega)]

/-- `rc_cmd` sends a line and returns the line that answers it. -/
theorem rcCmd_reply
    {link : Link} {sent reply rest : Bytes} (h : Opened link sent (reply ++ lf :: rest))
    (hclean : LineClean reply) (hnul : nul ∉ reply) (hsize : reply.length < lineMax)
    (line : Bytes) :
    ∃ link', rcCmd link line = (some reply, link') ∧
      Opened link' (sent ++ (line ++ [lf])) rest := by
  have hwrote := wrote_lioPutLine h.chan line
  obtain ⟨inp', hinp', hpending', hget⟩ :=
    lioGetLine_clean lineMax h.inp h.pending hclean hsize
  refine ⟨⟨(lioPutLine link.chan line).2, inp'⟩, ?_, hwrote.steady, hinp',
    by rw [hwrote.sent, h.sent], hpending'⟩
  unfold rcCmd
  dsimp only
  rw [if_pos hwrote.ok, hget]
  dsimp only
  rw [cstr_eq_self hnul]

/-- `rc_auth` sends its line and takes a line OK for success, no other. -/
theorem rcAuth_reply
    {conf : HostConf} {t : Bytes} (htoken : conf.token = some t) {link : Link}
    {sent reply rest : Bytes} (h : Opened link sent (reply ++ lf :: rest))
    (hclean : LineClean reply) (hnul : nul ∉ reply) (hsize : reply.length < lineMax) :
    (rcAuth conf link).1 = decide (reply = ascii "OK") ∧
      Opened (rcAuth conf link).2 (sent ++ (authLine t ++ [lf])) rest := by
  obtain ⟨link', hcmd, hopened⟩ := rcCmd_reply h hclean hnul hsize (authLine t)
  unfold rcAuth
  rw [htoken]
  dsimp only
  rw [hcmd]
  exact ⟨rfl, hopened⟩

/-! ## The daemon's end -/

/-- Text without a line feed is stored without its carriage returns. -/
theorem Reader.feed_stripped
    {cfg : Cfg} {size : ℕ} {ctl : Bytes → Ctl} (h : Reader cfg size ctl)
    (o : Answers) {d : Daemon} {buf : Bytes} (hctl : d.ctl = ctl buf)
    {line : Bytes} (hline : lf ∉ line)
    (hfits : buf.length + (stripCr line).length < size) :
    feed cfg o d line = { d with ctl := ctl (buf ++ stripCr line) } := by
  induction line generalizing d buf with
  | nil =>
      have hnil : stripCr [] = [] := rfl
      rw [hnil, List.append_nil, ← hctl]
      rfl
  | cons b line ih =>
      obtain ⟨hlf, hrest⟩ : lf ≠ b ∧ lf ∉ line := by simpa using hline
      by_cases hcr : b = cr
      · have hstrip : stripCr (b :: line) = stripCr line := by simp [stripCr, hcr]
        have hmore : lioGetByte size buf b = .more buf := if_pos hcr
        rw [hstrip] at hfits ⊢
        rw [feed_cons, h.more d o b buf _ hctl hmore, ih rfl hrest hfits]
      · have hstrip : stripCr (b :: line) = b :: stripCr line := by simp [stripCr, hcr]
        rw [hstrip, List.length_cons] at hfits
        have hmore : lioGetByte size buf b = .more (buf ++ [b]) :=
          lioGetByte_clean hcr (Ne.symm hlf) (by omega)
        rw [feed_cons, h.more d o b buf _ hctl hmore, ih rfl hrest (by
          simp only [List.length_append, List.length_singleton]
          omega), hstrip]
        simp

/-- What `handle_auth` makes of an AUTH line. -/
structure Judged (cfg : Cfg) (d d' : Daemon) (accepts : Prop) (reply : Bytes) : Prop where
  answer : (accepts ∧ reply = ascii "OK") ∨ (¬ accepts ∧ reply = ascii "ERR 401 auth failed")
  sent : d'.chan.sent = d.chan.sent ++ (reply ++ [lf])
  inSession : d'.ctl = .session true [] [] ↔ accepts

theorem AtLogin.hearsAuth
    {cfg : Cfg} {d : Daemon} (h : AtLogin d []) (o : Answers) {t : Bytes}
    (hlf : lf ∉ t) (ht : t.length < confValMax)
    (hplain : sessionText cfg (ascii "AUTH " ++ stripCr t) = ascii "AUTH " ++ stripCr t) :
    feed cfg o d (authLine t ++ [lf]) =
      if stripCr t = cfg.token then
        { d with
          ctl := .session true [] []
          chan := (lioPutLine d.chan (ascii "OK")).2
          log := d.log ++ [.auth] }
      else
        { d with
          ctl := idleCtl cfg
          chan := (lioPutLine d.chan (ascii "ERR 401 auth failed")).2
          log := d.log ++ [.sessionEnd] } := by
  have hshort := stripCr_length t
  have hstrip : stripCr (ascii "AUTH " ++ t) = ascii "AUTH " ++ stripCr t := by
    unfold stripCr
    rw [List.filter_append]
    rfl
  have hnolf : lf ∉ ascii "AUTH " ++ t := by
    rw [List.mem_append, not_or]
    exact ⟨by decide, hlf⟩
  have hfive : (ascii "AUTH ").length = 5 := rfl
  have hfits : ([] : Bytes).length + (stripCr (ascii "AUTH " ++ t)).length < lineMax := by
    rw [hstrip, List.length_append, List.length_nil]
    unfold confValMax at ht
    unfold lineMax
    omega
  have hword : sp ∉ ascii "AUTH" := by decide
  have hcut : cutAt sp (ascii "AUTH " ++ stripCr t) = (ascii "AUTH", some (stripCr t)) :=
    cutAt_append_cons hword (stripCr t)
  have hheard : feed cfg o d (authLine t ++ [lf]) =
      sessionLine cfg o
        { d with ctl := .session false [] (ascii "AUTH " ++ stripCr t) } false []
        (ascii "AUTH " ++ stripCr t) := by
    rw [authLine_eq ht, feed_append, (reader_session cfg false []).feed_stripped o h.ctl hnolf
      hfits, hstrip]
    simp only [List.nil_append, feed_cons, feed_nil, rx, lioGetByte_lf]
  have hquit : ascii "AUTH" ≠ ascii "QUIT" := by decide
  rw [hheard]
  unfold sessionLine
  dsimp only
  rw [hplain, hcut]
  dsimp only
  unfold handleAuth
  rw [if_neg hquit]
  by_cases htoken : stripCr t = cfg.token
  · have hok := wrote_lioPutLine h.steady (ascii "OK")
    have hboth : ¬ (ascii "AUTH" ≠ ascii "AUTH" ∨ some (stripCr t) ≠ some cfg.token) := by
      simp [htoken]
    rw [if_neg hboth, if_neg (by simp), if_pos hok.ok, if_pos htoken]
  · have hboth : ascii "AUTH" ≠ ascii "AUTH" ∨ some (stripCr t) ≠ some cfg.token := by
      simp [htoken]
    have hquiet := sessionReturn_quiet cfg o
      (d := { d with
        ctl := .session false [] (ascii "AUTH " ++ stripCr t)
        chan := (lioPutLine d.chan (ascii "ERR 401 auth failed")).2 }) h.pending
    rw [if_pos hboth, if_neg (by simp), if_neg (by simp), hquiet, if_neg htoken]

/-- The daemon accepts the line of its own token and no other. -/
theorem AtLogin.judges
    {cfg : Cfg} {d : Daemon} (h : AtLogin d []) (o : Answers) {t : Bytes}
    (hlf : lf ∉ t) (ht : t.length < confValMax)
    (hplain : sessionText cfg (ascii "AUTH " ++ stripCr t) = ascii "AUTH " ++ stripCr t) :
    ∃ reply, Judged cfg d (feed cfg o d (authLine t ++ [lf])) (stripCr t = cfg.token) reply := by
  rw [h.hearsAuth o hlf ht hplain]
  by_cases htoken : stripCr t = cfg.token
  · rw [if_pos htoken]
    exact ⟨ascii "OK", .inl ⟨htoken, rfl⟩, (wrote_lioPutLine h.steady _).sent,
      iff_of_true rfl htoken⟩
  · have hleft := idleCtl_not_inSession cfg
    rw [if_neg htoken]
    refine ⟨ascii "ERR 401 auth failed", .inr ⟨htoken, rfl⟩, (wrote_lioPutLine h.steady _).sent,
      iff_of_false (fun hctl => ?_) htoken⟩
    dsimp only at hctl
    rw [hctl] at hleft
    exact absurd hleft (by decide)

/-! ## Both ends -/

/-- The outcome of `rc_open` and `rc_auth` with token `t`, and of the daemon
that hears what they send. -/
structure Agreed (cfg : Cfg) (conf : HostConf) (t : Bytes) (dial : Dial) (heard : Bytes)
    (d : Daemon) : Prop where
  opened : ∃ link, rcOpen conf dial = some (link, cfg.view) ∧
    (rcAuth conf link).2.chan.sent = heard ∧ (rcAuth conf link).2.inp.pending = [] ∧
    ((rcAuth conf link).1 = true ↔ stripCr t = cfg.token)
  session : d.ctl = .session true [] [] ↔ stripCr t = cfg.token

/-- A client that finds the greeting and one line behind it. -/
theorem agreed_of_judged
    {cfg : Cfg} (hgreets : cfg.Greets) {conf : HostConf} {t : Bytes}
    (htoken : conf.token = some t) {noise : List Bytes}
    (hnoise : ∀ line ∈ noise, NoiseLine line) (htcp : conf.kind = .tcp → noise = [])
    {wplan : List (Option ℕ)} (hw : none ∉ wplan) (inp : Source) (hinp : inp.Steady)
    {d d' : Daemon} {reply : Bytes} (hjudged : Judged cfg d d' (stripCr t = cfg.token) reply)
    (hpending : inp.pending =
      noiseText noise ++ (greeting cfg ++ lf :: (reply ++ [lf]))) :
    Agreed cfg conf t (some (wplan, inp)) (hail conf.kind ++ (authLine t ++ [lf])) d' := by
  obtain ⟨link, hopen, hopened⟩ := rcOpen_greets hgreets hnoise htcp hw hinp hpending
  have hreply : LineClean reply ∧ nul ∉ reply ∧ reply.length < lineMax ∧
      (reply = ascii "OK" ↔ stripCr t = cfg.token) := by
    rcases hjudged.answer with ⟨haccepts, rfl⟩ | ⟨hrefuses, rfl⟩
    · exact ⟨by decide, by decide, by decide, iff_of_true rfl haccepts⟩
    · exact ⟨by decide, by decide, by decide, iff_of_false (by decide) hrefuses⟩
  obtain ⟨hclean, hnul, hsize, hok⟩ := hreply
  obtain ⟨hauth, hafter⟩ := rcAuth_reply htoken hopened hclean hnul hsize
  refine ⟨⟨link, hopen, hafter.sent, hafter.pending, ?_⟩, hjudged.inSession⟩
  rw [hauth, decide_eq_true_eq]
  exact hok

/-- A TCP client and the daemon that accepts it: the client learns what the
daemon was started with, and a session is authenticated at both ends or at
neither, by the token as the daemon keeps it. -/
theorem tcp_handshake
    {cfg₀ cfg : Cfg} {tmpdir u : Bytes} {advAsync liveOk ixOk : Bool}
    (hinit : cfg = sessionInit cfg₀ tmpdir u advAsync liveOk ixOk) (hgreets : cfg₀.Greets)
    {d : Daemon} (hctl : d.ctl = .accept) {peer : Bytes} (hpeer : cfg₀.peerOk peer = true)
    {plan wplan rplan : List (Option ℕ)} (hplan : none ∉ plan) (hw : none ∉ wplan)
    (hr : none ∉ rplan) (o o' : Answers) {conf : HostConf} (hkind : conf.kind = .tcp)
    {t : Bytes} (htoken : conf.token = some t) (hlf : lf ∉ t) (ht : t.length < confValMax)
    (hplain : sessionText cfg (ascii "AUTH " ++ stripCr t) = ascii "AUTH " ++ stripCr t) :
    Agreed cfg conf t
      (some (wplan, ⟨rplan,
        (feed cfg o' (step cfg d (.accept peer plan o)) (authLine t ++ [lf])).chan.sent⟩))
      (authLine t ++ [lf])
      (feed cfg o' (step cfg d (.accept peer plan o)) (authLine t ++ [lf])) ∧
    cfg.view = ⟨cfg₀.osTag, cfg₀.host, advAsync, ixOk, liveOk⟩ ∧ cfg.token = u.take 255 := by
  have hgreets' : cfg.Greets := by
    rw [hinit]
    exact hgreets.sessionInit tmpdir u advAsync liveOk ixOk
  have hpeer' : cfg.peerOk peer = true := by
    rw [hinit]
    exact hpeer
  have hsteady : ({ d with chan := ⟨.tcp, ⟨plan, []⟩⟩ } : Daemon).chan.Steady := hplan
  obtain ⟨hlogin, hsent⟩ := sessionRun_steady cfg o hsteady
  have hstep : step cfg d (.accept peer plan o) =
      sessionRun cfg o { d with chan := ⟨.tcp, ⟨plan, []⟩⟩ } := by
    simp only [step, hctl, hpeer', if_true]
  rw [hstep]
  obtain ⟨reply, hjudged⟩ := hlogin.judges o' hlf ht hplain
  have hstream : (feed cfg o' (sessionRun cfg o { d with chan := ⟨.tcp, ⟨plan, []⟩⟩ })
      (authLine t ++ [lf])).chan.sent =
      noiseText [] ++ (greeting cfg ++ lf :: (reply ++ [lf])) := by
    rw [hjudged.sent, hsent]
    show [] ++ (greeting cfg ++ [lf]) ++ (reply ++ [lf]) = _
    simp [noiseText]
  have hagreed := agreed_of_judged hgreets' htoken (by simp) (fun _ => rfl) hw ⟨rplan, _⟩ hr
    hjudged hstream
  rw [hkind] at hagreed
  refine ⟨hagreed, ?_, ?_⟩
  · rw [hinit]
    rfl
  · rw [hinit]
    rfl

def oneToken : Cfg := sessionInit smallCfg [] (ascii "t") true false false

/-- A client that was given another token is refused at both ends. -/
theorem tcp_handshake_refused :
    Agreed oneToken ⟨.tcp, some (ascii "no")⟩ (ascii "no")
      (some ([], ⟨[], (feed oneToken {}
        (step oneToken (Daemon.init oneToken [] [] fun _ => none) newPeer)
        (authLine (ascii "no") ++ [lf])).chan.sent⟩))
      (authLine (ascii "no") ++ [lf])
      (feed oneToken {} (step oneToken (Daemon.init oneToken [] [] fun _ => none) newPeer)
        (authLine (ascii "no") ++ [lf])) ∧
    stripCr (ascii "no") ≠ oneToken.token := by
  have hgreets : smallCfg.Greets := ⟨by decide, by decide, by decide, by decide⟩
  have hagreed := tcp_handshake (rfl : oneToken = _) hgreets
    (rfl : (Daemon.init oneToken [] [] fun _ => none).ctl = .accept)
    (rfl : smallCfg.peerOk [] = true)
    (by decide : none ∉ ([] : List (Option ℕ))) (by decide : none ∉ ([] : List (Option ℕ)))
    (by decide : none ∉ ([] : List (Option ℕ))) {} {}
    (rfl : (⟨.tcp, some (ascii "no")⟩ : HostConf).kind = .tcp) rfl (by decide) (by decide) rfl
  exact ⟨hagreed.1, by decide⟩

theorem AtHello.hears
    {d : Daemon} (h : AtHello d []) (cfg : Cfg) (o : Answers) :
    AtHello (feed cfg o d (ascii "QUIT" ++ [lf])) [] ∧
      (feed cfg o d (ascii "QUIT" ++ [lf])).chan.sent = d.chan.sent ∧
      AtLogin (feed cfg o d (ascii "HELLO" ++ [lf])) [] ∧
      (feed cfg o d (ascii "HELLO" ++ [lf])).chan.sent =
        d.chan.sent ++ (greeting cfg ++ [lf]) := by
  have hline : ∀ word : Bytes, LineClean word → word.length < lineMax →
      feed cfg o d (word ++ [lf]) =
        if cstr word = ascii "HELLO" then sessionRun cfg o { d with ctl := .hello word }
        else { d with ctl := .hello [] } := by
    intro word hclean hsize
    rw [feed_append, (reader_hello cfg).feed_text o h.ctl hclean (by simpa using hsize)]
    simp only [List.nil_append, feed_cons, feed_nil, rx, lioGetByte_lf]
  have hquit : cstr (ascii "QUIT") ≠ ascii "HELLO" := by decide
  have hhello : cstr (ascii "HELLO") = ascii "HELLO" := by decide
  rw [hline _ (by decide) (by decide), if_neg hquit, hline _ (by decide) (by decide),
    if_pos hhello]
  have hsteady : ({ d with ctl := .hello (ascii "HELLO") } : Daemon).chan.Steady := h.steady
  exact ⟨⟨rfl, h.steady, h.pending⟩, rfl, sessionRun_steady cfg o hsteady⟩

/-- QUIT before AUTH ends the session on a serial line. -/
theorem AtLogin.hearsQuit
    {cfg : Cfg} (hser : cfg.kind = .ser)
    (hascii : sessionText cfg (ascii "QUIT") = ascii "QUIT") {d : Daemon} (h : AtLogin d [])
    (o : Answers) :
    AtHello (feed cfg o d (ascii "QUIT" ++ [lf])) [] ∧
      (feed cfg o d (ascii "QUIT" ++ [lf])).chan.sent =
        d.chan.sent ++ (ascii "OK" ++ [lf]) := by
  have hok := wrote_lioPutLine h.steady (ascii "OK")
  have hcut : cutAt sp (ascii "QUIT") = (ascii "QUIT", none) := by decide
  have hquiet := sessionReturn_quiet cfg o
    (d := { d with
      ctl := .session false [] (ascii "QUIT")
      chan := (lioPutLine d.chan (ascii "OK")).2 }) h.pending
  have hheard : feed cfg o d (ascii "QUIT" ++ [lf]) =
      { d with
        ctl := .hello []
        chan := (lioPutLine d.chan (ascii "OK")).2
        log := d.log ++ [.sessionEnd] } := by
    rw [feed_session_line cfg o h.ctl (by decide) (by decide)]
    unfold sessionLine handleAuth
    simp only [hascii, hcut, if_true, Bool.false_eq_true, if_false]
    rw [hquiet]
    simp [idleCtl, hser]
  rw [hheard]
  exact ⟨⟨rfl, hok.steady, h.pending⟩, hok.sent⟩

/-- A serial client and a daemon that is in its attention wait or greeted
someone who left: behind stale lines that are no greeting, the two ends find
each other and agree as on TCP. -/
theorem serial_handshake
    {cfg₀ cfg : Cfg} {tmpdir u : Bytes} {advAsync liveOk ixOk : Bool}
    (hinit : cfg = sessionInit cfg₀ tmpdir u advAsync liveOk ixOk) (hgreets : cfg₀.Greets)
    (hser : cfg₀.kind = .ser) {d : Daemon} (hd : AtHello d [] ∨ AtLogin d [])
    (hascii : sessionText cfg (ascii "QUIT") = ascii "QUIT")
    {noise : List Bytes} (hnoise : ∀ line ∈ noise, NoiseLine line)
    {wplan rplan : List (Option ℕ)} (hw : none ∉ wplan) (hr : none ∉ rplan) (o : Answers)
    {conf : HostConf} (hkind : conf.kind = .ser) {t : Bytes} (htoken : conf.token = some t)
    (hlf : lf ∉ t) (ht : t.length < confValMax)
    (hplain : sessionText cfg (ascii "AUTH " ++ stripCr t) = ascii "AUTH " ++ stripCr t) :
    Agreed cfg conf t
      (some (wplan, ⟨rplan, noiseText noise ++
        sentSince d (feed cfg o d (hail .ser ++ (authLine t ++ [lf])))⟩))
      (hail .ser ++ (authLine t ++ [lf]))
      (feed cfg o d (hail .ser ++ (authLine t ++ [lf]))) ∧
    cfg.view = ⟨cfg₀.osTag, cfg₀.host, advAsync, ixOk, liveOk⟩ ∧ cfg.token = u.take 255 := by
  have hgreets' : cfg.Greets := by
    rw [hinit]
    exact hgreets.sessionInit tmpdir u advAsync liveOk ixOk
  have hser' : cfg.kind = .ser := by
    rw [hinit]
    exact hser
  -- QUIT is answered only where a session was open.
  obtain ⟨stale, hstale, hhello, hquitSent⟩ : ∃ stale : List Bytes,
      (∀ line ∈ stale, NoiseLine line) ∧ AtHello (feed cfg o d (ascii "QUIT" ++ [lf])) [] ∧
      (feed cfg o d (ascii "QUIT" ++ [lf])).chan.sent = d.chan.sent ++ noiseText stale := by
    rcases hd with hhello | hlogin
    · obtain ⟨hstays, hsame, -, -⟩ := hhello.hears cfg o
      exact ⟨[], by simp, hstays, by rw [hsame]; simp [noiseText]⟩
    · obtain ⟨hleft, hanswer⟩ := hlogin.hearsQuit hser' hascii o
      have hok : NoiseLine (ascii "OK") := ⟨by decide, by decide, by decide⟩
      exact ⟨[ascii "OK"], by simpa using hok, hleft, by rw [hanswer]; rfl⟩
  obtain ⟨-, -, hlogin, hgreetSent⟩ := hhello.hears cfg o
  have hfeed : feed cfg o d (hail .ser ++ (authLine t ++ [lf])) =
      feed cfg o (feed cfg o (feed cfg o d (ascii "QUIT" ++ [lf])) (ascii "HELLO" ++ [lf]))
        (authLine t ++ [lf]) := by
    rw [← feed_append, ← feed_append]
    rfl
  obtain ⟨reply, hjudged⟩ := hlogin.judges o hlf ht hplain
  rw [hfeed]
  have hstream : noiseText noise ++ sentSince d
      (feed cfg o (feed cfg o (feed cfg o d (ascii "QUIT" ++ [lf])) (ascii "HELLO" ++ [lf]))
        (authLine t ++ [lf])) =
      noiseText (noise ++ stale) ++ (greeting cfg ++ lf :: (reply ++ [lf])) := by
    unfold sentSince
    rw [hjudged.sent, hgreetSent, hquitSent]
    simp only [List.append_assoc, List.drop_left]
    simp [noiseText]
  have hall : ∀ line ∈ noise ++ stale, NoiseLine line := by
    intro line hline
    rcases List.mem_append.mp hline with hline | hline
    · exact hnoise line hline
    · exact hstale line hline
  have htcp : conf.kind = .tcp → noise ++ stale = [] := by simp [hkind]
  have hagreed := agreed_of_judged hgreets' htoken hall htcp hw ⟨rplan, _⟩ hr hjudged hstream
  rw [hkind] at hagreed
  refine ⟨hagreed, ?_, ?_⟩
  · rw [hinit]
    rfl
  · rw [hinit]
    rfl

def oneLine : Cfg := sessionInit serialCfg [] (ascii "t") true false false

/-- A reply that an earlier client did not read is in front. -/
theorem serial_handshake_stale :
    Agreed oneLine ⟨.ser, some (ascii "t")⟩ (ascii "t")
      (some ([], ⟨[], noiseText [ascii "ERR 409 busy"] ++
        sentSince (Daemon.init oneLine [] [] fun _ => none)
          (feed oneLine {} (Daemon.init oneLine [] [] fun _ => none)
            (hail .ser ++ (authLine (ascii "t") ++ [lf])))⟩))
      (hail .ser ++ (authLine (ascii "t") ++ [lf]))
      (feed oneLine {} (Daemon.init oneLine [] [] fun _ => none)
        (hail .ser ++ (authLine (ascii "t") ++ [lf]))) ∧
    stripCr (ascii "t") = oneLine.token := by
  have hgreets : serialCfg.Greets := ⟨by decide, by decide, by decide, by decide⟩
  have hnoise : NoiseLine (ascii "ERR 409 busy") := ⟨by decide, by decide, by decide⟩
  have hidle : AtHello (Daemon.init oneLine [] [] fun _ => none) [] :=
    ⟨rfl, by decide, rfl⟩
  have hagreed := serial_handshake (rfl : oneLine = _) hgreets rfl (.inl hidle) rfl
    (by simpa using hnoise : ∀ line ∈ [ascii "ERR 409 busy"], NoiseLine line)
    (by decide : none ∉ ([] : List (Option ℕ))) (by decide : none ∉ ([] : List (Option ℕ)))
    {}
    (rfl : (⟨.ser, some (ascii "t")⟩ : HostConf).kind = .ser) rfl (by decide) (by decide) rfl
  exact ⟨hagreed.1, by decide⟩

end GrandCross
