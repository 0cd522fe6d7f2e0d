import GrandCross.LiveW32
import GrandCross.OutputCap
import GrandCross.RuniStdin

/-!
# What the Windows loop relays

Whatever a pass finds, the frames sent so far and the bytes left in the pipes
are what the child writes, with the notice of the cap between them, and the
child has been given what the client sent before it stopped.
-/

namespace GrandCross

open CText
open Transfer

/-! ## Output -/

/-- The frames of a child's stream whose standard error may hold the notice. -/
def CarriesErr (child : Child) (capped : Bool) (fs : List Frame) (rest : Bytes) : Prop :=
  if capped then
    ∃ before behind, payload .err fs = before ++ capNotice ++ behind ∧
      before ++ behind ++ rest = child.err
  else payload .err fs ++ rest = child.err

/-- The frames since `base` and the bytes left in the pipes make up what the
child writes. -/
structure Relayed (cfg : Cfg) (base : Bytes) (child : Child) (st : W32Live) : Prop where
  steady : st.chan.Steady
  sent : ∃ fs, st.chan.sent = base ++ encodeFrames fs ∧
    payload .out fs ++ st.out.getD [] = child.out ∧
    CarriesErr child st.capped fs (st.err.getD [])
  total : st.total + (st.out.getD []).length + (st.err.getD []).length =
    child.out.length + child.err.length
  exceeded : st.capped = true → 0 < cfg.maxout ∧ cfg.maxout < st.total
  kills : st.kills = st.killed.toNat + st.capped.toNat

/-- The parts of the state that the pipes have nothing to do with. -/
structure W32Live.SameInput (st st' : W32Live) : Prop where
  src : st'.src = st.src
  hin : st'.hin = st.hin
  killed : st'.killed = st.killed
  fed : st'.fed = st.fed

theorem W32Live.SameInput.trans
    {st st' st'' : W32Live} (h : st.SameInput st') (h' : st'.SameInput st'') :
    st.SameInput st'' :=
  ⟨h'.src.trans h.src, h'.hin.trans h.hin, h'.killed.trans h.killed, h'.fed.trans h.fed⟩

theorem sameInput_afterRead
    (st : W32Live) (s : Stream) (pipe : Option Bytes) (hold : Bytes) (n : ℕ) :
    st.SameInput (st.afterRead s pipe hold n) := by
  cases s <;> exact ⟨rfl, rfl, rfl, rfl⟩

theorem sameInput_pumpW32 (cfg : Cfg) (st : W32Live) (s : Stream) (seen : Option ℕ) :
    st.SameInput (pumpW32 cfg st s seen).2 := by
  have hframe : ∀ (st' : W32Live) (c : Chan), st.SameInput st' →
      st.SameInput { st' with chan := c } :=
    fun st' c h => ⟨h.src, h.hin, h.killed, h.fed⟩
  unfold pumpW32
  cases st.pipe s with
  | none => exact ⟨rfl, rfl, rfl, rfl⟩
  | some rest =>
      dsimp only
      cases peekNamedPipe rest seen with
      | none => exact sameInput_afterRead ..
      | some avail =>
          dsimp only
          split_ifs with hzero
          · exact ⟨rfl, rfl, rfl, rfl⟩
          · cases convertOut cfg (st.hold s) (rest.take (min avail (chanChunk st.chan))) with
            | none => exact sameInput_afterRead ..
            | some r =>
                dsimp only
                split_ifs
                · exact sameInput_afterRead ..
                · exact hframe _ _ (sameInput_afterRead ..)

theorem sameInput_capW32 (cfg : Cfg) (mode : LiveMode) (st : W32Live) (p : W32Pass) :
    st.SameInput (capW32 cfg mode st p) := by
  unfold capW32
  split_ifs <;> exact ⟨rfl, rfl, rfl, rfl⟩

section

variable {cfg : Cfg} {base : Bytes} {child : Child} {st : W32Live}

/-- A piece of a stream behind the frames so far. -/
theorem Relayed.read
    (h : Relayed cfg base child st) {s : Stream} {rest data : Bytes}
    (hpipe : st.pipe s = some rest) (hdata : data <+: rest) (hpos : data ≠ [])
    (hfits : data.length ≤ cfg.build.frameMax) (hold : Bytes) :
    (lioPutFrame cfg.build.frameMax st.chan s.tag data).1 = true ∧
      Relayed cfg base child
        { st.afterRead s (some (rest.drop data.length)) hold data.length with
          chan := (lioPutFrame cfg.build.frameMax st.chan s.tag data).2 } := by
  obtain ⟨fs, hsent, hout, herr⟩ := h.sent
  have hlen := List.length_pos_of_ne_nil hpos
  have hframe := wrote_lioPutFrame h.steady s.tag hlen hfits
  have hsplit : data ++ rest.drop data.length = rest := by
    obtain ⟨tail, rfl⟩ := hdata
    rw [List.drop_left]
  have hsum := congrArg List.length hsplit
  rw [List.length_append] at hsum
  let f : Frame := ⟨s, data, hlen, hfits.trans cfg.build.frameMax_le⟩
  have hnext : (lioPutFrame cfg.build.frameMax st.chan s.tag data).2.sent =
      base ++ encodeFrames (fs ++ [f]) := by
    rw [hframe.sent, hsent]
    simp [f, Frame.encode]
  have htotal := h.total
  have hkills := h.kills
  refine ⟨hframe.ok, ?_⟩
  cases s with
  | out =>
      have hrest : st.out = some rest := hpipe
      have hpayload : payload .out (fs ++ [f]) = payload .out fs ++ data := by
        simp [payload_cons, f]
      have hother : payload .err (fs ++ [f]) = payload .err fs := by
        simp [payload_cons, f]
      rw [hrest, Option.getD_some] at hout htotal
      refine ⟨hframe.steady, ⟨fs ++ [f], hnext, ?_, ?_⟩, ?_, ?_, hkills⟩
      · rw [hpayload]
        simp only [W32Live.afterRead, Option.getD_some, List.append_assoc, hsplit, hout]
      · unfold CarriesErr at herr ⊢
        rw [hother]
        exact herr
      · simp only [W32Live.afterRead, Option.getD_some]
        omega
      · intro hcapped
        have hexceeded := h.exceeded hcapped
        simp only [W32Live.afterRead]
        omega
  | err =>
      have hrest : st.err = some rest := hpipe
      have hpayload : payload .err (fs ++ [f]) = payload .err fs ++ data := by
        simp [payload_cons, f]
      have hother : payload .out (fs ++ [f]) = payload .out fs := by
        simp [payload_cons, f]
      rw [hrest, Option.getD_some] at herr htotal
      refine ⟨hframe.steady, ⟨fs ++ [f], hnext, ?_, ?_⟩, ?_, ?_, hkills⟩
      · rw [hother]
        exact hout
      · simp only [W32Live.afterRead, Option.getD_some]
        unfold CarriesErr at herr ⊢
        rw [hpayload]
        split_ifs at herr ⊢ with hcapped
        · obtain ⟨before, behind, hnotice, hwhole⟩ := herr
          refine ⟨before, behind ++ data, by rw [hnotice, List.append_assoc], ?_⟩
          rw [← hwhole]
          conv_rhs => rw [← hsplit]
          simp only [List.append_assoc]
        · rw [List.append_assoc, hsplit, herr]
      · simp only [W32Live.afterRead, Option.getD_some]
        omega
      · intro hcapped
        have hexceeded := h.exceeded hcapped
        simp only [W32Live.afterRead]
        omega

/-- The end of a stream. -/
theorem Relayed.closed
    (h : Relayed cfg base child st) {s : Stream} (hpipe : st.pipe s = some []) (hold : Bytes) :
    Relayed cfg base child (st.afterRead s none hold 0) := by
  obtain ⟨fs, hsent, hout, herr⟩ := h.sent
  have htotal := h.total
  cases s with
  | out =>
      have hrest : st.out = some [] := hpipe
      rw [hrest] at hout htotal
      exact ⟨h.steady, ⟨fs, hsent, hout, herr⟩, htotal, h.exceeded, h.kills⟩
  | err =>
      have hrest : st.err = some [] := hpipe
      rw [hrest] at herr htotal
      exact ⟨h.steady, ⟨fs, hsent, hout, herr⟩, htotal, h.exceeded, h.kills⟩

theorem pumpW32_relayed
    (hcv : cfg.cv = none) (h : Relayed cfg base child st) (s : Stream) (seen : Option ℕ) :
    (pumpW32 cfg st s seen).1 = true ∧ Relayed cfg base child (pumpW32 cfg st s seen).2 := by
  unfold pumpW32
  cases hpipe : st.pipe s with
  | none => exact ⟨rfl, h⟩
  | some rest =>
      dsimp only
      cases seen with
      | none => exact ⟨rfl, h⟩
      | some k =>
          by_cases hend : rest = []
          · subst hend
            exact ⟨rfl, h.closed hpipe _⟩
          · have hrest := List.length_pos_of_ne_nil hend
            have hchunk := st.chan.kind.chunk_le cfg
            have hsize : 1 ≤ min (min (k + 1) rest.length) (chanChunk st.chan) := by
              unfold chanChunk
              omega
            have havail : min (k + 1) rest.length ≠ 0 := by omega
            have hpeek : peekNamedPipe rest (some k) = some (min (k + 1) rest.length) :=
              if_neg hend
            rw [hpeek]
            dsimp only
            rw [if_neg havail]
            set data := rest.take (min (min (k + 1) rest.length) (chanChunk st.chan)) with hdata
            have hlen : data.length = min (min (k + 1) rest.length) (chanChunk st.chan) := by
              rw [hdata, List.length_take]
              omega
            have hpos : data ≠ [] := List.length_pos_iff.mp (by omega)
            have hfits : data.length ≤ cfg.build.frameMax := by
              unfold chanChunk at hlen
              omega
            have hread := h.read hpipe (List.take_prefix _ _) hpos hfits (st.hold s)
            simp only [convertOut, hcv]
            rw [if_neg hpos]
            exact hread

/-- The cap has been noticed. -/
def Settled (cfg : Cfg) (st : W32Live) : Prop :=
  0 < cfg.maxout → cfg.maxout < st.total → st.capped = true

theorem capW32_relayed
    (h : Relayed cfg base child st) {mode : LiveMode} (hmode : mode ≠ .job) (p : W32Pass) :
    Relayed cfg base child (capW32 cfg mode st p) ∧ Settled cfg (capW32 cfg mode st p) := by
  unfold capW32
  rw [if_neg hmode]
  by_cases hcap : 0 < cfg.maxout ∧ st.capped = false ∧ cfg.maxout < st.total
  · obtain ⟨fs, hsent, hout, herr⟩ := h.sent
    have hkills := h.kills
    have hnotice := wrote_lioPutFrame h.steady Stream.err.tag (capNotice_fits cfg).1
      (capNotice_fits cfg).2
    have hfront : payload .out (fs ++ [noticeFrame]) = payload .out fs := by
      simp [payload_cons, noticeFrame]
    have hcarries : CarriesErr child true (fs ++ [noticeFrame]) (st.err.getD []) := by
      unfold CarriesErr at herr ⊢
      rw [if_neg (by simp [hcap.2.1])] at herr
      rw [if_pos rfl]
      refine ⟨payload .err fs, [], by simp [payload_cons, noticeFrame], ?_⟩
      rw [List.append_nil]
      exact herr
    rw [if_pos hcap, if_neg hmode]
    refine ⟨⟨hnotice.steady, ⟨fs ++ [noticeFrame], ?_, ?_, ?_⟩, h.total, ?_, ?_⟩, ?_⟩
    · simp only [W32Live.killJob]
      rw [hnotice.sent, hsent]
      simp [noticeFrame, Frame.encode]
    · rw [hfront]
      exact hout
    · exact hcarries
    · exact fun _ => ⟨hcap.1, hcap.2.2⟩
    · simp only [W32Live.killJob, hkills, hcap.2.1, Bool.toNat_false, Bool.toNat_true]
    · exact fun _ _ => rfl
  · rw [if_neg hcap]
    refine ⟨h, fun hpos hlt => ?_⟩
    cases hcapped : st.capped with
    | true => rfl
    | false => exact absurd ⟨hpos, hcapped, hlt⟩ hcap

/-! ## Input -/

/-- What `runi_frame` makes of a whole frame. -/
def W32Live.afterFrame (st : W32Live) : ClientFrame → W32Live
  | .kill => if st.killed then st else { st.killJob with killed := true }
  | .input data => if data = [] then { st with hin := none } else st.writeFile data

/-- A well-formed frame at the front of the session channel is taken whole. -/
theorem sessW32_frame
    {p : W32Pass} (hsess : p.sess = true) (hsrc : st.src.Steady) {f : ClientFrame}
    (hf : f.Ok cfg) {later : Bytes} (hpending : st.src.pending = f.encode ++ later) :
    ∃ src : Source, src.Steady ∧ src.pending = later ∧
      sessW32 cfg .runi st p = (false, W32Live.afterFrame { st with src := src } f) := by
  have hsplit : st.src.pending = f.head ++ lf :: (f.body ++ later) := by
    rw [hpending, f.encode_eq]
    simp
  obtain ⟨src₁, hsrc₁, hpending₁, hget⟩ :=
    lioGetLine_clean lineMax hsrc hsplit f.head_clean hf.head_length
  unfold sessW32
  rw [if_pos hsess]
  dsimp only
  rw [hget]
  dsimp only
  cases f with
  | kill =>
      have hline : cstr ClientFrame.kill.head = [75] := by decide
      rw [hline]
      exact ⟨src₁, hsrc₁, hpending₁, rfl⟩
  | input data =>
      have hlen : data.length ≤ cfg.build.frameMax := hf
      have hwire : data.length ≤ wireFrameMax := hlen.trans cfg.build.frameMax_le
      have hatol : atol (decimal data.length) = data.length :=
        atol_decimal (hwire.trans (by decide))
      have hfits : ¬ ((data.length : ℤ) < 0 ∨ (cfg.build.frameMax : ℤ) < (data.length : ℤ)) := by
        omega
      have hline : cstr (ClientFrame.input data).head = 73 :: 32 :: decimal data.length :=
        cstr_hdrText (by decide) data.length
      rw [hline]
      simp only [runiFrameW32, hatol, if_neg hfits]
      by_cases hempty : data = []
      · subst hempty
        exact ⟨src₁, hsrc₁, hpending₁, rfl⟩
      · have hpos := List.length_pos_of_ne_nil hempty
        have hbody : src₁.pending = data ++ later := hpending₁
        have hroom : data.length ≤ src₁.pending.length := by
          rw [hbody, List.length_append]
          omega
        obtain ⟨src₂, hsrc₂, hpending₂, hread⟩ := Source.readN_steady hsrc₁ hroom
        refine ⟨src₂, hsrc₂, by rw [hpending₂, hbody, List.drop_left], ?_⟩
        rw [if_neg (by omega), Int.toNat_natCast, hread, hbody, List.take_left]
        simp only [W32Live.afterFrame, if_neg hempty]

theorem Relayed.afterFrame
    (h : Relayed cfg base child st) (src : Source) (f : ClientFrame) :
    Relayed cfg base child (W32Live.afterFrame { st with src := src } f) := by
  have hkills := h.kills
  cases f with
  | kill =>
      simp only [W32Live.afterFrame]
      split_ifs with hkilled
      · exact ⟨h.steady, h.sent, h.total, h.exceeded, h.kills⟩
      · refine ⟨h.steady, h.sent, h.total, h.exceeded, ?_⟩
        rw [Bool.not_eq_true] at hkilled
        simp only [W32Live.killJob, hkills, hkilled, Bool.toNat_false, Bool.toNat_true]
        omega
  | input data =>
      simp only [W32Live.afterFrame]
      split_ifs
      · exact ⟨h.steady, h.sent, h.total, h.exceeded, h.kills⟩
      · unfold W32Live.writeFile
        split
        · exact ⟨h.steady, h.sent, h.total, h.exceeded, h.kills⟩
        · split_ifs <;> exact ⟨h.steady, h.sent, h.total, h.exceeded, h.kills⟩

end

/-- The writes in front of the first one that fails. -/
def okWrites : List Bool → List Bytes → List Bytes
  | _, [] => []
  | plan, buf :: bufs => if plan.headD true then buf :: okWrites plan.tail bufs else []

/-- The payloads that reach the child: those in front of the first I 0 or K, up
to a write that fails. -/
def stdinOf (tap : Option (List Bool)) (frames : List ClientFrame) : Bytes :=
  match tap with
  | none => []
  | some plan => (okWrites plan ((frames.takeWhile (! ·.stops)).map ClientFrame.body)).flatten

/-- What the next payload goes to. -/
def W32Live.tap (st : W32Live) : Option (List Bool) := if st.killed then none else st.hin

theorem stdinOf_stop
    (tap : Option (List Bool)) {f : ClientFrame} (hstop : f.stops = true)
    (frames : List ClientFrame) : stdinOf tap (f :: frames) = [] := by
  cases tap with
  | none => rfl
  | some plan => simp [stdinOf, hstop, okWrites]

theorem stdinOf_input
    (plan : List Bool) {f : ClientFrame} (hgoes : f.stops = false) (frames : List ClientFrame) :
    stdinOf (some plan) (f :: frames) =
      if plan.headD true then f.body ++ stdinOf (some plan.tail) frames else [] := by
  have hfirst : (f :: frames).takeWhile (! ·.stops) = f :: frames.takeWhile (! ·.stops) := by
    simp [hgoes]
  simp only [stdinOf, hfirst, List.map_cons, okWrites]
  split_ifs <;> rfl

/-- One frame, then the rest of them. -/
theorem afterFrame_fed (st : W32Live) (f : ClientFrame) (frames : List ClientFrame) :
    (st.afterFrame f).fed ++ stdinOf (st.afterFrame f).tap frames =
      st.fed ++ stdinOf st.tap (f :: frames) := by
  cases f with
  | kill =>
      rw [stdinOf_stop st.tap rfl]
      simp only [W32Live.afterFrame]
      split_ifs with hkilled
      · simp [W32Live.tap, hkilled, stdinOf]
      · simp [W32Live.tap, W32Live.killJob, stdinOf]
  | input data =>
      simp only [W32Live.afterFrame]
      split_ifs with hempty
      · have hstop : (ClientFrame.input data).stops = true := by simp [ClientFrame.stops, hempty]
        rw [stdinOf_stop st.tap hstop]
        simp [W32Live.tap, stdinOf]
      · have hgoes : (ClientFrame.input data).stops = false := by
          simp [ClientFrame.stops, hempty]
        cases hhin : st.hin with
        | none =>
            have hsame : st.writeFile data = st := by simp [W32Live.writeFile, hhin]
            have htap : st.tap = none := by simp [W32Live.tap, hhin]
            rw [hsame, htap]
            rfl
        | some plan =>
            by_cases hkilled : st.killed = true
            · have hsame : st.writeFile data = st := by simp [W32Live.writeFile, hhin, hkilled]
              have htap : st.tap = none := by simp [W32Live.tap, hkilled]
              rw [hsame, htap]
              rfl
            · have htap : st.tap = some plan := by simp [W32Live.tap, hhin, hkilled]
              rw [htap, stdinOf_input plan hgoes]
              unfold W32Live.writeFile
              rw [hhin]
              dsimp only
              rw [if_neg hkilled]
              by_cases htakes : plan.headD true = true
              · rw [if_pos htakes, if_pos htakes, W32Live.tap]
                dsimp only
                rw [if_neg hkilled, List.append_assoc]
                rfl
              · rw [if_neg htakes, if_neg htakes, W32Live.tap]
                dsimp only
                rw [ite_self]
                rfl

theorem afterFrame_src (st : W32Live) (f : ClientFrame) : (st.afterFrame f).src = st.src := by
  cases f with
  | kill =>
      simp only [W32Live.afterFrame]
      split_ifs <;> rfl
  | input data =>
      simp only [W32Live.afterFrame]
      split_ifs
      · rfl
      · unfold W32Live.writeFile
        split
        · rfl
        · split_ifs <;> rfl

theorem afterFrame_killed (st : W32Live) (f : ClientFrame) :
    (st.afterFrame f).killed = (st.killed || [f].contains .kill) := by
  cases f with
  | kill =>
      simp only [W32Live.afterFrame]
      split_ifs with hkilled <;> simp [hkilled]
  | input data =>
      have hother : [ClientFrame.input data].contains .kill = false := by simp
      rw [hother, Bool.or_false]
      simp only [W32Live.afterFrame]
      split_ifs
      · rfl
      · unfold W32Live.writeFile
        split
        · rfl
        · split_ifs <;> rfl

/-! ## Passes -/

section

variable {cfg : Cfg} {base : Bytes} {child : Child} {st : W32Live} {mode : LiveMode}

/-- Behind its input a pass only relays output. -/
theorem w32Pass_relayed
    (hcv : cfg.cv = none) (hmode : mode ≠ .job) {p : W32Pass} {st₁ : W32Live}
    (hinput : sessW32 cfg mode st p = (false, st₁)) (h : Relayed cfg base child st₁) :
    ∃ st₂, w32Pass cfg mode st p = (false, st₂) ∧ Relayed cfg base child st₂ ∧
      Settled cfg st₂ ∧ st₁.SameInput st₂ := by
  obtain ⟨hok, hout⟩ := pumpW32_relayed hcv h .out p.out
  obtain ⟨hok', herr⟩ := pumpW32_relayed hcv hout .err p.err
  obtain ⟨hcap, hsettled⟩ := capW32_relayed herr hmode p
  refine ⟨_, ?_, hcap, hsettled, ((sameInput_pumpW32 cfg st₁ .out p.out).trans
    (sameInput_pumpW32 cfg _ .err p.err)).trans (sameInput_capW32 cfg mode _ p)⟩
  unfold w32Pass
  simp only [hinput, hok, hok', Bool.not_true, Bool.or_false]

/-- The input of a pass: nothing, or the next frame of the client. -/
structure PassInput (cfg : Cfg) (base : Bytes) (child : Child) (mode : LiveMode)
    (st : W32Live) (p : W32Pass) (later : Bytes) (first others : List ClientFrame)
    (st₁ : W32Live) : Prop where
  input : sessW32 cfg mode st p = (false, st₁)
  relayed : Relayed cfg base child st₁
  steady : st₁.src.Steady
  pending : st₁.src.pending = others.flatMap ClientFrame.encode ++ later
  fed : ∀ taken, st₁.fed ++ stdinOf st₁.tap taken = st.fed ++ stdinOf st.tap (first ++ taken)
  killed : st₁.killed = (st.killed || first.contains .kill)
  count : first.length = p.sess.toNat

theorem passInput
    (hmode : mode ≠ .job) {frames : List ClientFrame} {later : Bytes}
    (h : Relayed cfg base child st) (hsrc : st.src.Steady)
    (hpending : st.src.pending = frames.flatMap ClientFrame.encode ++ later)
    (hok : ∀ f ∈ frames, f.Ok cfg) {p : W32Pass} (hroom : p.sess = true → frames ≠ [])
    (hrun : mode = .run → p.sess = false) :
    ∃ first others st₁, frames = first ++ others ∧
      PassInput cfg base child mode st p later first others st₁ := by
  cases hsess : p.sess with
  | false =>
      have hquiet : sessW32 cfg mode st p = (false, st) := by
        unfold sessW32
        rw [if_neg (by simp [hsess])]
      exact ⟨[], frames, st, rfl, hquiet, h, hsrc, hpending, fun _ => rfl, by simp,
        by simp [hsess]⟩
  | true =>
      cases mode with
      | job => exact absurd rfl hmode
      | run =>
          have hquiet := hrun rfl
          rw [hsess] at hquiet
          exact absurd hquiet (by decide)
      | runi =>
          obtain ⟨f, others, rfl⟩ := List.exists_cons_of_ne_nil (hroom hsess)
          obtain ⟨hf, -⟩ := List.forall_mem_cons.mp hok
          have hfront : st.src.pending =
              f.encode ++ (others.flatMap ClientFrame.encode ++ later) := by
            rw [hpending, List.flatMap_cons, List.append_assoc]
          obtain ⟨src, hsrc', hpending', htaken⟩ := sessW32_frame hsess hsrc hf hfront
          have hsame := afterFrame_src { st with src := src } f
          refine ⟨[f], others, _, rfl, htaken, h.afterFrame src f, ?_, ?_,
            fun taken => afterFrame_fed { st with src := src } f taken,
            afterFrame_killed { st with src := src } f, by simp [hsess]⟩
          · rw [hsame]
            exact hsrc'
          · rw [hsame]
            exact hpending'

/-- How many frames the passes read. -/
def framesRead (ps : List W32Pass) : ℕ := ps.countP (·.sess)

theorem framesRead_cons (p : W32Pass) (ps : List W32Pass) :
    framesRead (p :: ps) = p.sess.toNat + framesRead ps := by
  unfold framesRead
  rw [List.countP_cons]
  cases p.sess <;> simp [Nat.add_comm]

/-- How far the loop came: it read `taken` of the client's frames and relayed
all that they and the child's output ask for. -/
structure Followed (cfg : Cfg) (base : Bytes) (child : Child) (st : W32Live)
    (taken left : List ClientFrame) (later : Bytes) (st' : W32Live) : Prop where
  relayed : Relayed cfg base child st'
  settled : Settled cfg st'
  pending : st'.src.pending = left.flatMap ClientFrame.encode ++ later
  fed : st'.fed = st.fed ++ stdinOf st.tap taken
  killed : st'.killed = (st.killed || taken.contains .kill)

@[simp] theorem stdinOf_nil (tap : Option (List Bool)) : stdinOf tap [] = [] := by
  cases tap <;> simp [stdinOf, okWrites]

/-- The loop follows a client that sends whole frames, or nothing during RUN,
and is never lost. -/
theorem w32Exec_follows
    (hcv : cfg.cv = none) (hmode : mode ≠ .job) {frames : List ClientFrame} {later : Bytes}
    (h : Relayed cfg base child st) (hsettled : Settled cfg st) (hsrc : st.src.Steady)
    (hpending : st.src.pending = frames.flatMap ClientFrame.encode ++ later)
    (hok : ∀ f ∈ frames, f.Ok cfg) {ps : List W32Pass}
    (hcount : framesRead ps ≤ frames.length)
    (hrun : mode = .run → ∀ p ∈ ps, p.sess = false) :
    ∃ st' taken left, frames = taken ++ left ∧ Followed cfg base child st taken left later st' ∧
      ((w32Exec cfg mode st ps = .watching st' ∧ taken.length = framesRead ps) ∨
        (w32Exec cfg mode st ps = .ended st' ∧ st'.out = none ∧ st'.err = none)) := by
  induction ps generalizing st frames with
  | nil =>
      exact ⟨st, [], frames, rfl, ⟨h, hsettled, hpending, by simp, by simp⟩, .inl ⟨rfl, rfl⟩⟩
  | cons p ps ih =>
      rw [framesRead_cons] at hcount
      have hroom : p.sess = true → frames ≠ [] := by
        intro hsess
        rw [hsess, Bool.toNat_true] at hcount
        exact List.length_pos_iff.mp (by omega)
      obtain ⟨first, others, st₁, hframes, hinput⟩ := passInput hmode h hsrc hpending hok hroom
        fun hm => hrun hm p List.mem_cons_self
      obtain ⟨st₂, hpass, hrelayed, hsettled₂, hsame⟩ :=
        w32Pass_relayed hcv hmode hinput.input hinput.relayed
      have htap : st₂.tap = st₁.tap := by
        unfold W32Live.tap
        rw [hsame.killed, hsame.hin]
      have hpending₂ : st₂.src.pending = others.flatMap ClientFrame.encode ++ later := by
        rw [hsame.src, hinput.pending]
      by_cases hend : st₂.out = none ∧ st₂.err = none ∧ p.exited = true
      · have hall := hinput.fed []
        rw [stdinOf_nil, List.append_nil, List.append_nil] at hall
        refine ⟨st₂, first, others, hframes, ⟨hrelayed, hsettled₂, hpending₂, ?_, ?_⟩,
          .inr ⟨?_, hend.1, hend.2.1⟩⟩
        · rw [hsame.fed, hall]
        · rw [hsame.killed, hinput.killed]
        · simp only [w32Exec, hpass, Bool.false_eq_true, if_false]
          rw [if_pos hend]
      · have hsrc₂ : st₂.src.Steady := by
          rw [hsame.src]
          exact hinput.steady
        have hok₂ : ∀ f ∈ others, f.Ok cfg := fun f hf => hok f (by simp [hframes, hf])
        have hcount₂ : framesRead ps ≤ others.length := by
          have hfirst := hinput.count
          rw [hframes, List.length_append] at hcount
          omega
        obtain ⟨st', taken, left, hothers, hfollowed, hout⟩ :=
          ih hrelayed hsettled₂ hsrc₂ hpending₂ hok₂ hcount₂ fun hm q hq =>
            hrun hm q (List.mem_cons_of_mem p hq)
        refine ⟨st', first ++ taken, left, by rw [hframes, hothers, List.append_assoc],
          ⟨hfollowed.relayed, hfollowed.settled, hfollowed.pending, ?_, ?_⟩, ?_⟩
        · rw [hfollowed.fed, hsame.fed, htap, hinput.fed taken]
        · rw [hfollowed.killed, hsame.killed, hinput.killed, List.contains_append, Bool.or_assoc]
        · simp only [w32Exec, hpass, Bool.false_eq_true, if_false]
          rw [if_neg hend, List.length_append, framesRead_cons, hinput.count]
          rcases hout with ⟨hwatching, hlen⟩ | hended
          · exact .inl ⟨hwatching, by rw [hlen]⟩
          · exact .inr hended

/-! ## The end of the loop -/

theorem capW32_pipe (p : W32Pass) (s : Stream) :
    (capW32 cfg mode st p).pipe s = st.pipe s := by
  unfold capW32
  split_ifs <;> cases s <;> rfl

theorem sessW32_pipe (p : W32Pass) (s : Stream) :
    (sessW32 cfg mode st p).2.pipe s = st.pipe s := by
  have hframe : ∀ (st' st'' : W32Live) (line : Bytes), runiFrameW32 cfg st' line = some st'' →
      st''.pipe s = st'.pipe s := by
    intro st' st'' line hline
    unfold runiFrameW32 at hline
    split at hline
    · obtain rfl := Option.some.inj hline
      split_ifs <;> cases s <;> rfl
    · dsimp only at hline
      split_ifs at hline
      · obtain rfl := Option.some.inj hline
        cases s <;> rfl
      · split at hline
        · simp at hline
        · obtain rfl := Option.some.inj hline
          unfold W32Live.writeFile
          split
          · cases s <;> rfl
          · split_ifs <;> cases s <;> rfl
    · simp at hline
  unfold sessW32
  split_ifs
  · cases mode with
    | job => rfl
    | run => rfl
    | runi =>
        dsimp only
        split
        · split
          · rename_i st' hline
            rw [hframe _ _ _ hline]
            cases s <;> rfl
          · cases s <;> rfl
        · cases s <;> rfl
  · rfl

/-- A pass that finds something in a pipe gets it closer to its end. -/
theorem pumpW32_left (cfg : Cfg) (st : W32Live) (s : Stream) (seen : Option ℕ) :
    pipeLeft ((pumpW32 cfg st s seen).2.pipe s) ≤
      pipeLeft (st.pipe s) - (if seen.isSome then 1 else 0) ∧
    ∀ t ≠ s, (pumpW32 cfg st s seen).2.pipe t = st.pipe t := by
  have hframe : ∀ (st' : W32Live) (c : Chan) (t : Stream),
      ({ st' with chan := c } : W32Live).pipe t = st'.pipe t := by
    intro st' c t
    cases t <;> rfl
  unfold pumpW32
  cases hpipe : st.pipe s with
  | none => simp [hpipe, pipeLeft]
  | some rest =>
      dsimp only
      cases seen with
      | none => simp [peekNamedPipe, hpipe]
      | some k =>
          have hone : (if (some k).isSome = true then 1 else 0) = 1 := rfl
          rw [hone]
          by_cases hend : rest = []
          · have hpeek : peekNamedPipe rest (some k) = none := if_pos hend
            rw [hpeek]
            refine ⟨by simp [pipeLeft], fun t ht => by simp [ht]⟩
          · have hrest := List.length_pos_of_ne_nil hend
            have hchunk := st.chan.kind.chunk_le cfg
            have hpeek : peekNamedPipe rest (some k) = some (min (k + 1) rest.length) :=
              if_neg hend
            have havail : min (k + 1) rest.length ≠ 0 := by omega
            rw [hpeek]
            dsimp only
            rw [if_neg havail]
            generalize hdata : rest.take (min (min (k + 1) rest.length) (chanChunk st.chan)) =
              data
            have hlen : 1 ≤ data.length := by
              rw [← hdata, List.length_take]
              unfold chanChunk
              omega
            have hless : ∀ hold, pipeLeft ((st.afterRead s (some (rest.drop data.length)) hold
                data.length).pipe s) ≤ pipeLeft (some rest) - 1 := by
              intro hold
              rw [W32Live.afterRead_pipe, if_pos rfl]
              simp only [pipeLeft, List.length_drop]
              omega
            have hother : ∀ hold, ∀ t ≠ s, (st.afterRead s (some (rest.drop data.length)) hold
                data.length).pipe t = st.pipe t := by
              intro hold t ht
              rw [W32Live.afterRead_pipe, if_neg ht]
            cases convertOut cfg (st.hold s) data with
            | none => exact ⟨hless _, hother _⟩
            | some r =>
                dsimp only
                split_ifs
                · exact ⟨hless _, hother _⟩
                · dsimp only
                  simp only [hframe]
                  exact ⟨hless _, hother _⟩

theorem w32Pass_left
    (cfg : Cfg) (mode : LiveMode) (st : W32Live) {p : W32Pass}
    (hready : p.out.isSome = true ∧ p.err.isSome = true) (s : Stream) :
    pipeLeft ((w32Pass cfg mode st p).2.pipe s) ≤ pipeLeft (st.pipe s) - 1 := by
  obtain ⟨hout, hkeepErr⟩ := pumpW32_left cfg (sessW32 cfg mode st p).2 .out p.out
  obtain ⟨herr, hkeepOut⟩ :=
    pumpW32_left cfg (pumpW32 cfg (sessW32 cfg mode st p).2 .out p.out).2 .err p.err
  rw [hready.1, if_pos rfl, sessW32_pipe] at hout
  rw [hready.2, if_pos rfl, hkeepErr .err (by decide), sessW32_pipe] at herr
  unfold w32Pass
  dsimp only
  rw [capW32_pipe]
  cases s with
  | out =>
      rw [hkeepOut .out (by decide)]
      exact hout
  | err => exact herr

/-- Passes that find the process ended and both pipes readable drain them. -/
theorem w32Exec_ends
    {ps : List W32Pass} (hne : ps ≠ [])
    (hready : ∀ p ∈ ps, (p.out.isSome = true ∧ p.err.isSome = true) ∧ p.exited = true)
    (hlong : ∀ s, pipeLeft (st.pipe s) ≤ ps.length) (st' : W32Live) :
    w32Exec cfg mode st ps ≠ .watching st' := by
  induction ps generalizing st with
  | nil => exact absurd rfl hne
  | cons p ps ih =>
      obtain ⟨⟨hpipes, hexited⟩, hrest⟩ := List.forall_mem_cons.mp hready
      have hleft := fun s => w32Pass_left cfg mode st hpipes s
      have hless : ∀ s, pipeLeft ((w32Pass cfg mode st p).2.pipe s) ≤ ps.length := by
        intro s
        have hs := hleft s
        have hlen := hlong s
        rw [List.length_cons] at hlen
        omega
      unfold w32Exec
      dsimp only
      split_ifs with hlost hend
      · simp
      · simp
      · refine ih ?_ hrest hless
        rintro rfl
        have hdone : ∀ s, (w32Pass cfg mode st p).2.pipe s = none := by
          intro s
          have hs := hless s
          rw [List.length_nil, Nat.le_zero] at hs
          exact pipeLeft_eq_zero.mp hs
        exact hend ⟨hdone .out, hdone .err, hexited⟩

end

/-- What is on the wire when the loop ended by itself: all of both streams, with
the notice in the second one exactly when both together exceed the cap. -/
def WholeW32 (cfg : Cfg) (base : Bytes) (child : Child) (sent : Bytes) : Prop :=
  ∃ fs, sent = base ++ encodeFrames fs ∧ payload .out fs = child.out ∧
    CarriesErr child (decide (0 < cfg.maxout ∧
      cfg.maxout < child.out.length + child.err.length)) fs []

/-- `live_exec` on Windows, for a RUN client that stays silent and a RUNI client
that sends whole frames: it returns the exit code cut to 255 with everything the
child wrote sent, the child is given what the frames that were read ask for, and
it is killed once for a K and once for the cap.  When the child has ended and
both pipes are readable in every pass, the loop returns. -/
theorem w32_live_exact
    {cfg : Cfg} (hcv : cfg.cv = none) {mode : LiveMode} (hmode : mode ≠ .job) {c : Chan}
    (hc : c.Steady) {src : Source} (hsrc : src.Steady) {frames : List ClientFrame}
    {later : Bytes} (hpending : src.pending = frames.flatMap ClientFrame.encode ++ later)
    (hok : ∀ f ∈ frames, f.Ok cfg) {ps : List W32Pass}
    (hcount : framesRead ps ≤ frames.length)
    (hrun : mode = .run → ∀ p ∈ ps, p.sess = false) (child : Child)
    (hin : Option (List Bool)) (code : ℕ) :
    ∃ st taken left, frames = taken ++ left ∧
      st.src.pending = left.flatMap ClientFrame.encode ++ later ∧
      st.fed = stdinOf hin taken ∧
      st.kills = (taken.contains .kill).toNat + st.capped.toNat ∧
      ((w32Exec cfg mode (.start mode c src child hin) ps = .watching st ∧
          taken.length = framesRead ps) ∨
        (w32Return cfg mode code (w32Exec cfg mode (.start mode c src child hin) ps) =
          some (((min code 255 : ℕ) : ℤ), st) ∧ WholeW32 cfg c.sent child st.chan.sent)) ∧
      (ps ≠ [] → (∀ p ∈ ps, (p.out.isSome = true ∧ p.err.isSome = true) ∧ p.exited = true) →
        child.out.length + 1 ≤ ps.length → child.err.length + 1 ≤ ps.length →
        w32Exec cfg mode (.start mode c src child hin) ps ≠ .watching st) := by
  have hstart : Relayed cfg c.sent child (.start mode c src child hin) := by
    refine ⟨hc, ⟨[], by simp [W32Live.start], ?_, ?_⟩, ?_, ?_, rfl⟩
    · simp [W32Live.start, hmode]
    · simp [W32Live.start, hmode, CarriesErr]
    · simp [W32Live.start, hmode]
    · simp [W32Live.start]
  have hfresh : Settled cfg (.start mode c src child hin) := by
    intro _ hlt
    simp [W32Live.start] at hlt
  obtain ⟨st, taken, left, hframes, hfollowed, hout⟩ :=
    w32Exec_follows hcv hmode hstart hfresh hsrc hpending hok hcount hrun
  have hkilled : st.killed = taken.contains .kill := by
    rw [hfollowed.killed]
    exact Bool.false_or _
  refine ⟨st, taken, left, hframes, hfollowed.pending, hfollowed.fed, ?_, ?_, ?_⟩
  · rw [hfollowed.relayed.kills, hkilled]
  · rcases hout with hwatching | ⟨hended, hnoOut, hnoErr⟩
    · exact .inl hwatching
    · refine .inr ⟨?_, ?_⟩
      · have hcut : (if 255 < code then 255 else (code : ℤ)) = ((min code 255 : ℕ) : ℤ) := by
          split_ifs <;> omega
        rw [hended]
        simp only [w32Return, if_neg hmode, cvFlushW32, hcv, if_true, hcut]
      · obtain ⟨fs, hsent, hpayload, herr⟩ := hfollowed.relayed.sent
        have htotal := hfollowed.relayed.total
        have hcapped : st.capped = decide (0 < cfg.maxout ∧
            cfg.maxout < child.out.length + child.err.length) := by
          rw [hnoOut, hnoErr] at htotal
          simp only [Option.getD_none, List.length_nil, Nat.add_zero] at htotal
          rw [← htotal]
          by_cases hover : 0 < cfg.maxout ∧ cfg.maxout < st.total
          · rw [hfollowed.settled hover.1 hover.2, decide_eq_true hover]
          · rw [decide_eq_false hover, ← Bool.not_eq_true]
            exact fun hcap => hover (hfollowed.relayed.exceeded hcap)
        rw [hnoOut] at hpayload
        rw [hnoErr, hcapped] at herr
        exact ⟨fs, hsent, by simpa using hpayload, herr⟩
  · intro hne hready hout' herr'
    refine w32Exec_ends hne hready ?_ st
    intro s
    cases s with
    | out => simpa [W32Live.start, W32Live.pipe, hmode, pipeLeft] using hout'
    | err => simpa [W32Live.start, W32Live.pipe, hmode, pipeLeft] using herr'

def w32Cfg : Cfg := { fourCfg with build := ⟨false, false, true, true, true⟩, ix := true }

def w32Child : Child := ⟨ascii "xyz", ascii "12", .exited 0, [], []⟩

def w32Frames : List ClientFrame := [.input (ascii "ab"), .kill]

def w32Passes : List W32Pass :=
  List.replicate 2 ⟨true, some 0, some 0, 0, true⟩ ++
    List.replicate 2 ⟨false, some 0, some 0, 0, true⟩

/-- Five bytes under a cap of four, and a child killed by its client. -/
theorem w32_live_exact_five :
    ∃ st, w32Return w32Cfg .runi 300 (w32Exec w32Cfg .runi
      (.start .runi ⟨.tcp, ⟨[], []⟩⟩ ⟨[], w32Frames.flatMap ClientFrame.encode⟩ w32Child
        (some [])) w32Passes) = some (255, st) ∧
      WholeW32 w32Cfg [] w32Child st.chan.sent := by
  have hok : ∀ f ∈ w32Frames, f.Ok w32Cfg := by
    intro f hf
    cases f with
    | kill => trivial
    | input data =>
        have hdata : data = ascii "ab" := by simpa [w32Frames] using hf
        rw [hdata]
        exact (by decide : (ascii "ab").length ≤ 4096)
  obtain ⟨st, taken, left, -, -, -, -, hout, hends⟩ :=
    w32_live_exact (rfl : w32Cfg.cv = none) (by decide : LiveMode.runi ≠ .job)
      (by decide : (⟨.tcp, ⟨[], []⟩⟩ : Chan).Steady)
      (by decide : (⟨[], w32Frames.flatMap ClientFrame.encode⟩ : Source).Steady)
      ((List.append_nil _).symm : _ = w32Frames.flatMap ClientFrame.encode ++ []) hok
      (by decide : framesRead w32Passes ≤ w32Frames.length) (by simp) w32Child (some []) 300
  have hready : ∀ p ∈ w32Passes,
      (p.out.isSome = true ∧ p.err.isSome = true) ∧ p.exited = true := by decide
  have hended := hends (by decide) hready (by decide) (by decide)
  rcases hout with hwatching | hwhole
  · exact absurd hwatching.1 hended
  · exact ⟨st, hwhole⟩

end GrandCross
