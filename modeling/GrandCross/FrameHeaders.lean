import GrandCross.ClientXfer
import GrandCross.FieldNumber

/-!
# Frame headers

`do_put`, `xfer_get`, `rc_out_frame` and `runi_frame` each check the tag of a
header and the range of what `atol` makes of the rest.  Every receiver is
given by what it does with a header line, in any state; a header is treated
as it should be unless it has a number in range that is not written as a
numeral.
-/

namespace GrandCross

open CText
open Transfer

/-! ## What the receivers do -/

/-- The end of an upload. -/
def putFinish (cfg : Cfg) (o : Answers) (d : Daemon) (env : List EnvEntry)
    (put : Put) : Daemon :=
  if o.fclose then reply cfg o d env (ascii "OK " ++ decimal put.total)
  else reply cfg o (unlink cfg d put.path) env (ascii "ERR 500 write failed")

/-- `do_put` takes the line for a frame of some bytes, for the last frame
(of 0 bytes), or refuses it. -/
def PutTakes (cfg : Cfg) (line : Bytes) : Option ℕ → Prop
  | none => ∀ o d env put, ∃ msg,
      doPutHeader cfg o d env put line = putAbort cfg o d put (some msg)
  | some 0 => ∀ o d env put,
      doPutHeader cfg o d env put line = putFinish cfg o d env put
  | some (n + 1) => ∀ o d env put,
      doPutHeader cfg o d env put line =
        { d with ctl := .putData env put (n + 1) [] }

/-- The same for `xfer_get`. -/
def GetTakes (frameMax : ℕ) (line : Bytes) : Option ℕ → Prop
  | none => ∀ g, getFrame frameMax g line = (some false, g)
  | some 0 => ∀ g, getFrame frameMax g line = (some true, g)
  | some (n + 1) => ∀ g, getFrame frameMax g line =
      match g.inp.readN (n + 1) with
      | none => (some false, g)
      | some (data, inp) =>
          if g.fwrite.headD true then
            (none, ⟨inp, g.fwrite.tail, g.saved ++ data⟩)
          else (some false, ⟨inp, g.fwrite.tail, g.saved⟩)

/-- `xfer_get` without a local file stops at the last frame as at a line that
it refuses. -/
def DrainTakes (frameMax : ℕ) (line : Bytes) : Option ℕ → Prop
  | none => ∀ inp, drainFrame frameMax inp line = none
  | some n => ∀ inp, drainFrame frameMax inp line = (inp.readN n).map Prod.snd

/-- `runi_frame`: a K line, an I frame, or a violation. -/
inductive InputHeader where
  | kill
  | input (n : ℕ)
  | refused
  deriving DecidableEq

def RuniTakes (cfg : Cfg) (line : Bytes) : InputHeader → Prop
  | .kill => ∀ o d l sel,
      runiFrame cfg o d l sel line = liveTail cfg o d (killChild l) sel
  | .input 0 => ∀ o d l sel,
      runiFrame cfg o d l sel line = liveTail cfg o d { l with inp := none } sel
  | .input (n + 1) => ∀ o d l sel,
      runiFrame cfg o d l sel line = { d with ctl := .liveData l sel (n + 1) [] }
  | .refused => ∀ o d l sel, runiFrame cfg o d l sel line = liveLost cfg o d

/-- `rc_out_frame`: output, the exit code, or an error. -/
inductive OutHeader where
  | frame (s : Stream) (n : ℕ)
  | exit (code : ℕ)
  | refused
  deriving DecidableEq

def OutTakes (line : Bytes) : OutHeader → Prop
  | .frame s n => ∀ rc, rcOutFrame rc line =
      match rc.inp.readN n with
      | none => (some (-1), rc)
      | some (data, inp) =>
          let w := rcWrite { rc with inp := inp } s data
          if w.1 then (none, w.2) else (some (-1), w.2)
  | .exit code => ∀ rc, rcOutFrame rc line = (some (code : ℤ), mbFlush rc)
  | .refused => ∀ rc, (rcOutFrame rc line).1 = some (-1)

/-! ## What they should do -/

def inputHeader (line : Bytes) : Option ℕ → InputHeader
  | some n => if line = ascii "K" then .kill else .input n
  | none => if line = ascii "K" then .kill else .refused

def wellInput (cfg : Cfg) (line : Bytes) : InputHeader :=
  inputHeader line (numeralField 73 0 cfg.build.frameMax line)

def outHeader (out err exit : Option ℕ) : OutHeader :=
  match out, err, exit with
  | some n, _, _ => .frame .out n
  | none, some n, _ => .frame .err n
  | none, none, some code => .exit code
  | none, none, none => .refused

def wellOut (line : Bytes) : OutHeader :=
  outHeader (numeralField 79 1 wireFrameMax line) (numeralField 69 1 wireFrameMax line)
    (numeralField 88 0 255 line)

/-- The text behind O and E is a numeral or out of range, and the text behind
X is a numeral in range: X lines are not checked. -/
structure OutOk (line : Bytes) : Prop where
  out : FieldOk 79 1 wireFrameMax line
  err : FieldOk 69 1 wireFrameMax line
  exit : ∀ text, fieldOf 88 line = some text →
    IsNumeral text ∧ digitsVal 0 text ≤ 255

theorem Build.frameMax_lt (b : Build) : b.frameMax < longMax :=
  lt_of_le_of_lt b.frameMax_le (by decide)

/-! ## Uploads -/

theorem doPutHeader_takes (cfg : Cfg) (line : Bytes) :
    PutTakes cfg line (atolField 68 0 cfg.build.frameMax line) := by
  cases hfield : atolField 68 0 cfg.build.frameMax line with
  | none =>
      rw [atolField_eq_none_iff] at hfield
      intro o d env put
      unfold doPutHeader
      split
      · rename_i num
        have hrange := hfield num rfl
        have hzero : atol num ≠ 0 := by omega
        have hbad : atol num < 0 ∨ (cfg.build.frameMax : ℤ) < atol num := by omega
        refine ⟨ascii "ERR 400 bad frame length", ?_⟩
        simp only [hzero, if_false, hbad, if_true]
      · exact ⟨_, rfl⟩
  | some n =>
      obtain ⟨num, rfl, hatol, -, hmax⟩ := atolField_eq_some_iff.mp hfield
      cases n with
      | zero =>
          intro o d env put
          simp only [doPutHeader, sp, hatol, Nat.cast_zero, if_true, putFinish]
      | succ n =>
          intro o d env put
          have hzero : ((n + 1 : ℕ) : ℤ) ≠ 0 := by omega
          have hfits : ¬ (((n + 1 : ℕ) : ℤ) < 0 ∨
              (cfg.build.frameMax : ℤ) < ((n + 1 : ℕ) : ℤ)) := by omega
          simp only [doPutHeader, sp, hatol, hzero, if_false, hfits, Int.toNat_natCast]

/-- Where a fresh daemon waits behind the header. -/
def putCtl (cfg : Cfg) (line : Bytes) : Ctl :=
  (doPutHeader cfg {} (Daemon.init cfg [] [] fun _ => none) [] ⟨[], 0⟩ line).ctl

def takenCtl (cfg : Cfg) : Option ℕ → Ctl
  | none => idleCtl cfg
  | some 0 => .session true [] []
  | some (n + 1) => .putData [] ⟨[], 0⟩ (n + 1) []

theorem PutTakes.ctl
    {cfg : Cfg} {line : Bytes} {taken : Option ℕ} (h : PutTakes cfg line taken) :
    putCtl cfg line = takenCtl cfg taken := by
  unfold putCtl
  cases taken with
  | none =>
      obtain ⟨msg, hput⟩ := h {} (Daemon.init cfg [] [] fun _ => none) [] ⟨[], 0⟩
      rw [hput, putAbort]
      dsimp only
      rw [sessionReturn_quiet cfg {} rfl]
      rfl
  | some n =>
      cases n with
      | zero =>
          have hsteady : (Daemon.init cfg [] [] fun _ => none).chan.Steady := by
            unfold Chan.Steady Sink.Steady Daemon.init
            simp
          obtain ⟨c, -, -, -, hreply⟩ := reply_steady cfg {} hsteady []
            (ascii "OK " ++ decimal 0)
          rw [h, putFinish, if_pos rfl, hreply]
          rfl
      | succ n =>
          rw [h]
          rfl

theorem idleCtl_ne
    (cfg : Cfg) {ctl : Ctl} (haccept : ctl ≠ .accept) (hhello : ctl ≠ .hello []) :
    idleCtl cfg ≠ ctl := by
  unfold idleCtl
  cases cfg.kind with
  | tcp => exact haccept.symm
  | ser => exact hhello.symm

theorem PutTakes.unique
    {cfg : Cfg} {line : Bytes} {taken taken' : Option ℕ} (h : PutTakes cfg line taken)
    (h' : PutTakes cfg line taken') : taken = taken' := by
  have hctl := h.ctl.symm.trans h'.ctl
  have hsession : idleCtl cfg ≠ .session true [] [] := idleCtl_ne cfg (by simp) (by simp)
  have hdata : ∀ n, idleCtl cfg ≠ .putData [] ⟨[], 0⟩ n [] :=
    fun n => idleCtl_ne cfg (by simp) (by simp)
  rcases taken with _ | _ | n <;> rcases taken' with _ | _ | m
  · rfl
  · exact absurd hctl hsession
  · exact absurd hctl (hdata _)
  · exact absurd hctl.symm hsession
  · rfl
  · cases hctl
  · exact absurd hctl.symm (hdata _)
  · cases hctl
  · injection hctl with _ _ hlen
    rw [hlen]

theorem putTakes_iff (cfg : Cfg) (line : Bytes) :
    PutTakes cfg line (numeralField 68 0 cfg.build.frameMax line) ↔
      FieldOk 68 0 cfg.build.frameMax line :=
  takes_numeral_iff PutTakes.unique cfg.build.frameMax_lt (doPutHeader_takes cfg line)

/-! ## Downloads -/

theorem getFrame_takes {frameMax : ℕ} (line : Bytes) :
    GetTakes frameMax line (atolField 68 0 frameMax line) := by
  cases hfield : atolField 68 0 frameMax line with
  | none =>
      rw [atolField_eq_none_iff] at hfield
      intro g
      unfold getFrame
      split
      · rename_i num
        have hrange := hfield num rfl
        have hzero : atol num ≠ 0 := by omega
        have hbad : atol num < 0 ∨ (frameMax : ℤ) < atol num := by omega
        simp only [hzero, if_false, hbad, if_true]
      · rfl
  | some n =>
      obtain ⟨num, rfl, hatol, -, hmax⟩ := atolField_eq_some_iff.mp hfield
      cases n with
      | zero =>
          intro g
          simp only [getFrame, sp, hatol, Nat.cast_zero, if_true]
      | succ n =>
          intro g
          have hzero : ((n + 1 : ℕ) : ℤ) ≠ 0 := by omega
          have hfits : ¬ (((n + 1 : ℕ) : ℤ) < 0 ∨ (frameMax : ℤ) < ((n + 1 : ℕ) : ℤ)) := by
            omega
          cases hread : g.inp.readN (n + 1) with
          | none =>
              simp only [getFrame, sp, hatol, hzero, if_false, hfits, Int.toNat_natCast, hread]
          | some read =>
              simp only [getFrame, sp, hatol, hzero, if_false, hfits, Int.toNat_natCast, hread]

theorem readN_replicate {k n : ℕ} (hn : n ≤ k) :
    ∃ s : Source, s.pending.length = k - n ∧
      (Source.mk [] (List.replicate k nul)).readN n = some (List.replicate n nul, s) := by
  have hsteady : (Source.mk [] (List.replicate k nul)).Steady := by simp [Source.Steady]
  obtain ⟨s, -, hrest, hread⟩ := Source.readN_steady hsteady (n := n) (by simpa using hn)
  refine ⟨s, by simp [hrest], ?_⟩
  rw [hread]
  simp [List.take_replicate, hn]

/-- The turn on `k` bytes of input, and how many of them it saves. -/
def getMark (frameMax k : ℕ) (line : Bytes) : Option Bool × ℕ :=
  let r := getFrame frameMax ⟨⟨[], List.replicate k nul⟩, [], []⟩ line
  (r.1, r.2.saved.length)

def takenMark : Option ℕ → Option Bool × ℕ
  | none => (some false, 0)
  | some 0 => (some true, 0)
  | some (n + 1) => (none, n + 1)

theorem GetTakes.mark
    {frameMax : ℕ} {line : Bytes} {taken : Option ℕ} (h : GetTakes frameMax line taken)
    {k : ℕ} (hk : ∀ n ∈ taken, n ≤ k) : getMark frameMax k line = takenMark taken := by
  unfold getMark
  rcases taken with _ | _ | n
  · rw [h]
    rfl
  · rw [h]
    rfl
  · obtain ⟨s, -, hread⟩ := readN_replicate (hk (n + 1) rfl)
    rw [h]
    simp [hread, takenMark]

theorem takenMark_injective : Function.Injective takenMark := by
  intro taken taken' h
  rcases taken with _ | _ | n <;> rcases taken' with _ | _ | m <;>
    simp_all [takenMark]

theorem GetTakes.unique
    {frameMax : ℕ} {line : Bytes} {taken taken' : Option ℕ}
    (h : GetTakes frameMax line taken) (h' : GetTakes frameMax line taken') :
    taken = taken' := by
  have hmark := h.mark (k := max (taken.getD 0) (taken'.getD 0)) (by
    intro n hn
    simp [Option.mem_def.mp hn])
  have hmark' := h'.mark (k := max (taken.getD 0) (taken'.getD 0)) (by
    intro n hn
    simp [Option.mem_def.mp hn])
  exact takenMark_injective (hmark.symm.trans hmark')

theorem getTakes_iff (client : Build) (line : Bytes) :
    GetTakes client.frameMax line (numeralField 68 0 client.frameMax line) ↔
      FieldOk 68 0 client.frameMax line :=
  takes_numeral_iff GetTakes.unique client.frameMax_lt (getFrame_takes line)

theorem drainFrame_takes {frameMax : ℕ} (line : Bytes) :
    DrainTakes frameMax line (atolField 68 1 frameMax line) := by
  cases hfield : atolField 68 1 frameMax line with
  | none =>
      rw [atolField_eq_none_iff] at hfield
      intro inp
      unfold drainFrame
      split
      · rename_i num
        have hrange := hfield num rfl
        dsimp only
        split_ifs
        · rfl
        · rfl
        · omega
      · rfl
  | some n =>
      obtain ⟨num, rfl, hatol, hpos, hmax⟩ := atolField_eq_some_iff.mp hfield
      intro inp
      have hzero : (n : ℤ) ≠ 0 := by omega
      have hfits : ¬ ((n : ℤ) < 0 ∨ (frameMax : ℤ) < (n : ℤ)) := by omega
      simp only [drainFrame, sp, hatol, hzero, if_false, hfits, Int.toNat_natCast]

theorem DrainTakes.rest
    {frameMax : ℕ} {line : Bytes} {taken : Option ℕ} (h : DrainTakes frameMax line taken)
    {k : ℕ} (hk : ∀ n ∈ taken, n ≤ k) :
    (drainFrame frameMax ⟨[], List.replicate k nul⟩ line).map (fun s => s.pending.length) =
      taken.map (k - ·) := by
  cases taken with
  | none => rw [h]; rfl
  | some n =>
      obtain ⟨s, hrest, hread⟩ := readN_replicate (hk n rfl)
      rw [h, hread]
      simp [hrest]

theorem DrainTakes.unique
    {frameMax : ℕ} {line : Bytes} {taken taken' : Option ℕ}
    (h : DrainTakes frameMax line taken) (h' : DrainTakes frameMax line taken') :
    taken = taken' := by
  have hrest := h.rest (k := max (taken.getD 0) (taken'.getD 0)) (by
    intro n hn
    simp [Option.mem_def.mp hn])
  have hrest' := h'.rest (k := max (taken.getD 0) (taken'.getD 0)) (by
    intro n hn
    simp [Option.mem_def.mp hn])
  have heq := hrest.symm.trans hrest'
  cases taken with
  | none => cases taken' <;> simp_all
  | some n =>
      cases taken' with
      | none => simp at heq
      | some m =>
          simp only [Option.getD_some, Option.map_some, Option.some.injEq] at heq
          have hnm : n = m := by omega
          rw [hnm]

theorem drainTakes_iff (client : Build) (line : Bytes) :
    DrainTakes client.frameMax line (numeralField 68 1 client.frameMax line) ↔
      FieldOk 68 1 client.frameMax line :=
  takes_numeral_iff DrainTakes.unique client.frameMax_lt (drainFrame_takes line)

/-! ## Input of a running command -/

theorem runiFrame_takes (cfg : Cfg) (line : Bytes) :
    RuniTakes cfg line
      (inputHeader line (atolField 73 0 cfg.build.frameMax line)) := by
  cases hfield : atolField 73 0 cfg.build.frameMax line with
  | none =>
      rw [atolField_eq_none_iff] at hfield
      unfold inputHeader
      split_ifs with hkill
      · subst hkill
        intro o d l sel
        rfl
      · intro o d l sel
        unfold runiFrame
        split
        · exact absurd rfl hkill
        · rename_i num
          have hrange := hfield num rfl
          have hbad : atol num < 0 ∨ (cfg.build.frameMax : ℤ) < atol num := by omega
          simp only [hbad, if_true]
        · rfl
  | some n =>
      obtain ⟨num, rfl, hatol, -, hmax⟩ := atolField_eq_some_iff.mp hfield
      have hkill : (73 : Byte) :: sp :: num ≠ ascii "K" := by simp [ascii]
      simp only [inputHeader, if_neg hkill]
      cases n with
      | zero =>
          intro o d l sel
          have hfits : ¬ ((0 : ℤ) < 0 ∨ (cfg.build.frameMax : ℤ) < 0) := by omega
          simp only [runiFrame, sp, hatol, Nat.cast_zero, hfits, if_false, if_true]
      | succ n =>
          intro o d l sel
          have hfits : ¬ (((n + 1 : ℕ) : ℤ) < 0 ∨
              (cfg.build.frameMax : ℤ) < ((n + 1 : ℕ) : ℤ)) := by omega
          have hzero : ((n + 1 : ℕ) : ℤ) ≠ 0 := by omega
          simp only [runiFrame, sp, hatol, hfits, if_false, hzero, Int.toNat_natCast]

/-- A command with both output pipes and its stdin open. -/
def openLive : Live where
  mode := .runi
  env := []
  jobid := 0
  child := ⟨[], [], .exited 0, [], []⟩
  out := some []
  err := some []
  inp := some ⟨[], []⟩
  killed := 0
  reaped := false
  total := 0
  capped := false
  holdOut := []
  holdErr := []

def runiCtl (cfg : Cfg) (line : Bytes) : Ctl :=
  (runiFrame cfg {} (Daemon.init cfg [] [] fun _ => none) openLive {} line).ctl

def runiTakenCtl (cfg : Cfg) : InputHeader → Ctl
  | .kill => .live { openLive with killed := 1 }
  | .input 0 => .live { openLive with inp := none }
  | .input (n + 1) => .liveData openLive {} (n + 1) []
  | .refused => idleCtl cfg

theorem liveTail_openLive
    (cfg : Cfg) (o : Answers) (d : Daemon) (killed : ℕ) (inp : Option Sink) :
    (liveTail cfg o d { openLive with killed := killed, inp := inp } {}).ctl =
      .live { openLive with killed := killed, inp := inp } := by
  simp [liveTail, liveWatch, openLive]

theorem RuniTakes.ctl
    {cfg : Cfg} {line : Bytes} {taken : InputHeader} (h : RuniTakes cfg line taken) :
    runiCtl cfg line = runiTakenCtl cfg taken := by
  unfold runiCtl
  rcases taken with _ | n | _
  · rw [h]
    exact liveTail_openLive cfg {} _ 1 _
  · cases n with
    | zero =>
        rw [h]
        exact liveTail_openLive cfg {} _ 0 none
    | succ n =>
        rw [h]
        rfl
  · rw [h, liveLost, sessionReturn_quiet cfg {} rfl]
    rfl

theorem runiTakenCtl_injective (cfg : Cfg) : Function.Injective (runiTakenCtl cfg) := by
  intro taken taken' h
  rcases taken with _ | n | _ <;> rcases taken' with _ | m | _
  · rfl
  · cases m <;> simp [runiTakenCtl, openLive] at h
  · exact absurd h.symm (idleCtl_ne cfg (by simp [runiTakenCtl]) (by simp [runiTakenCtl]))
  · cases n <;> simp [runiTakenCtl, openLive] at h
  · cases n <;> cases m <;> simp [runiTakenCtl, openLive] at h ⊢
    exact h
  · refine absurd h.symm (idleCtl_ne cfg ?_ ?_) <;> cases n <;> simp [runiTakenCtl]
  · exact absurd h (idleCtl_ne cfg (by simp [runiTakenCtl]) (by simp [runiTakenCtl]))
  · refine absurd h (idleCtl_ne cfg ?_ ?_) <;> cases m <;> simp [runiTakenCtl]
  · rfl

theorem inputHeader_injective {line : Bytes} (hkill : line ≠ ascii "K") :
    Function.Injective (inputHeader line) := by
  intro field field' h
  cases field <;> cases field' <;> simp_all [inputHeader]

theorem RuniTakes.unique
    {cfg : Cfg} {line : Bytes} {taken taken' : InputHeader}
    (h : RuniTakes cfg line taken) (h' : RuniTakes cfg line taken') : taken = taken' :=
  runiTakenCtl_injective cfg (h.ctl.symm.trans h'.ctl)

theorem runiTakes_iff (cfg : Cfg) (line : Bytes) :
    RuniTakes cfg line (wellInput cfg line) ↔ FieldOk 73 0 cfg.build.frameMax line := by
  have htakes := runiFrame_takes cfg line
  by_cases hkill : line = ascii "K"
  · have hfield : fieldOf 73 line = none := by simp [hkill, fieldOf, ascii]
    have hok : FieldOk 73 0 cfg.build.frameMax line := by
      intro text htext
      rw [hfield] at htext
      cases htext
    simp only [hok, iff_true, wellInput, numeralField, hfield]
    simpa only [atolField, hfield] using htakes
  · exact takes_numeral_iff
      (fun h h' => inputHeader_injective hkill (RuniTakes.unique h h'))
      cfg.build.frameMax_lt htakes

/-! ## Output of a running command -/

/-- What `rc_out_frame` makes of the text behind X. -/
def exitField (line : Bytes) : Option ℕ :=
  (fieldOf 88 line).map fun text => (atol text % 256).toNat

theorem rcPayload_takes (s : Stream) (text : Bytes) :
    (∀ n : ℕ, atol text = n → 1 ≤ n → n ≤ wireFrameMax → ∀ rc, rcPayload rc s text =
      match rc.inp.readN n with
      | none => (some (-1), rc)
      | some (data, inp) =>
          let w := rcWrite { rc with inp := inp } s data
          if w.1 then (none, w.2) else (some (-1), w.2)) ∧
    (atol text < 1 ∨ (wireFrameMax : ℤ) < atol text →
      ∀ rc, (rcPayload rc s text).1 = some (-1)) := by
  constructor
  · intro n hatol hpos hmax rc
    have hfits : ¬ ((n : ℤ) < 1 ∨ (wireFrameMax : ℤ) < (n : ℤ)) := by omega
    cases hread : rc.inp.readN n with
    | none => simp only [rcPayload, hatol, hfits, if_false, Int.toNat_natCast, hread]
    | some read => simp only [rcPayload, hatol, hfits, if_false, Int.toNat_natCast, hread]
  · intro hbad rc
    simp only [rcPayload, hbad, if_true]

theorem rcOutFrame_takes (line : Bytes) :
    OutTakes line
      (outHeader (atolField 79 1 wireFrameMax line) (atolField 69 1 wireFrameMax line)
        (exitField line)) := by
  cases hout : fieldOf 79 line with
  | some text =>
      have herr := fieldOf_other (by decide : (69 : Byte) ≠ 79) hout
      have hexit := fieldOf_other (by decide : (88 : Byte) ≠ 79) hout
      obtain ⟨htake, hrefuse⟩ := rcPayload_takes .out text
      have hline := fieldOf_eq_some_iff.mp hout
      simp only [exitField, hexit, Option.map_none, atolField, herr, hout]
      split_ifs with hrange
      · intro rc
        rw [hline]
        exact htake (atol text).toNat (by omega) (by omega) (by omega) rc
      · intro rc
        rw [hline]
        exact hrefuse (by omega) rc
  | none =>
      cases herr : fieldOf 69 line with
      | some text =>
          have hexit := fieldOf_other (by decide : (88 : Byte) ≠ 69) herr
          obtain ⟨htake, hrefuse⟩ := rcPayload_takes .err text
          have hline := fieldOf_eq_some_iff.mp herr
          simp only [exitField, hexit, Option.map_none, atolField, herr, hout]
          split_ifs with hrange
          · intro rc
            rw [hline]
            exact htake (atol text).toNat (by omega) (by omega) (by omega) rc
          · intro rc
            rw [hline]
            exact hrefuse (by omega) rc
      | none =>
          cases hexit : fieldOf 88 line with
          | some text =>
              have hline := fieldOf_eq_some_iff.mp hexit
              have hcode : 0 ≤ atol text % 256 := Int.emod_nonneg _ (by decide)
              simp only [exitField, hexit, Option.map_some, atolField, herr, hout, outHeader]
              intro rc
              rw [hline, Int.toNat_of_nonneg hcode]
              rfl
          | none =>
              simp only [exitField, hexit, Option.map_none, atolField, herr, hout, outHeader]
              intro rc
              have hnot : ∀ tag ∈ [(79 : Byte), 69, 88], ∀ text, line ≠ tag :: 32 :: text := by
                intro tag htag text h
                have hsome := fieldOf_eq_some_iff.mpr h
                simp only [List.mem_cons, List.not_mem_nil, or_false] at htag
                rcases htag with rfl | rfl | rfl
                · simp [hout] at hsome
                · simp [herr] at hsome
                · simp [hexit] at hsome
              unfold rcOutFrame
              split
              · exact absurd rfl (hnot 79 (by simp) _)
              · exact absurd rfl (hnot 69 (by simp) _)
              · exact absurd rfl (hnot 88 (by simp) _)
              · rfl

def OutHeader.code : OutHeader → Option ℤ
  | .frame _ _ => none
  | .exit code => some code
  | .refused => some (-1)

/-- `k` bytes of input, written out as they are. -/
def plainRc (k : ℕ) : Rc := ⟨⟨[], List.replicate k nul⟩, ⟨[], []⟩, ⟨[], []⟩, none⟩

def writtenLen (rc : Rc) : Stream → ℕ
  | .out => rc.fd1.taken.length
  | .err => rc.fd2.taken.length

theorem rcWrite_plain (inp : Source) (s : Stream) (data : Bytes) :
    (rcWrite ⟨inp, ⟨[], []⟩, ⟨[], []⟩, none⟩ s data).1 = true ∧
      ∀ t, writtenLen (rcWrite ⟨inp, ⟨[], []⟩, ⟨[], []⟩, none⟩ s data).2 t =
        if t = s then data.length else 0 := by
  have hsteady : (Sink.mk [] []).Steady := by simp [Sink.Steady]
  obtain ⟨hok, htaken, -⟩ := Sink.writeAll_steady hsteady data
  cases s with
  | out =>
      refine ⟨hok, ?_⟩
      rintro (_ | _) <;> simp [rcWrite, writeFd, writtenLen, htaken]
  | err =>
      refine ⟨hok, ?_⟩
      rintro (_ | _) <;> simp [rcWrite, writeFd, writtenLen, htaken]

theorem OutTakes.code
    {line : Bytes} {taken : OutHeader} (h : OutTakes line taken) {k : ℕ}
    (hk : ∀ s n, taken = .frame s n → n ≤ k) :
    (rcOutFrame (plainRc k) line).1 = taken.code ∧
      ∀ s n, taken = .frame s n → ∀ t,
        writtenLen (rcOutFrame (plainRc k) line).2 t = if t = s then n else 0 := by
  cases taken with
  | frame s n =>
      obtain ⟨inp, -, hread⟩ := readN_replicate (hk s n rfl)
      obtain ⟨hok, hlen⟩ := rcWrite_plain inp s (List.replicate n nul)
      have htake := h (plainRc k)
      simp only [plainRc, hread, hok, if_true] at htake ⊢
      rw [htake]
      refine ⟨rfl, ?_⟩
      intro s' n' heq t
      injection heq with hs hn
      subst hs hn
      simpa using hlen t
  | exit code =>
      refine ⟨?_, by simp⟩
      rw [h]
      rfl
  | refused =>
      refine ⟨?_, by simp⟩
      rw [h]
      rfl

def OutHeader.Proper (h : OutHeader) : Prop := ∀ s n, h = .frame s n → 1 ≤ n

theorem OutTakes.unique
    {line : Bytes} {taken taken' : OutHeader} (h : OutTakes line taken)
    (h' : OutTakes line taken') (hpos : taken.Proper) (hpos' : taken'.Proper) :
    taken = taken' := by
  let len : OutHeader → ℕ
    | .frame _ n => n
    | _ => 0
  obtain ⟨hcode, hlen⟩ := h.code (k := max (len taken) (len taken')) (by
    rintro s n rfl
    exact le_max_left _ _)
  obtain ⟨hcode', hlen'⟩ := h'.code (k := max (len taken) (len taken')) (by
    rintro s n rfl
    exact le_max_right _ _)
  have heq := hcode.symm.trans hcode'
  cases taken with
  | frame s n =>
      cases taken' with
      | frame s' n' =>
          have hn := hpos s n rfl
          have hboth := (hlen s n rfl s).symm.trans (hlen' s' n' rfl s)
          rw [if_pos rfl] at hboth
          split_ifs at hboth with hs
          · rw [hs, hboth]
          · omega
      | exit code => simp [OutHeader.code] at heq
      | refused => simp [OutHeader.code] at heq
  | exit code =>
      cases taken' with
      | frame s' n' => simp [OutHeader.code] at heq
      | exit code' =>
          simp only [OutHeader.code, Option.some.injEq, Nat.cast_inj] at heq
          rw [heq]
      | refused =>
          simp only [OutHeader.code, Option.some.injEq] at heq
          omega
  | refused =>
      cases taken' with
      | frame s' n' => simp [OutHeader.code] at heq
      | exit code' =>
          simp only [OutHeader.code, Option.some.injEq] at heq
          omega
      | refused => rfl

theorem outHeader_proper
    {out err exit : Option ℕ} (hout : ∀ n ∈ out, 1 ≤ n) (herr : ∀ n ∈ err, 1 ≤ n) :
    (outHeader out err exit).Proper := by
  intro s n h
  cases out with
  | some k =>
      injection h with _ hn
      rw [← hn]
      exact hout k rfl
  | none =>
      cases err with
      | some k =>
          injection h with _ hn
          rw [← hn]
          exact herr k rfl
      | none => cases exit <;> simp [outHeader] at h

theorem outHeader_eq_iff (a b : Option ℕ) :
    (outHeader a none none = outHeader b none none ↔ a = b) ∧
      (outHeader none a none = outHeader none b none ↔ a = b) ∧
      (outHeader none none a = outHeader none none b ↔ a = b) := by
  cases a <;> cases b <;> simp [outHeader]

/-- No line has two of the tags, so the fields can be compared one by one. -/
theorem wellOut_eq_iff (line : Bytes) :
    wellOut line =
        outHeader (atolField 79 1 wireFrameMax line) (atolField 69 1 wireFrameMax line)
          (exitField line) ↔
      numeralField 79 1 wireFrameMax line = atolField 79 1 wireFrameMax line ∧
        numeralField 69 1 wireFrameMax line = atolField 69 1 wireFrameMax line ∧
        numeralField 88 0 255 line = exitField line := by
  have hnone : ∀ tag lo hi, fieldOf tag line = none →
      numeralField tag lo hi line = none ∧ atolField tag lo hi line = none := by
    intro tag lo hi h
    simp [numeralField, atolField, h]
  have hexitNone : fieldOf 88 line = none → exitField line = none := by
    intro h
    simp [exitField, h]
  unfold wellOut
  cases hout : fieldOf 79 line with
  | some text =>
      have herr := hnone 69 1 wireFrameMax (fieldOf_other (by decide) hout)
      have hexit := fieldOf_other (by decide : (88 : Byte) ≠ 79) hout
      rw [herr.1, herr.2, (hnone 88 0 255 hexit).1, hexitNone hexit]
      simp only [(outHeader_eq_iff _ _).1, and_true]
  | none =>
      have hout' := hnone 79 1 wireFrameMax hout
      rw [hout'.1, hout'.2]
      cases herr : fieldOf 69 line with
      | some text =>
          have hexit := fieldOf_other (by decide : (88 : Byte) ≠ 69) herr
          rw [(hnone 88 0 255 hexit).1, hexitNone hexit]
          simp only [(outHeader_eq_iff _ _).2.1, true_and, and_true]
      | none =>
          have herr' := hnone 69 1 wireFrameMax herr
          rw [herr'.1, herr'.2]
          simp only [(outHeader_eq_iff _ _).2.2, true_and]

/-- The code behind X is never checked, so only a numeral in range will do. -/
theorem exitField_eq_iff (line : Bytes) :
    numeralField 88 0 255 line = exitField line ↔
      ∀ text, fieldOf 88 line = some text → IsNumeral text ∧ digitsVal 0 text ≤ 255 := by
  unfold numeralField exitField
  cases fieldOf 88 line with
  | none => simp
  | some text =>
      simp only [Option.map_some, Option.some.injEq, forall_eq', Nat.zero_le, true_and]
      split_ifs with hwell
      · rw [iff_true_right hwell, Option.some.injEq]
        have hlong : (255 : ℕ) ≤ longMax := by decide
        have hval := hwell.2
        rw [atol_numeral hwell.1, min_eq_left (hval.trans hlong)]
        omega
      · simp [hwell]

theorem outTakes_iff (line : Bytes) : OutTakes line (wellOut line) ↔ OutOk line := by
  have hmax : wireFrameMax < longMax := by decide
  have hproper : ∀ tag, (∀ n ∈ numeralField tag 1 wireFrameMax line, 1 ≤ n) ∧
      ∀ n ∈ atolField tag 1 wireFrameMax line, 1 ≤ n := by
    intro tag
    refine ⟨?_, ?_⟩
    · intro n hn
      unfold numeralField at hn
      split at hn
      · cases hn
      · split_ifs at hn with h
        · rw [← Option.some.inj hn]
          exact h.2.1
        · cases hn
    · intro n hn
      obtain ⟨_, _, _, hpos, _⟩ := atolField_eq_some_iff.mp hn
      exact hpos
  have htakes := rcOutFrame_takes line
  have heq : OutTakes line (wellOut line) ↔ wellOut line =
      outHeader (atolField 79 1 wireFrameMax line) (atolField 69 1 wireFrameMax line)
        (exitField line) := by
    constructor
    · intro h
      exact h.unique htakes (outHeader_proper (hproper 79).1 (hproper 69).1)
        (outHeader_proper (hproper 79).2 (hproper 69).2)
    · intro h
      rw [h]
      exact htakes
  rw [heq, wellOut_eq_iff, numeralField_eq_iff hmax, numeralField_eq_iff hmax,
    exitField_eq_iff]
  exact ⟨fun h => ⟨h.1, h.2.1, h.2.2⟩, fun h => ⟨h.out, h.err, h.exit⟩⟩

/-! ## All receivers -/

end GrandCross
