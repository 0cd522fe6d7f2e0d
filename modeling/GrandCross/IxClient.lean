import GrandCross.ClientMain
import GrandCross.RuniRace

/-!
# The interactive client

`client/ixmode.c`: `ix_client` sends a RUNI line and then waits on the local
stdin and the session at once.  What the user types goes out in I frames, the
end of it as `I 0`, the first interrupt as `K`; frames of the daemon go to the
local files until the X line.  A second interrupt gives up.
-/

namespace GrandCross

open CText
open Transfer

/-! ## The loop -/

/-- What `read` on the local stdin gives; an error counts as the end. -/
inductive StdinRead where
  | ended
  | data (bytes : Bytes) (some_bytes : bytes ≠ []) (fits : bytes.length ≤ 1024)

/-- What `select` reports: what a read of stdin gives if it is ready, and
whether the session is; and whether a signal comes while the frame is being
waited for. -/
structure IxReady where
  stdin : Option StdinRead
  sess : Bool
  signal : Bool

/-- One turn of the loop: whether `g_int` is set at its start, and what
`select` reports unless a signal breaks it. -/
structure IxTurn where
  interrupt : Bool
  ready : Option IxReady

structure IxState where
  chan : Chan
  rc : Rc
  stdinOpen : Bool
  sentK : Bool

/-- Go on unless the loop has been left. -/
def IxState.andThen (r : Option ℤ × IxState) (f : IxState → Option ℤ × IxState) :
    Option ℤ × IxState :=
  match r with
  | (some code, st) => (some code, st)
  | (none, st) => f st

def ixInterrupt (st : IxState) : Option ℤ × IxState :=
  if st.sentK then (some (-1), st)
  else
    let put := lioPutLine st.chan (ascii "K")
    if put.1 then (none, { st with chan := put.2, sentK := true })
    else (some (-1), { st with chan := put.2 })

def ixInput (st : IxState) : StdinRead → Option ℤ × IxState
  | .ended =>
      let put := lioPutLine st.chan (ascii "I 0")
      if put.1 then (none, { st with chan := put.2, stdinOpen := false })
      else (some (-1), { st with chan := put.2 })
  | .data bytes _ _ =>
      let hdr := chanWriteAll st.chan (frameHdr 73 bytes.length)
      if hdr.1 then
        let body := chanWriteAll hdr.2 bytes
        if body.1 then (none, { st with chan := body.2 })
        else (some (-1), { st with chan := body.2 })
      else (some (-1), { st with chan := hdr.2 })

/-- A signal breaks a blocked read for good, as nothing restarts it. -/
def ixServer (st : IxState) (signal : Bool) : Option ℤ × IxState :=
  if signal then (some (-1), st) else
  match lioGetLine lineMax st.rc.inp with
  | (.ok line, inp) =>
      let r := rcOutFrame { st.rc with inp := inp } (cstr line)
      (r.1, { st with rc := r.2 })
  | (_, inp) => (some (-1), { st with rc := { st.rc with inp := inp } })

def ixReady (st : IxState) (ready : IxReady) : Option ℤ × IxState :=
  IxState.andThen
    (match ready.stdin with
      | none => (none, st)
      | some read => if st.stdinOpen then ixInput st read else (none, st))
    fun st => if ready.sess then ixServer st ready.signal else (none, st)

def ixTurn (st : IxState) (t : IxTurn) : Option ℤ × IxState :=
  IxState.andThen (if t.interrupt then ixInterrupt st else (none, st)) fun st =>
    match t.ready with
    | none => (none, st)
    | some ready => ixReady st ready

/-- The loop over the turns it may take; no code while it goes on. -/
def ixLoop : IxState → List IxTurn → Option ℤ × IxState
  | st, [] => (none, st)
  | st, t :: ts => IxState.andThen (ixTurn st t) fun st => ixLoop st ts

def ixClient (c : Chan) (rc : Rc) (cmd : Bytes) (turns : List IxTurn) :
    Option ℤ × IxState :=
  let put := lioPutLine c (requestLine (ascii "RUNI ") cmd)
  let st : IxState := ⟨put.2, rc, true, false⟩
  if put.1 then ixLoop st turns else (some (-1), st)

/-! ## What the user does -/

def StdinRead.isEnd : StdinRead → Bool
  | .ended => true
  | .data .. => false

def StdinRead.frame : StdinRead → ClientFrame
  | .ended => .input []
  | .data bytes _ _ => .input bytes

/-- The reads up to the first end. -/
def upToEnd : List StdinRead → List StdinRead
  | [] => []
  | r :: rs => if r.isEnd then [r] else r :: upToEnd rs

def IxTurn.reads (t : IxTurn) : List StdinRead := (t.ready.bind IxReady.stdin).toList

/-- What the user types in these turns. -/
def stdinReads (turns : List IxTurn) : List StdinRead := upToEnd (turns.flatMap IxTurn.reads)

def IxTurn.quiet (t : IxTurn) : Bool := !t.interrupt

def interrupted (turns : List IxTurn) : Bool := turns.any IxTurn.interrupt

/-- The frames that say so: one for each read, and one for the first interrupt
behind those read before it. -/
def typedFrames (turns : List IxTurn) : List ClientFrame :=
  let frames := (stdinReads turns).map StdinRead.frame
  let early := (stdinReads (turns.takeWhile IxTurn.quiet)).length
  if interrupted turns then frames.take early ++ .kill :: frames.drop early else frames

/-- The turns that read from the session. -/
def IxTurn.sess (t : IxTurn) : Bool := (t.ready.map IxReady.sess).getD false

def heard (turns : List IxTurn) : ℕ := turns.countP IxTurn.sess

def IxTurn.signal (t : IxTurn) : Bool := (t.ready.map IxReady.signal).getD false

/-- The turns whose read of the session is broken by a signal. -/
def IxTurn.broken (t : IxTurn) : Bool := t.sess && t.signal

def interrupts (turns : List IxTurn) : ℕ := turns.countP IxTurn.interrupt

/-! ## One more turn -/

theorem upToEnd_any (rs : List StdinRead) :
    (upToEnd rs).any StdinRead.isEnd = rs.any StdinRead.isEnd := by
  induction rs with
  | nil => rfl
  | cons r rs ih =>
      unfold upToEnd
      cases hend : r.isEnd with
      | true => simp [hend]
      | false => simp [hend, ih]

theorem upToEnd_append (rs rs' : List StdinRead) :
    upToEnd (rs ++ rs') =
      upToEnd rs ++ if rs.any StdinRead.isEnd then [] else upToEnd rs' := by
  induction rs with
  | nil => simp [upToEnd]
  | cons r rs ih =>
      rw [List.cons_append, upToEnd, upToEnd, ih]
      cases hend : r.isEnd with
      | true => simp [hend]
      | false => simp [hend]

theorem upToEnd_reads (t : IxTurn) : upToEnd t.reads = t.reads := by
  unfold IxTurn.reads
  cases t.ready.bind IxReady.stdin with
  | none => rfl
  | some r => simp [upToEnd]

/-- What one more turn adds to what is typed. -/
def moreReads (turns : List IxTurn) (t : IxTurn) : List StdinRead :=
  if (stdinReads turns).any StdinRead.isEnd then [] else t.reads

theorem stdinReads_snoc (turns : List IxTurn) (t : IxTurn) :
    stdinReads (turns ++ [t]) = stdinReads turns ++ moreReads turns t := by
  unfold stdinReads moreReads
  rw [List.flatMap_append, upToEnd_append, stdinReads, upToEnd_any, List.flatMap_singleton,
    upToEnd_reads]

theorem stdinReads_early (turns : List IxTurn) :
    (stdinReads (turns.takeWhile IxTurn.quiet)).length ≤ (stdinReads turns).length := by
  have hsplit := List.takeWhile_append_dropWhile (p := IxTurn.quiet) (l := turns)
  have hreads : stdinReads turns = stdinReads (turns.takeWhile IxTurn.quiet ++
      turns.dropWhile IxTurn.quiet) := by rw [hsplit]
  rw [hreads]
  unfold stdinReads
  rw [List.flatMap_append, upToEnd_append, List.length_append]
  exact Nat.le_add_right _ _

theorem interrupted_snoc (turns : List IxTurn) (t : IxTurn) :
    interrupted (turns ++ [t]) = (interrupted turns || t.interrupt) := by
  simp [interrupted]

/-- What one more turn adds to the frames. -/
theorem typedFrames_snoc (turns : List IxTurn) (t : IxTurn) :
    typedFrames (turns ++ [t]) =
      typedFrames turns ++
        (if t.interrupt && !interrupted turns then [.kill] else []) ++
          (moreReads turns t).map StdinRead.frame := by
  have hearly := stdinReads_early turns
  unfold typedFrames
  rw [interrupted_snoc, stdinReads_snoc, List.map_append]
  dsimp only
  cases hbefore : interrupted turns with
  | true =>
      have hsome : ¬ ∀ a ∈ turns, a.quiet = true := by
        intro hall
        obtain ⟨a, ha, hint⟩ := List.any_eq_true.mp hbefore
        have hquiet := hall a ha
        rw [IxTurn.quiet, hint] at hquiet
        exact Bool.false_ne_true hquiet
      have hstop : (turns ++ [t]).takeWhile IxTurn.quiet = turns.takeWhile IxTurn.quiet := by
        rw [List.takeWhile_append, if_neg]
        intro hlen
        exact hsome (List.takeWhile_eq_self_iff.mp
          (List.IsPrefix.eq_of_length (List.takeWhile_prefix _) hlen))
      have hfits : (stdinReads (turns.takeWhile IxTurn.quiet)).length ≤
          ((stdinReads turns).map StdinRead.frame).length := by
        rw [List.length_map]
        exact hearly
      rw [hstop, List.take_append_of_le_length hfits, List.drop_append_of_le_length hfits]
      simp
  | false =>
      have hall : ∀ a ∈ turns, a.quiet = true := by
        intro a ha
        have hnone := List.any_eq_false.mp hbefore a ha
        simp only [IxTurn.quiet, Bool.not_eq_true', Bool.not_eq_true] at hnone ⊢
        exact hnone
      cases ht : t.interrupt with
      | false => simp
      | true =>
          have hstop : (turns ++ [t]).takeWhile IxTurn.quiet = turns := by
            rw [List.takeWhile_append_of_pos hall]
            simp [IxTurn.quiet, ht]
          rw [hstop]
          have hlen : (stdinReads turns).length =
              ((stdinReads turns).map StdinRead.frame).length := by
            rw [List.length_map]
          rw [hlen, List.take_left, List.drop_left]
          simp

/-! ## What is sent -/

/-- The loop has sent what is typed in these turns. -/
structure IxTyped (base : Bytes) (turns : List IxTurn) (st : IxState) : Prop where
  steady : st.chan.Steady
  sent : st.chan.sent = base ++ (typedFrames turns).flatMap ClientFrame.encode
  stdinOpen : st.stdinOpen = !(stdinReads turns).any StdinRead.isEnd
  sentK : st.sentK = interrupted turns

theorem ixInterrupt_steady
    {st : IxState} (hst : st.chan.Steady) {t : IxTurn}
    (hk : ¬ (t.interrupt = true ∧ st.sentK = true)) :
    ∃ c : Chan, c.Steady ∧
      c.sent = st.chan.sent ++
        (if t.interrupt && !st.sentK then [ClientFrame.kill] else []).flatMap
          ClientFrame.encode ∧
      (if t.interrupt then ixInterrupt st else (none, st)) =
        (none, { st with chan := c, sentK := st.sentK || t.interrupt }) := by
  cases hint : t.interrupt with
  | false => exact ⟨st.chan, hst, by simp, by simp⟩
  | true =>
      have hfresh : st.sentK = false := by
        cases hs : st.sentK with
        | false => rfl
        | true => exact absurd ⟨hint, hs⟩ hk
      have hput := wrote_lioPutLine hst (ascii "K")
      refine ⟨(lioPutLine st.chan (ascii "K")).2, hput.steady, ?_, ?_⟩
      · rw [hput.sent, hfresh]
        simp [ClientFrame.encode]
      · rw [if_pos rfl, ixInterrupt, hfresh, if_neg Bool.false_ne_true]
        dsimp only
        rw [if_pos hput.ok]
        rfl

theorem ixInput_steady
    {st : IxState} (hst : st.chan.Steady) (r : StdinRead) :
    ∃ c : Chan, c.Steady ∧ c.sent = st.chan.sent ++ r.frame.encode ∧
      ixInput st r =
        (none, { st with chan := c, stdinOpen := st.stdinOpen && !r.isEnd }) := by
  cases r with
  | ended =>
      have hput := wrote_lioPutLine hst (ascii "I 0")
      refine ⟨(lioPutLine st.chan (ascii "I 0")).2, hput.steady, hput.sent, ?_⟩
      simp [ixInput, hput.ok, StdinRead.isEnd]
  | data bytes hne hfits =>
      have hhdr := wrote_chanWriteAll hst (frameHdr 73 bytes.length)
      have hbody := wrote_chanWriteAll hhdr.steady bytes
      refine ⟨_, hbody.steady, ?_, ?_⟩
      · rw [hbody.sent, hhdr.sent, List.append_assoc]
        rfl
      · simp [ixInput, hhdr.ok, hbody.ok, StdinRead.isEnd]

/-- A turn sends what is typed in it, and then listens if the session is
ready. -/
theorem IxTyped.turn
    {base : Bytes} {turns : List IxTurn} {st : IxState} (h : IxTyped base turns st)
    {t : IxTurn} (hk : ¬ (t.interrupt = true ∧ st.sentK = true)) :
    ∃ st', IxTyped base (turns ++ [t]) st' ∧ st'.rc = st.rc ∧
      ixTurn st t = if t.sess then ixServer st' t.signal else (none, st') := by
  obtain ⟨c, hc, hsent, hint⟩ := ixInterrupt_steady h.steady hk
  rw [h.sentK] at hsent
  have hkilled : (st.sentK || t.interrupt) = interrupted (turns ++ [t]) := by
    rw [interrupted_snoc, h.sentK]
  have hframes := typedFrames_snoc turns t
  have hopen : st.stdinOpen = !(stdinReads turns).any StdinRead.isEnd := h.stdinOpen
  -- Nothing of stdin is sent when it is closed or not ready.
  have hsilent : moreReads turns t = [] →
      IxTyped base (turns ++ [t]) { st with chan := c, sentK := st.sentK || t.interrupt } := by
    intro hmore
    refine ⟨hc, ?_, ?_, hkilled⟩
    · rw [hframes, hmore, List.map_nil, List.append_nil, List.flatMap_append, hsent, h.sent,
        List.append_assoc]
    · rw [stdinReads_snoc, hmore, List.append_nil]
      exact hopen
  unfold ixTurn
  rw [hint]
  cases hready : t.ready with
  | none =>
      have hmore : moreReads turns t = [] := by
        simp [moreReads, IxTurn.reads, hready]
      refine ⟨_, hsilent hmore, rfl, ?_⟩
      simp [IxState.andThen, IxTurn.sess, hready]
  | some ready =>
      have hsess : t.sess = ready.sess := by simp [IxTurn.sess, hready]
      have hsignal : t.signal = ready.signal := by simp [IxTurn.signal, hready]
      have hreads : t.reads = ready.stdin.toList := by simp [IxTurn.reads, hready]
      dsimp only [IxState.andThen, ixReady]
      rw [hsess, hsignal]
      cases hstdin : ready.stdin with
      | none =>
          have hmore : moreReads turns t = [] := by simp [moreReads, hreads, hstdin]
          exact ⟨_, hsilent hmore, rfl, rfl⟩
      | some r =>
          cases hst : st.stdinOpen with
          | false =>
              rw [hst] at hopen
              have hended : (stdinReads turns).any StdinRead.isEnd = true := by
                simpa using hopen.symm
              have hmore : moreReads turns t = [] := by simp [moreReads, hended]
              have hclosed := hsilent hmore
              exact ⟨_, hclosed, rfl, by simp [hst]⟩
          | true =>
              rw [hst] at hopen
              have hgoing : (stdinReads turns).any StdinRead.isEnd = false := by
                simpa using hopen.symm
              have hmore : moreReads turns t = [r] := by
                simp [moreReads, hgoing, hreads, hstdin]
              have hkept : ({ st with chan := c, sentK := st.sentK || t.interrupt } :
                  IxState).chan.Steady := hc
              obtain ⟨c', hc', hsent', hinput⟩ := ixInput_steady hkept r
              refine ⟨{ st with
                chan := c', sentK := st.sentK || t.interrupt, stdinOpen := !r.isEnd },
                ?_, rfl, ?_⟩
              · refine ⟨hc', ?_, ?_, hkilled⟩
                · rw [hsent', hframes, hmore, List.flatMap_append, List.flatMap_append, hsent,
                    h.sent]
                  simp
                · rw [stdinReads_snoc, hmore, List.any_append, hgoing]
                  simp
              · dsimp only at hinput ⊢
                rw [hst] at hinput
                rw [if_pos rfl, hinput]
                rfl

/-! ## What is heard -/

theorem ixServer_frame
    {st : IxState} (hrc : st.rc.Steady) (f : Frame) {rest : Bytes}
    (hpending : st.rc.inp.pending = f.encode ++ rest) :
    ∃ rc', st.rc.Took rc' [f] rest ∧ ixServer st false = (none, { st with rc := rc' }) := by
  obtain ⟨inp, hsteady, hdata, hline⟩ := lioGetLine_header hrc.inp f hpending
  obtain ⟨inp', hsteady', hrest, hread⟩ :=
    Source.readN_steady hsteady (n := f.data.length) (by simp [hdata])
  have hrc' : Rc.Steady { st.rc with inp := inp' } := ⟨hsteady', hrc.fd1, hrc.fd2⟩
  obtain ⟨hok, htook⟩ := rcWrite_steady hrc' f
  refine ⟨(rcWrite { st.rc with inp := inp' } f.stream f.data).2,
    ⟨htook.steady, ?_, htook.plain⟩, ?_⟩
  · rw [htook.pending]
    simp [hrest, hdata]
  · unfold ixServer
    rw [if_neg Bool.false_ne_true, hline]
    dsimp only
    rw [cstr_hdrText f.stream.tag_ne.2.2, rcOutFrame_header]
    dsimp only
    rw [hread, hdata, List.take_left]
    dsimp only
    rw [if_pos hok]

theorem ixServer_exit
    {st : IxState} (hrc : st.rc.Steady) {code : ℕ} {rest : Bytes}
    (hpending : st.rc.inp.pending = exitLine code ++ lf :: rest) :
    ∃ rc', st.rc.Took rc' [] rest ∧
      ixServer st false = (some ((code % 256 : ℕ) : ℤ), { st with rc := rc' }) := by
  obtain ⟨inp, hsteady, hrest, hline⟩ :=
    lioGetLine_clean lineMax hrc.inp hpending (exitLine_clean code)
      (by have := exitLine_length code; unfold lineMax; omega)
  have hrc' : Rc.Steady { st.rc with inp := inp } := ⟨hsteady, hrc.fd1, hrc.fd2⟩
  have htook := mbFlush_took hrc'
  have hmod : code % 256 < 256 := Nat.mod_lt code (by omega)
  have hatol : atol (decimal (code % 256)) = ((code % 256 : ℕ) : ℤ) :=
    atol_decimal ((Nat.le_of_lt hmod).trans (by decide))
  have hcode : ((code % 256 : ℕ) : ℤ) % 256 = ((code % 256 : ℕ) : ℤ) := by
    omega
  refine ⟨mbFlush { st.rc with inp := inp },
    ⟨htook.steady, htook.pending.trans hrest, htook.plain⟩, ?_⟩
  unfold ixServer
  rw [if_neg Bool.false_ne_true, hline]
  dsimp only
  rw [exitLine_eq, cstr_hdrText (by decide)]
  simp only [hdrText, rcOutFrame, sp]
  rw [hatol, hcode]

/-- The loop has taken a frame for each turn that read one. -/
structure IxHeard (rc : Rc) (fs : List Frame) (code : ℕ) (later : Bytes) (turns : List IxTurn)
    (st : IxState) : Prop where
  count : heard turns ≤ fs.length
  took : rc.Took st.rc (fs.take (heard turns))
    (encodeStream (fs.drop (heard turns)) code ++ later)

theorem heard_snoc (turns : List IxTurn) (t : IxTurn) :
    heard (turns ++ [t]) = heard turns + t.sess.toNat := by
  unfold heard
  rw [List.countP_append, List.countP_singleton]
  cases t.sess <;> rfl

theorem interrupts_snoc (turns : List IxTurn) (t : IxTurn) :
    interrupts (turns ++ [t]) = interrupts turns + t.interrupt.toNat := by
  unfold interrupts
  rw [List.countP_append, List.countP_singleton]
  cases t.interrupt <;> rfl

theorem IxHeard.server
    {rc : Rc} {fs : List Frame} {code : ℕ} {later : Bytes} {turns : List IxTurn}
    {st : IxState} (h : IxHeard rc fs code later turns st) :
    (heard turns < fs.length ∧ ∃ rc', rc.Took rc' (fs.take (heard turns + 1))
        (encodeStream (fs.drop (heard turns + 1)) code ++ later) ∧
          ixServer st false = (none, { st with rc := rc' })) ∨
      (heard turns = fs.length ∧ ∃ rc', rc.Took rc' fs later ∧
        ixServer st false = (some ((code % 256 : ℕ) : ℤ), { st with rc := rc' })) := by
  have hpending := h.took.pending
  rcases Nat.lt_or_eq_of_le h.count with hlt | hall
  · left
    have hdrop := List.drop_eq_getElem_cons hlt
    have hsplit : encodeStream (fs.drop (heard turns)) code ++ later =
        (fs.get ⟨heard turns, hlt⟩).encode ++
          (encodeStream (fs.drop (heard turns + 1)) code ++ later) := by
      rw [hdrop]
      simp only [encodeStream, encodeFrames_cons, List.append_assoc, List.get_eq_getElem]
    obtain ⟨rc', htook, hserver⟩ := ixServer_frame h.took.steady _ (hpending.trans hsplit)
    refine ⟨hlt, rc', ?_, hserver⟩
    have htrans := h.took.trans htook
    rwa [List.get_eq_getElem, List.take_concat_get' _ _ hlt] at htrans
  · right
    rw [hall, List.drop_length] at hpending
    have hlast : encodeStream [] code ++ later = exitLine code ++ lf :: later := by
      simp [encodeStream]
    obtain ⟨rc', htook, hserver⟩ := ixServer_exit h.took.steady (hpending.trans hlast)
    refine ⟨hall, rc', ?_, hserver⟩
    have htrans := h.took.trans htook
    rwa [hall, List.take_length, List.append_nil] at htrans

/-! ## Whole runs -/

/-- The loop after the turns it has taken. -/
structure IxRun (base : Bytes) (rc : Rc) (fs : List Frame) (code : ℕ) (later : Bytes)
    (turns : List IxTurn) (st : IxState) : Prop where
  types : IxTyped base turns st
  hears : IxHeard rc fs code later turns st
  once : interrupts turns ≤ 1

/-- How the loop ends: with the code of the X line when a turn reads it, at a
second interrupt, or at a signal that breaks a read of the session. -/
inductive IxEnd (base : Bytes) (rc : Rc) (fs : List Frame) (code : ℕ) (later : Bytes)
    (played : List IxTurn) : List IxTurn → Option ℤ × IxState → Prop
  | going {st : IxState} (run : IxRun base rc fs code later played st) :
      IxEnd base rc fs code later played [] (none, st)
  | exit {st : IxState} (unplayed : List IxTurn) (types : IxTyped base played st)
      (once : interrupts played ≤ 1) (count : heard played = fs.length + 1)
      (took : rc.Took st.rc fs later) :
      IxEnd base rc fs code later played unplayed (some ((code % 256 : ℕ) : ℤ), st)
  | abort {st : IxState} (t : IxTurn) (unplayed : List IxTurn)
      (run : IxRun base rc fs code later played st) (first : interrupts played = 1)
      (second : t.interrupt = true) :
      IxEnd base rc fs code later played (t :: unplayed) (some (-1), st)
  | broken {st : IxState} (before : List IxTurn) (t : IxTurn) (unplayed : List IxTurn)
      (last : played = before ++ [t]) (broke : t.broken = true)
      (types : IxTyped base played st) (once : interrupts played ≤ 1)
      (hears : IxHeard rc fs code later before st) :
      IxEnd base rc fs code later played unplayed (some (-1), st)

theorem IxEnd.sent
    {base : Bytes} {rc : Rc} {fs : List Frame} {code : ℕ} {later : Bytes}
    {played unplayed : List IxTurn} {r : Option ℤ × IxState}
    (h : IxEnd base rc fs code later played unplayed r) :
    r.2.chan.sent = base ++ (typedFrames played).flatMap ClientFrame.encode := by
  cases h with
  | going run => exact run.types.sent
  | exit unplayed types => exact types.sent
  | abort t unplayed run => exact run.types.sent
  | broken before t unplayed last broke types => exact types.sent

theorem interrupted_iff (turns : List IxTurn) :
    interrupted turns = true ↔ 0 < interrupts turns := by
  simp [interrupted, interrupts, List.countP_pos_iff]

section

variable {base : Bytes} {rc : Rc} {fs : List Frame} {code : ℕ} {later : Bytes}
  {played : List IxTurn} {st : IxState}

/-- One turn: the loop goes on, or ends in one of the three ways. -/
theorem IxRun.turn (h : IxRun base rc fs code later played st) (t : IxTurn) :
    (∃ st', ixTurn st t = (none, st') ∧ IxRun base rc fs code later (played ++ [t]) st') ∨
      (∃ st', ixTurn st t = (some ((code % 256 : ℕ) : ℤ), st') ∧
        IxTyped base (played ++ [t]) st' ∧ interrupts (played ++ [t]) ≤ 1 ∧
          heard (played ++ [t]) = fs.length + 1 ∧ rc.Took st'.rc fs later) ∨
      (ixTurn st t = (some (-1), st) ∧ interrupts played = 1 ∧ t.interrupt = true) ∨
      (∃ st', ixTurn st t = (some (-1), st') ∧ t.broken = true ∧
        IxTyped base (played ++ [t]) st' ∧ interrupts (played ++ [t]) ≤ 1 ∧
          IxHeard rc fs code later played st') := by
  by_cases hk : t.interrupt = true ∧ st.sentK = true
  · right; right; left
    have hearlier := hk.2
    rw [h.types.sentK, interrupted_iff] at hearlier
    have hone := h.once
    refine ⟨?_, by omega, hk.1⟩
    rw [ixTurn, if_pos hk.1, ixInterrupt, if_pos hk.2]
    rfl
  obtain ⟨st', htyped, hrc, hturn⟩ := h.types.turn hk
  have honce : interrupts (played ++ [t]) ≤ 1 := by
    have hone := h.once
    rw [interrupts_snoc]
    cases hint : t.interrupt with
    | false => simpa using hone
    | true =>
        have hnone : ¬ 0 < interrupts played := by
          rw [← interrupted_iff, ← h.types.sentK]
          exact fun hs => hk ⟨hint, hs⟩
        rw [Bool.toNat_true]
        omega
  have hheard : IxHeard rc fs code later played st' := ⟨h.hears.count, hrc ▸ h.hears.took⟩
  have hcount := heard_snoc played t
  rw [hturn]
  cases hsess : t.sess with
  | false =>
      left
      rw [hsess, Bool.toNat_false, Nat.add_zero] at hcount
      refine ⟨st', if_neg Bool.false_ne_true, htyped, ?_, honce⟩
      exact ⟨by rw [hcount]; exact hheard.count, by rw [hcount]; exact hheard.took⟩
  | true =>
      rw [hsess, Bool.toNat_true] at hcount
      rw [if_pos rfl]
      cases hsignal : t.signal with
      | true =>
          right; right; right
          have hbroken : t.broken = true := by
            rw [IxTurn.broken, hsess, hsignal]
            rfl
          exact ⟨st', rfl, hbroken, htyped, honce, hheard⟩
      | false =>
          rcases hheard.server with ⟨hlt, rc', htook, hserver⟩ | ⟨hall, rc', htook, hserver⟩
          · left
            refine ⟨{ st' with rc := rc' }, hserver,
              ⟨htyped.steady, htyped.sent, htyped.stdinOpen, htyped.sentK⟩, ?_, honce⟩
            exact ⟨by rw [hcount]; omega, by rw [hcount]; exact htook⟩
          · right; left
            refine ⟨{ st' with rc := rc' }, hserver,
              ⟨htyped.steady, htyped.sent, htyped.stdinOpen, htyped.sentK⟩, honce, ?_, htook⟩
            rw [hcount, hall]

theorem IxRun.loop (h : IxRun base rc fs code later played st) (turns : List IxTurn) :
    ∃ before after, turns = before ++ after ∧
      IxEnd base rc fs code later (played ++ before) after (ixLoop st turns) := by
  induction turns generalizing played st with
  | nil =>
      refine ⟨[], [], rfl, ?_⟩
      rw [List.append_nil]
      exact .going h
  | cons t turns ih =>
      rw [ixLoop]
      rcases h.turn t with ⟨st', hturn, hrun⟩ |
        ⟨st', hturn, htyped, honce, hcount, htook⟩ | ⟨hturn, hfirst, hsecond⟩ |
        ⟨st', hturn, hbroken, htyped, honce, hheard⟩
      · obtain ⟨before, after, hsplit, hend⟩ := ih hrun
        refine ⟨t :: before, after, by rw [hsplit]; rfl, ?_⟩
        rw [List.append_assoc] at hend
        rw [hturn]
        exact hend
      · refine ⟨[t], turns, rfl, ?_⟩
        rw [hturn]
        exact .exit turns htyped honce hcount htook
      · refine ⟨[], t :: turns, rfl, ?_⟩
        rw [hturn, List.append_nil]
        exact .abort t turns h hfirst hsecond
      · refine ⟨[t], turns, rfl, ?_⟩
        rw [hturn]
        exact .broken played t turns rfl hbroken htyped honce hheard

end

theorem typedFrames_fromClient (turns : List IxTurn) :
    ∀ f ∈ typedFrames turns, f.fromClient = true := by
  have hreads : ∀ f ∈ (stdinReads turns).map StdinRead.frame, f.fromClient = true := by
    intro f hf
    obtain ⟨r, -, rfl⟩ := List.mem_map.mp hf
    cases r with
    | ended => rfl
    | data bytes hne hfits => simpa [StdinRead.frame, ClientFrame.fromClient] using hfits
  intro f hf
  unfold typedFrames at hf
  dsimp only at hf
  split_ifs at hf
  · rcases List.mem_append.mp hf with hf | hf
    · exact hreads f (List.mem_of_mem_take hf)
    · rcases List.mem_cons.mp hf with rfl | hf
      · rfl
      · exact hreads f (List.mem_of_mem_drop hf)
  · exact hreads f hf

/-- The request is on its way. -/
theorem ixClient_typed
    {c : Chan} (hc : c.Steady) (rc : Rc) (cmd : Bytes) :
    ∃ st, IxTyped (c.sent ++ (requestLine (ascii "RUNI ") cmd ++ [lf])) [] st ∧ st.rc = rc ∧
      ∀ turns, ixClient c rc cmd turns = ixLoop st turns := by
  have hput := wrote_lioPutLine hc (requestLine (ascii "RUNI ") cmd)
  refine ⟨⟨(lioPutLine c (requestLine (ascii "RUNI ") cmd)).2, rc, true, false⟩,
    ⟨hput.steady, ?_, rfl, rfl⟩, rfl, fun turns => ?_⟩
  · rw [hput.sent]
    simp [typedFrames, stdinReads, upToEnd, interrupted]
  · rw [ixClient, if_pos hput.ok]

/-- Nothing else has happened yet. -/
theorem ixClient_start
    {c : Chan} (hc : c.Steady) {rc : Rc} (hrc : rc.Steady) {fs : List Frame} {code : ℕ}
    {later : Bytes} (hpending : rc.inp.pending = encodeStream fs code ++ later) (cmd : Bytes) :
    ∃ st, IxRun (c.sent ++ (requestLine (ascii "RUNI ") cmd ++ [lf])) rc fs code later [] st ∧
      ∀ turns, ixClient c rc cmd turns = ixLoop st turns := by
  obtain ⟨st, htyped, hst, hloop⟩ := ixClient_typed hc rc cmd
  refine ⟨st, ⟨htyped, ⟨Nat.zero_le _, ?_⟩, Nat.zero_le _⟩, hloop⟩
  rw [hst]
  refine ⟨hrc, hpending, fun hmb => ?_⟩
  exact ⟨hmb, by simp [heard], by simp [heard]⟩

/-- Over a whole answer of the daemon and with no failed write: for the turns
that are taken, what is typed has been sent behind the request, in frames a
daemon accepts, and as many frames as were read are written out; the loop goes
on until it reads the X line, whose code it returns, or there is a second
interrupt or one that breaks a read of the session. -/
theorem ix_client_exact
    {c : Chan} (hc : c.Steady) {rc : Rc} (hrc : rc.Steady) {fs : List Frame} {code : ℕ}
    {later : Bytes} (hpending : rc.inp.pending = encodeStream fs code ++ later)
    (cmd : Bytes) (turns : List IxTurn) :
    ∃ played unplayed, turns = played ++ unplayed ∧
      IxEnd (c.sent ++ (requestLine (ascii "RUNI ") cmd ++ [lf])) rc fs code later played
        unplayed (ixClient c rc cmd turns) ∧
      ∀ f ∈ typedFrames played, f.fromClient = true := by
  obtain ⟨st, hstart, hloop⟩ := ixClient_start hc hrc hpending cmd
  obtain ⟨before, after, hsplit, hend⟩ := hstart.loop turns
  rw [hloop]
  exact ⟨before, after, hsplit, hend, typedFrames_fromClient before⟩

def listening : IxTurn := ⟨false, some ⟨none, true, false⟩⟩

/-- A byte is typed and then an interrupt, while the command still writes. -/
def impatient : List IxTurn :=
  [⟨false, some ⟨some (.data (ascii "a") (by decide) (by decide)), false, false⟩⟩, ⟨true, none⟩,
    listening, listening]

def lastWords : List Frame := [⟨.out, ascii "b", by decide, by decide⟩]

def ixSession : Rc := ⟨⟨[], encodeStream lastWords 3⟩, ⟨[], []⟩, ⟨[], []⟩, none⟩

theorem ix_client_exact_interrupted :
    ∃ played unplayed, impatient = played ++ unplayed ∧
      IxEnd (requestLine (ascii "RUNI ") (ascii "c") ++ [lf]) ixSession lastWords 3 [] played
        unplayed (ixClient ⟨.tcp, ⟨[], []⟩⟩ ixSession (ascii "c") impatient) ∧
      ∀ f ∈ typedFrames played, f.fromClient = true := by
  have hc : Chan.Steady ⟨.tcp, ⟨[], []⟩⟩ := by decide
  have hrc : ixSession.Steady := ⟨by decide, by decide, by decide⟩
  have hpending : ixSession.inp.pending = encodeStream lastWords 3 ++ [] :=
    (List.append_nil _).symm
  exact ix_client_exact hc hrc hpending (ascii "c") impatient

end GrandCross
