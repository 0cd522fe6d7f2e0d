import GrandCross.WireFormat

/-!
# The client's output stream

`rc_stream` in `remote.c` reads O and E frames and writes their payloads to
the local stdout and stderr until an X line ends the stream.  A well-formed
stream is a list of frames and an exit code; the two theorems say what the
client makes of a whole one and of one cut at any byte.
-/

namespace GrandCross

open CText
open Transfer

def mbLine : ℕ := 2 * lineMax

/-- Reverse path mapping of the output: `pm_back_line` on a line, and the two
line accumulators. -/
structure MapBack where
  back : Bytes → Bytes
  acc1 : Bytes
  acc2 : Bytes

/-- The receiving half of a client connection, its two local file
descriptors and the state of `--mapback`. -/
structure Rc where
  inp : Source
  fd1 : Sink
  fd2 : Sink
  mb : Option MapBack

def writeFd (fd : Sink) (buf : Bytes) : Bool × Sink := fd.writeAll buf

def mbEmitLine (back : Bytes → Bytes) (fd : Sink) (acc : Bytes)
    (newline : Bool) : Bool × Sink :=
  let w := writeFd fd (back (cstr acc))
  if w.1 && newline then writeFd w.2 [lf] else w

def mbFeed (back : Bytes → Bytes) : Sink → Bytes → Bytes → Bool × Sink × Bytes
  | fd, acc, [] => (true, fd, acc)
  | fd, acc, b :: rest =>
      if b = lf then
        let w := mbEmitLine back fd acc true
        if w.1 then mbFeed back w.2 [] rest else (false, w.2, acc)
      else if mbLine - 1 ≤ acc.length then
        let w := writeFd fd acc
        if w.1 then mbFeed back w.2 [b] rest else (false, w.2, acc)
      else mbFeed back fd (acc ++ [b]) rest

def mbFlush (rc : Rc) : Rc :=
  match rc.mb with
  | none => rc
  | some mb =>
      { rc with
        fd1 := if 0 < mb.acc1.length then (mbEmitLine mb.back rc.fd1 mb.acc1 false).2
          else rc.fd1
        fd2 := if 0 < mb.acc2.length then (mbEmitLine mb.back rc.fd2 mb.acc2 false).2
          else rc.fd2
        mb := some { mb with acc1 := [], acc2 := [] } }

def rcWrite (rc : Rc) (s : Stream) (data : Bytes) : Bool × Rc :=
  match s, rc.mb with
  | .out, none =>
      ((writeFd rc.fd1 data).1, { rc with fd1 := (writeFd rc.fd1 data).2 })
  | .err, none =>
      ((writeFd rc.fd2 data).1, { rc with fd2 := (writeFd rc.fd2 data).2 })
  | .out, some mb =>
      let w := mbFeed mb.back rc.fd1 mb.acc1 data
      (w.1, { rc with fd1 := w.2.1, mb := some { mb with acc1 := w.2.2 } })
  | .err, some mb =>
      let w := mbFeed mb.back rc.fd2 mb.acc2 data
      (w.1, { rc with fd2 := w.2.1, mb := some { mb with acc2 := w.2.2 } })

def rcPayload (rc : Rc) (s : Stream) (num : Bytes) : Option ℤ × Rc :=
  let n := atol num
  if n < 1 ∨ (wireFrameMax : ℤ) < n then (some (-1), rc)
  else
    match rc.inp.readN n.toNat with
    | none => (some (-1), rc)
    | some (data, inp) =>
        let w := rcWrite { rc with inp := inp } s data
        if w.1 then (none, w.2) else (some (-1), w.2)

/-- `rc_out_frame`: `none` to go on, the code when the stream is over. -/
def rcOutFrame (rc : Rc) (line : Bytes) : Option ℤ × Rc :=
  match line with
  | 79 :: 32 :: num => rcPayload rc .out num
  | 69 :: 32 :: num => rcPayload rc .err num
  | 88 :: 32 :: num => (some (atol num % 256), mbFlush rc)
  | _ => (some (-1), mbFlush rc)

/-- Every turn of `rc_stream` reads at least the LF of a header, so the
bytes on hand bound the number of turns. -/
def rcStreamLoop : ℕ → Rc → ℤ × Rc
  | 0, rc => (-1, rc)
  | fuel + 1, rc =>
      match lioGetLine lineMax rc.inp with
      | (.ok line, inp) =>
          match rcOutFrame { rc with inp := inp } (cstr line) with
          | (some code, rc') => (code, rc')
          | (none, rc') => rcStreamLoop fuel rc'
      | (_, inp) => (-1, { rc with inp := inp })

def rcStream (rc : Rc) : ℤ × Rc :=
  rcStreamLoop (rc.inp.pending.length + 1) rc

/-! ## Whole streams and cut streams -/

structure Rc.Steady (rc : Rc) : Prop where
  inp : rc.inp.Steady
  fd1 : rc.fd1.Steady
  fd2 : rc.fd2.Steady

/-- `rc'` is `rc` with the frames `fs` taken and `rest` still to be read;
without mapping their payloads are written out as they are. -/
structure Rc.Took (rc rc' : Rc) (fs : List Frame) (rest : Bytes) :
    Prop where
  steady : rc'.Steady
  pending : rc'.inp.pending = rest
  plain : rc.mb = none → rc'.mb = none ∧
    rc'.fd1.taken = rc.fd1.taken ++ payload .out fs ∧
    rc'.fd2.taken = rc.fd2.taken ++ payload .err fs

theorem Rc.Took.trans
    {rc rc' rc'' : Rc} {fs gs : List Frame} {rest rest' : Bytes}
    (h : rc.Took rc' fs rest) (h' : rc'.Took rc'' gs rest') :
    rc.Took rc'' (fs ++ gs) rest' := by
  refine ⟨h'.steady, h'.pending, fun hmb => ?_⟩
  obtain ⟨hmb', hout, herr⟩ := h.plain hmb
  obtain ⟨hmb'', hout', herr'⟩ := h'.plain hmb'
  exact ⟨hmb'', by rw [hout', hout, payload_append, List.append_assoc],
    by rw [herr', herr, payload_append, List.append_assoc]⟩

theorem mbEmitLine_steady
    (back : Bytes → Bytes) {fd : Sink} (hfd : fd.Steady) (acc : Bytes)
    (newline : Bool) :
    (mbEmitLine back fd acc newline).1 = true ∧
      (mbEmitLine back fd acc newline).2.Steady := by
  obtain ⟨hok, _, hsteady⟩ := Sink.writeAll_steady hfd (back (cstr acc))
  obtain ⟨hok', _, hsteady'⟩ := Sink.writeAll_steady hsteady [lf]
  unfold mbEmitLine writeFd
  cases newline <;> simp [hok, hok', hsteady, hsteady']

theorem mbFeed_steady
    (back : Bytes → Bytes) (fd : Sink) (hfd : fd.Steady) (acc data : Bytes) :
    (mbFeed back fd acc data).1 = true ∧
      (mbFeed back fd acc data).2.1.Steady := by
  induction data generalizing fd acc with
  | nil => exact ⟨rfl, hfd⟩
  | cons b data ih =>
      rw [mbFeed]
      split_ifs with hlf hlong
      · obtain ⟨hok, hsteady⟩ := mbEmitLine_steady back hfd acc true
        simpa [hok] using ih _ hsteady []
      · obtain ⟨hok, _, hsteady⟩ := Sink.writeAll_steady hfd acc
        simpa [writeFd, hok] using ih _ hsteady [b]
      · exact ih fd hfd (acc ++ [b])

theorem rcWrite_inp (rc : Rc) (s : Stream) (data : Bytes) :
    (rcWrite rc s data).2.inp = rc.inp := by
  unfold rcWrite
  split <;> rfl

theorem rcWrite_steady
    {rc : Rc} (hrc : rc.Steady) (f : Frame) :
    (rcWrite rc f.stream f.data).1 = true ∧
      rc.Took (rcWrite rc f.stream f.data).2 [f] rc.inp.pending := by
  obtain ⟨stream, data, hpos, hfits⟩ := f
  cases hmb : rc.mb with
  | none =>
      cases stream with
      | out =>
          obtain ⟨hok, htaken, hsteady⟩ := Sink.writeAll_steady hrc.fd1 data
          simp only [rcWrite, hmb, writeFd]
          exact ⟨hok, ⟨hrc.inp, hsteady, hrc.fd2⟩, rfl, fun _ =>
            ⟨rfl, by simp [htaken, payload], by simp [payload]⟩⟩
      | err =>
          obtain ⟨hok, htaken, hsteady⟩ := Sink.writeAll_steady hrc.fd2 data
          simp only [rcWrite, hmb, writeFd]
          exact ⟨hok, ⟨hrc.inp, hrc.fd1, hsteady⟩, rfl, fun _ =>
            ⟨rfl, by simp [payload], by simp [htaken, payload]⟩⟩
  | some mb =>
      cases stream with
      | out =>
          obtain ⟨hok, hsteady⟩ :=
            mbFeed_steady mb.back rc.fd1 hrc.fd1 mb.acc1 data
          simp only [rcWrite, hmb]
          exact ⟨hok, ⟨hrc.inp, hsteady, hrc.fd2⟩, rfl, by simp [hmb]⟩
      | err =>
          obtain ⟨hok, hsteady⟩ :=
            mbFeed_steady mb.back rc.fd2 hrc.fd2 mb.acc2 data
          simp only [rcWrite, hmb]
          exact ⟨hok, ⟨hrc.inp, hrc.fd1, hsteady⟩, rfl, by simp [hmb]⟩

theorem mbFlush_took
    {rc : Rc} (hrc : rc.Steady) : rc.Took (mbFlush rc) [] rc.inp.pending := by
  cases hmb : rc.mb with
  | none =>
      have hflush : mbFlush rc = rc := by simp [mbFlush, hmb]
      rw [hflush]
      exact ⟨hrc, rfl, fun _ => by simp [hmb]⟩
  | some mb =>
      simp only [mbFlush, hmb]
      refine ⟨⟨hrc.inp, ?_, ?_⟩, rfl, by simp [hmb]⟩
      · dsimp only
        split_ifs
        · exact (mbEmitLine_steady mb.back hrc.fd1 mb.acc1 false).2
        · exact hrc.fd1
      · dsimp only
        split_ifs
        · exact (mbEmitLine_steady mb.back hrc.fd2 mb.acc2 false).2
        · exact hrc.fd2

theorem rcOutFrame_header
    (rc : Rc) (f : Frame) :
    rcOutFrame rc (hdrText f.stream.tag f.data.length) =
      match rc.inp.readN f.data.length with
      | none => (some (-1), rc)
      | some (data, inp) =>
          let w := rcWrite { rc with inp := inp } f.stream data
          if w.1 then (none, w.2) else (some (-1), w.2) := by
  have hlen : atol (decimal f.data.length) = f.data.length :=
    atol_decimal (f.fits.trans (by decide))
  have hbound : ¬ (((f.data.length : ℕ) : ℤ) < 1 ∨
      (wireFrameMax : ℤ) < ((f.data.length : ℕ) : ℤ)) := by
    have := f.pos
    have := f.fits
    omega
  have hpay : rcOutFrame rc (hdrText f.stream.tag f.data.length) =
      rcPayload rc f.stream (decimal f.data.length) := by
    cases f.stream <;> rfl
  rw [hpay]
  unfold rcPayload
  rw [hlen]
  dsimp only
  rw [if_neg hbound, Int.toNat_natCast]

theorem lioGetLine_header
    {inp : Source} (hinp : inp.Steady) (f : Frame) {rest : Bytes}
    (hpending : inp.pending = f.encode ++ rest) :
    ∃ inp' : Source, inp'.Steady ∧ inp'.pending = f.data ++ rest ∧
      lioGetLine lineMax inp =
        (.ok (hdrText f.stream.tag f.data.length), inp') := by
  refine lioGetLine_clean lineMax hinp (by
      simp [hpending, Frame.encode, frameHdr_eq])
    (hdrText_clean f.stream.tag_ne.1 f.stream.tag_ne.2.1 _) ?_
  have := hdrText_length f.stream.tag f.fits
  unfold lineMax
  omega

theorem rcStreamLoop_turn
    {rc : Rc} (hinp : rc.inp.Steady) (f : Frame) {rest : Bytes}
    (hpending : rc.inp.pending = f.encode ++ rest) (fuel : ℕ) :
    ∃ inp : Source, inp.Steady ∧ inp.pending = rest ∧
      rcStreamLoop (fuel + 1) rc =
        let w := rcWrite { rc with inp := inp } f.stream f.data
        if w.1 then rcStreamLoop fuel w.2 else (-1, w.2) := by
  obtain ⟨inp, hsteady, hdata, hline⟩ := lioGetLine_header hinp f hpending
  obtain ⟨inp', hsteady', hrest, hread⟩ :=
    Source.readN_steady hsteady (n := f.data.length) (by simp [hdata])
  refine ⟨inp', hsteady', by simp [hrest, hdata], ?_⟩
  rw [rcStreamLoop, hline]
  dsimp only
  rw [cstr_hdrText f.stream.tag_ne.2.2, rcOutFrame_header]
  dsimp only
  rw [hread, hdata, List.take_left]
  dsimp only
  split_ifs <;> rfl

theorem rcStreamLoop_frame
    {rc : Rc} (hrc : rc.Steady) (f : Frame) {rest : Bytes}
    (hpending : rc.inp.pending = f.encode ++ rest) (fuel : ℕ) :
    ∃ rc', rc.Took rc' [f] rest ∧
      rcStreamLoop (fuel + 1) rc = rcStreamLoop fuel rc' := by
  obtain ⟨inp, hsteady, hrest, hturn⟩ :=
    rcStreamLoop_turn hrc.inp f hpending fuel
  have hrc' : Rc.Steady { rc with inp := inp } :=
    ⟨hsteady, hrc.fd1, hrc.fd2⟩
  obtain ⟨hok, htook⟩ := rcWrite_steady hrc' f
  refine ⟨(rcWrite { rc with inp := inp } f.stream f.data).2, ?_, ?_⟩
  · exact ⟨htook.steady, htook.pending.trans hrest, htook.plain⟩
  · rw [hturn]
    dsimp only
    rw [if_pos hok]

theorem rcStreamLoop_last
    {rc : Rc} (hinp : rc.inp.Steady) {code : ℕ} {rest : Bytes}
    (hpending : rc.inp.pending = exitLine code ++ lf :: rest) (fuel : ℕ) :
    ∃ inp : Source, inp.Steady ∧ inp.pending = rest ∧
      rcStreamLoop (fuel + 1) rc =
        (((code % 256 : ℕ) : ℤ), mbFlush { rc with inp := inp }) := by
  obtain ⟨inp, hsteady, hrest, hline⟩ :=
    lioGetLine_clean lineMax hinp hpending (exitLine_clean code)
      (by have := exitLine_length code; unfold lineMax; omega)
  have hmod : code % 256 < 256 := Nat.mod_lt code (by omega)
  have hatol : atol (decimal (code % 256)) = ((code % 256 : ℕ) : ℤ) :=
    atol_decimal ((Nat.le_of_lt hmod).trans (by decide))
  have hcode : ((code % 256 : ℕ) : ℤ) % 256 = ((code % 256 : ℕ) : ℤ) := by
    omega
  refine ⟨inp, hsteady, hrest, ?_⟩
  rw [rcStreamLoop, hline]
  dsimp only
  rw [exitLine_eq, cstr_hdrText (by decide)]
  simp only [hdrText, rcOutFrame, sp]
  rw [hatol, hcode]

theorem rcStreamLoop_exit
    {rc : Rc} (hrc : rc.Steady) {code : ℕ} {rest : Bytes}
    (hpending : rc.inp.pending = exitLine code ++ lf :: rest) (fuel : ℕ) :
    ∃ rc', rc.Took rc' [] rest ∧
      rcStreamLoop (fuel + 1) rc = (((code % 256 : ℕ) : ℤ), rc') := by
  obtain ⟨inp, hinp, hrest, hturn⟩ := rcStreamLoop_last hrc.inp hpending fuel
  have hrc' : Rc.Steady { rc with inp := inp } := ⟨hinp, hrc.fd1, hrc.fd2⟩
  have htook := mbFlush_took hrc'
  exact ⟨_, ⟨htook.steady, htook.pending.trans hrest, htook.plain⟩, hturn⟩

theorem rcStreamLoop_complete
    {rc : Rc} (hrc : rc.Steady) (fs : List Frame) (code : ℕ) {rest : Bytes}
    (hpending : rc.inp.pending = encodeStream fs code ++ rest)
    (fuel : ℕ) (hfuel : fs.length < fuel) :
    ∃ rc', rc.Took rc' fs rest ∧
      rcStreamLoop fuel rc = (((code % 256 : ℕ) : ℤ), rc') := by
  induction fs generalizing rc fuel with
  | nil =>
      obtain ⟨fuel, rfl⟩ : ∃ k, fuel = k + 1 := ⟨fuel - 1, by simp at hfuel; omega⟩
      exact rcStreamLoop_exit hrc (by simpa [encodeStream] using hpending) fuel
  | cons f fs ih =>
      obtain ⟨fuel, rfl⟩ : ∃ k, fuel = k + 1 := ⟨fuel - 1, by simp at hfuel; omega⟩
      have hsplit : rc.inp.pending =
          f.encode ++ (encodeStream fs code ++ rest) := by
        simpa [encodeStream] using hpending
      obtain ⟨rc₁, htook, hturn⟩ := rcStreamLoop_frame hrc f hsplit fuel
      obtain ⟨rc', htook', hloop⟩ :=
        ih htook.steady htook.pending fuel (by simpa using hfuel)
      exact ⟨rc', htook.trans htook', by rw [hturn, hloop]⟩

theorem length_le_encodeFrames (fs : List Frame) :
    fs.length ≤ (encodeFrames fs).length := by
  induction fs with
  | nil => simp
  | cons f fs ih =>
      have hpos := f.pos
      simp only [encodeFrames_cons, Frame.encode, List.length_cons,
        List.length_append]
      omega

/-- A whole stream is written out exactly, and its code is the result. -/
theorem rcStream_complete
    {rc : Rc} (hrc : rc.Steady) (fs : List Frame) (code : ℕ) {rest : Bytes}
    (hpending : rc.inp.pending = encodeStream fs code ++ rest) :
    ∃ rc', rc.Took rc' fs rest ∧
      rcStream rc = (((code % 256 : ℕ) : ℤ), rc') := by
  refine rcStreamLoop_complete hrc fs code hpending _ ?_
  rw [hpending]
  have := length_le_encodeFrames fs
  simp only [encodeStream, List.length_append]
  omega

/-! ### A stream that has come to its end -/

theorem rcWrite_ok
    {rc : Rc} (hmb : rc.mb = none) {f : Frame}
    (hok : (rcWrite rc f.stream f.data).1 = true) :
    (rcWrite rc f.stream f.data).2.mb = none ∧
      (rcWrite rc f.stream f.data).2.fd1.taken =
        rc.fd1.taken ++ payload .out [f] ∧
      (rcWrite rc f.stream f.data).2.fd2.taken =
        rc.fd2.taken ++ payload .err [f] := by
  have hall : ∀ fd : Sink, (writeFd fd f.data).1 = true →
      (writeFd fd f.data).2.taken = fd.taken ++ f.data := by
    intro fd hfd
    obtain ⟨done, rest, hsplit, htaken, hrest⟩ :=
      Sink.writeLoop_prefix fd.plan fd.taken f.data
    rw [hrest hfd, List.append_nil] at hsplit
    rw [hsplit]
    rw [hsplit] at htaken
    exact htaken
  obtain ⟨stream, data, hpos, hfits⟩ := f
  cases stream with
  | out =>
      simp only [rcWrite, hmb] at hok ⊢
      exact ⟨trivial, by simp [hall _ hok, payload], by simp [payload]⟩
  | err =>
      simp only [rcWrite, hmb] at hok ⊢
      exact ⟨trivial, by simp [payload], by simp [hall _ hok, payload]⟩

theorem rcStreamLoop_nonneg
    {rc : Rc} (hinp : rc.inp.Steady) (fs : List Frame) (code : ℕ) {rest : Bytes}
    (hpending : rc.inp.pending = encodeStream fs code ++ rest) (fuel : ℕ)
    (hcode : 0 ≤ (rcStreamLoop fuel rc).1) :
    (rcStreamLoop fuel rc).1 = ((code % 256 : ℕ) : ℤ) ∧
      (rc.mb = none →
        (rcStreamLoop fuel rc).2.fd1.taken = rc.fd1.taken ++ payload .out fs ∧
        (rcStreamLoop fuel rc).2.fd2.taken = rc.fd2.taken ++ payload .err fs) := by
  induction fs generalizing rc fuel with
  | nil =>
      cases fuel with
      | zero => simp [rcStreamLoop] at hcode
      | succ fuel =>
          have hline : rc.inp.pending = exitLine code ++ lf :: rest := by
            simpa [encodeStream] using hpending
          obtain ⟨inp, _, _, hturn⟩ := rcStreamLoop_last hinp hline fuel
          rw [hturn]
          refine ⟨rfl, ?_⟩
          intro hmb
          simp [mbFlush, hmb]
  | cons f fs ih =>
      cases fuel with
      | zero => simp [rcStreamLoop] at hcode
      | succ fuel =>
          have hsplit : rc.inp.pending =
              f.encode ++ (encodeStream fs code ++ rest) := by
            simpa [encodeStream] using hpending
          obtain ⟨inp, hsteady, hrest, hturn⟩ :=
            rcStreamLoop_turn hinp f hsplit fuel
          rw [hturn] at hcode ⊢
          dsimp only at hcode ⊢
          split_ifs at hcode ⊢ with hok
          · let read : Rc := { rc with inp := inp }
            let wrote : Rc := (rcWrite read f.stream f.data).2
            have hinp' : wrote.inp = inp := rcWrite_inp read f.stream f.data
            have hsteady' : wrote.inp.Steady := by
              rw [hinp']
              exact hsteady
            have hrest' : wrote.inp.pending = encodeStream fs code ++ rest := by
              rw [hinp']
              exact hrest
            have hloop := ih hsteady' hrest' fuel hcode
            refine ⟨hloop.1, ?_⟩
            intro hmb
            have hread : read.mb = none := hmb
            obtain ⟨hmb', hout, herr⟩ := rcWrite_ok hread hok
            obtain ⟨hout', herr'⟩ := hloop.2 hmb'
            constructor
            · rw [hout', hout, List.append_assoc, ← payload_append]
              rfl
            · rw [herr', herr, List.append_assoc, ← payload_append]
              rfl
          · simp at hcode

theorem rcStream_nonneg
    {rc : Rc} (hinp : rc.inp.Steady) (fs : List Frame) (code : ℕ) {rest : Bytes}
    (hpending : rc.inp.pending = encodeStream fs code ++ rest)
    (hcode : 0 ≤ (rcStream rc).1) :
    (rcStream rc).1 = ((code % 256 : ℕ) : ℤ) ∧
      (rc.mb = none →
        (rcStream rc).2.fd1.taken = rc.fd1.taken ++ payload .out fs ∧
        (rcStream rc).2.fd2.taken = rc.fd2.taken ++ payload .err fs) :=
  rcStreamLoop_nonneg hinp fs code hpending _ hcode

/-! ### A stream cut short -/

theorem lioGetLoop_eio
    (size : ℕ) (plan : List (Option ℕ)) (pending buf : Bytes)
    (hclean : lf ∉ pending) (hsize : buf.length + pending.length < size) :
    (lioGetLoop size plan pending buf).1 = .eio := by
  induction pending generalizing plan buf with
  | nil => rfl
  | cons b pending ih =>
      have hb : b ≠ lf := fun h => hclean (by simp [h])
      have hrest : lf ∉ pending := fun h => hclean (by simp [h])
      simp only [List.length_cons] at hsize
      rw [lioGetLoop]
      split_ifs with hhead
      · rfl
      · by_cases hcr : b = cr
        · simp only [lioGetByte, hcr, if_true]
          exact ih plan.tail buf hrest (by omega)
        · rw [lioGetByte_clean hcr hb (by omega)]
          exact ih plan.tail (buf ++ [b]) hrest (by
            simp only [List.length_append, List.length_singleton]; omega)

theorem rcStreamLoop_eio
    {rc : Rc} (hline : (lioGetLine lineMax rc.inp).1 = .eio) (fuel : ℕ) :
    (rcStreamLoop fuel rc).1 = -1 := by
  cases fuel with
  | zero => rfl
  | succ fuel =>
      rw [rcStreamLoop]
      cases hres : lioGetLine lineMax rc.inp with
      | mk res inp =>
          rw [hres] at hline
          dsimp only at hline
          subst hline
          rfl

theorem rcStreamLoop_cut_line
    {rc : Rc} {line rest : Bytes} (hclean : lf ∉ line)
    (hsize : line.length < lineMax) (hcut : rc.inp.pending ++ rest = line)
    (fuel : ℕ) : (rcStreamLoop fuel rc).1 = -1 := by
  apply rcStreamLoop_eio
  unfold lioGetLine
  apply lioGetLoop_eio
  · intro hmem
    exact hclean (hcut ▸ List.mem_append_left rest hmem)
  · have hlen := congrArg List.length hcut
    simp only [List.length_append] at hlen
    simp only [List.length_nil]
    omega

theorem rcStreamLoop_cut_data
    {rc : Rc} (hinp : rc.inp.Steady) (f : Frame) {part rest : Bytes}
    (hpart : part ++ rest = f.data) (hrest : rest ≠ [])
    (hpending : rc.inp.pending = frameHdr f.stream.tag f.data.length ++ part)
    (fuel : ℕ) : (rcStreamLoop fuel rc).1 = -1 := by
  cases fuel with
  | zero => rfl
  | succ fuel =>
      have hlen := congrArg List.length hpart
      have hpos := List.length_pos_iff.mpr hrest
      simp only [List.length_append] at hlen
      have hsplit : rc.inp.pending =
          hdrText f.stream.tag f.data.length ++ lf :: part := by
        simp [hpending, frameHdr_eq]
      obtain ⟨inp, _, hdata, hline⟩ :=
        lioGetLine_clean lineMax hinp hsplit
          (hdrText_clean f.stream.tag_ne.1 f.stream.tag_ne.2.1 _)
          (by
            have := hdrText_length f.stream.tag f.fits
            unfold lineMax
            omega)
      rw [rcStreamLoop, hline]
      dsimp only
      rw [cstr_hdrText f.stream.tag_ne.2.2, rcOutFrame_header]
      dsimp only
      have hshort : inp.readN f.data.length = none :=
        Source.readLoop_short _ _ _ _ (by rw [hdata]; omega)
      rw [hshort]

theorem append_cut_last
    {a b line : Bytes} {x : Byte} (h : a ++ b = line ++ [x]) (hb : b ≠ []) :
    ∃ init, a ++ init = line := by
  obtain ⟨init, y, rfl⟩ := (List.eq_nil_or_concat' b).resolve_left hb
  rw [← List.append_assoc] at h
  exact ⟨init, (List.append_inj' h rfl).1⟩

theorem rcStreamLoop_cut
    {rc : Rc} (hinp : rc.inp.Steady) (fs : List Frame) (code : ℕ) {rest : Bytes}
    (hrest : rest ≠ [])
    (hcut : rc.inp.pending ++ rest = encodeStream fs code) (fuel : ℕ) :
    (rcStreamLoop fuel rc).1 = -1 := by
  induction fs generalizing rc fuel with
  | nil =>
      -- the cut falls into the X line
      have hcut' : rc.inp.pending ++ rest = exitLine code ++ [lf] := by
        simpa [encodeStream] using hcut
      obtain ⟨init, hline⟩ := append_cut_last hcut' hrest
      have hsize := exitLine_length code
      exact rcStreamLoop_cut_line (exitLine_clean code).1
        (by unfold lineMax; omega) hline fuel
  | cons f fs ih =>
      have hsplit : rc.inp.pending ++ rest =
          f.encode ++ encodeStream fs code := by
        simpa [encodeStream] using hcut
      rcases List.append_eq_append_iff.mp hsplit with
        ⟨part, hframe, _⟩ | ⟨part, hpending, hmore⟩
      · -- the cut falls into this frame
        by_cases hpart : part = []
        · -- exactly behind it: the next turn finds the rest cut
          subst hpart
          cases fuel with
          | zero => rfl
          | succ fuel =>
              have hwhole : rc.inp.pending = f.encode ++ [] := by
                simpa using hframe.symm
              obtain ⟨inp, _, hrest, hturn⟩ :=
                rcStreamLoop_turn hinp f hwhole fuel
              rw [hturn]
              dsimp only
              split_ifs with hok
              · refine rcStreamLoop_eio ?_ fuel
                simp [lioGetLine, rcWrite_inp, hrest, lioGetLoop]
              · rfl
        · rw [Frame.encode] at hframe
          rcases List.append_eq_append_iff.mp hframe.symm with
            ⟨data, hhdr, _⟩ | ⟨data, hhdr, hdata⟩
          · by_cases hnil : data = []
            · subst hnil
              have hbare : rc.inp.pending =
                  frameHdr f.stream.tag f.data.length ++ [] := by
                simpa using hhdr.symm
              refine rcStreamLoop_cut_data hinp f
                (List.nil_append f.data) ?_ hbare fuel
              intro h
              have := f.pos
              simp [h] at this
            · -- within the header line
              rw [frameHdr_eq] at hhdr
              obtain ⟨init, hline⟩ := append_cut_last hhdr.symm hnil
              have hsize := hdrText_length f.stream.tag f.fits
              exact rcStreamLoop_cut_line
                (hdrText_clean f.stream.tag_ne.1 f.stream.tag_ne.2.1 _).1
                (by unfold lineMax; omega) hline fuel
          · exact rcStreamLoop_cut_data hinp f hdata.symm hpart hhdr fuel
      · -- this frame is whole
        cases fuel with
        | zero => rfl
        | succ fuel =>
            obtain ⟨inp, hsteady, hrest, hturn⟩ :=
              rcStreamLoop_turn hinp f hpending fuel
            rw [hturn]
            dsimp only
            split_ifs with hok
            · refine ih ?_ ?_ fuel
              · rw [rcWrite_inp]
                exact hsteady
              · rw [rcWrite_inp]
                dsimp only
                rw [hrest, hmore]
            · rfl

/-- A stream cut at any byte never looks finished. -/
theorem rcStream_cut
    {rc : Rc} (hinp : rc.inp.Steady) (fs : List Frame) (code : ℕ) {rest : Bytes}
    (hrest : rest ≠ [])
    (hcut : rc.inp.pending ++ rest = encodeStream fs code) :
    (rcStream rc).1 = -1 :=
  rcStreamLoop_cut hinp fs code hrest hcut _

end GrandCross
