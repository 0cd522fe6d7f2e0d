import GrandCross.ClientStream
import GrandCross.PathMap

/-!
# Output under `--mapback`

The output of a stream is cut into lines, each line goes through
`pm_back_line` as a C string, and a line that fills the accumulator is written
as it is.  What is still owed to a file descriptor does not depend on the
frames; without a remote prefix in the stream every byte is written exactly
when no line is cut by a NUL or by the bound of the replacement.
-/

namespace GrandCross

open CText
open Transfer

/-! ## What is written -/

/-- All that is written for the accumulated bytes and the rest of a stream. -/
def mbOut (back : Bytes → Bytes) : Bytes → Bytes → Bytes
  | acc, [] => if acc = [] then [] else back (cstr acc)
  | acc, b :: rest =>
      if b = lf then back (cstr acc) ++ lf :: mbOut back [] rest
      else if mbLine - 1 ≤ acc.length then acc ++ mbOut back [b] rest
      else mbOut back (acc ++ [b]) rest

theorem mbEmitLine_taken
    (back : Bytes → Bytes) {fd : Sink} (hfd : fd.Steady) (acc : Bytes) (newline : Bool) :
    (mbEmitLine back fd acc newline).2.taken =
      fd.taken ++ back (cstr acc) ++ if newline then [lf] else [] := by
  obtain ⟨hok, htaken, hsteady⟩ := Sink.writeAll_steady hfd (back (cstr acc))
  obtain ⟨-, htaken', -⟩ := Sink.writeAll_steady hsteady [lf]
  unfold mbEmitLine writeFd
  cases newline with
  | false => simp [htaken]
  | true => simp [hok, htaken', htaken]

/-- Feeding a part of the stream leaves the rest to be written. -/
theorem mbFeed_owed
    (back : Bytes → Bytes) {fd : Sink} (hfd : fd.Steady) (acc data more : Bytes) :
    (mbFeed back fd acc data).2.1.taken ++ mbOut back (mbFeed back fd acc data).2.2 more =
      fd.taken ++ mbOut back acc (data ++ more) := by
  induction data generalizing fd acc with
  | nil => rfl
  | cons b data ih =>
      rw [mbFeed, List.cons_append, mbOut]
      split_ifs with hlf hlong
      · obtain ⟨hok, hsteady⟩ := mbEmitLine_steady back hfd acc true
        simp only [hok, if_true]
        rw [ih hsteady, mbEmitLine_taken back hfd]
        simp
      · obtain ⟨hok, htaken, hsteady⟩ := Sink.writeAll_steady hfd acc
        simp only [writeFd, hok, if_true]
        rw [ih hsteady, htaken, List.append_assoc]
      · exact ih hfd (acc ++ [b])

/-! ## Whole streams -/

def Rc.fd (rc : Rc) : Stream → Sink
  | .out => rc.fd1
  | .err => rc.fd2

def MapBack.acc (mb : MapBack) : Stream → Bytes
  | .out => mb.acc1
  | .err => mb.acc2

/-- What a file descriptor has taken and will take when `more` follows. -/
def Rc.owed (rc : Rc) (mb : MapBack) (s : Stream) (more : Bytes) : Bytes :=
  (rc.fd s).taken ++ mbOut mb.back (mb.acc s) more

theorem rcWrite_owed
    {rc : Rc} (hrc : rc.Steady) {mb : MapBack} (hmb : rc.mb = some mb) (f : Frame) :
    ∃ mb', (rcWrite rc f.stream f.data).2.mb = some mb' ∧ mb'.back = mb.back ∧
      ∀ s more, (rcWrite rc f.stream f.data).2.owed mb' s more =
        rc.owed mb s (payload s [f] ++ more) := by
  obtain ⟨stream, data, hpos, hfits⟩ := f
  cases stream with
  | out =>
      have hfeed := mbFeed_owed mb.back hrc.fd1 mb.acc1 data
      simp only [rcWrite, hmb]
      refine ⟨_, rfl, rfl, fun s more => ?_⟩
      cases s with
      | out => simpa [Rc.owed, Rc.fd, MapBack.acc, payload] using hfeed more
      | err => simp [Rc.owed, Rc.fd, MapBack.acc, payload]
  | err =>
      have hfeed := mbFeed_owed mb.back hrc.fd2 mb.acc2 data
      simp only [rcWrite, hmb]
      refine ⟨_, rfl, rfl, fun s more => ?_⟩
      cases s with
      | out => simp [Rc.owed, Rc.fd, MapBack.acc, payload]
      | err => simpa [Rc.owed, Rc.fd, MapBack.acc, payload] using hfeed more

theorem mbFlush_owed
    {rc : Rc} (hrc : rc.Steady) {mb : MapBack} (hmb : rc.mb = some mb) (s : Stream) :
    ((mbFlush rc).fd s).taken = rc.owed mb s [] := by
  have hemit : ∀ (fd : Sink) (acc : Bytes), fd.Steady →
      (if 0 < acc.length then (mbEmitLine mb.back fd acc false).2 else fd).taken =
        fd.taken ++ mbOut mb.back acc [] := by
    intro fd acc hfd
    rw [mbOut]
    split_ifs with hpos hnil hnil
    · simp [hnil] at hpos
    · rw [mbEmitLine_taken mb.back hfd]
      simp
    · simp
    · exact absurd (List.length_eq_zero_iff.mp (by omega)) hnil
  simp only [mbFlush, hmb]
  cases s with
  | out => exact hemit rc.fd1 mb.acc1 hrc.fd1
  | err => exact hemit rc.fd2 mb.acc2 hrc.fd2

theorem rcStreamLoop_owed
    {rc : Rc} (hrc : rc.Steady) {mb : MapBack} (hmb : rc.mb = some mb) (fs : List Frame)
    (code : ℕ) {rest : Bytes} (hpending : rc.inp.pending = encodeStream fs code ++ rest)
    (fuel : ℕ) (hfuel : fs.length < fuel) (s : Stream) :
    ((rcStreamLoop fuel rc).2.fd s).taken = rc.owed mb s (payload s fs) := by
  induction fs generalizing rc mb fuel with
  | nil =>
      obtain ⟨fuel, rfl⟩ : ∃ k, fuel = k + 1 := ⟨fuel - 1, by simp at hfuel; omega⟩
      obtain ⟨inp, hinp, -, hturn⟩ := rcStreamLoop_last hrc.inp
        (by simpa [encodeStream] using hpending) fuel
      have hrc' : Rc.Steady { rc with inp := inp } := ⟨hinp, hrc.fd1, hrc.fd2⟩
      rw [hturn]
      exact mbFlush_owed hrc' hmb s
  | cons f fs ih =>
      obtain ⟨fuel, rfl⟩ : ∃ k, fuel = k + 1 := ⟨fuel - 1, by simp at hfuel; omega⟩
      have hsplit : rc.inp.pending = f.encode ++ (encodeStream fs code ++ rest) := by
        simpa [encodeStream] using hpending
      obtain ⟨inp, hinp, hrest, hturn⟩ := rcStreamLoop_turn hrc.inp f hsplit fuel
      have hrc' : Rc.Steady { rc with inp := inp } := ⟨hinp, hrc.fd1, hrc.fd2⟩
      obtain ⟨hok, htook⟩ := rcWrite_steady hrc' f
      obtain ⟨mb', hmb', -, howed⟩ := rcWrite_owed hrc' hmb f
      rw [hturn]
      dsimp only
      rw [if_pos hok, ih htook.steady hmb' (htook.pending.trans hrest) fuel
        (by simpa using hfuel), howed, ← payload_append]
      rfl

theorem rcStream_owed
    {rc : Rc} (hrc : rc.Steady) {mb : MapBack} (hmb : rc.mb = some mb) (fs : List Frame)
    (code : ℕ) {rest : Bytes} (hpending : rc.inp.pending = encodeStream fs code ++ rest)
    (s : Stream) :
    ((rcStream rc).2.fd s).taken = rc.owed mb s (payload s fs) := by
  refine rcStreamLoop_owed hrc hmb fs code hpending _ ?_ s
  rw [hpending]
  have := length_le_encodeFrames fs
  simp only [encodeStream, List.length_append]
  omega

/-! ## Lines and the parts of them that are filtered -/

/-- What is in the accumulator when a line ends: the part behind the
accumulators that were written when they were full. -/
def lastPart (line : Bytes) : Bytes :=
  line.drop ((line.length - 1) / (mbLine - 1) * (mbLine - 1))

/-- The accumulators that go through `pm_back_line`. -/
def emitted : Bytes → Bytes → List Bytes
  | acc, [] => [acc]
  | acc, b :: rest =>
      if b = lf then acc :: emitted [] rest
      else if mbLine - 1 ≤ acc.length then emitted [b] rest
      else emitted (acc ++ [b]) rest

theorem mbLine_pred : mbLine - 1 = 2047 := rfl

theorem lastPart_short {line : Bytes} (h : line.length ≤ mbLine - 1) :
    lastPart line = line := by
  rw [mbLine_pred] at h
  have hzero : (line.length - 1) / 2047 = 0 := Nat.div_eq_of_lt (by omega)
  rw [lastPart, mbLine_pred, hzero, Nat.zero_mul, List.drop_zero]

/-- A full accumulator in front of a line. -/
theorem lastPart_full
    {acc line : Bytes} (hacc : acc.length = mbLine - 1) (hline : line ≠ []) :
    lastPart (acc ++ line) = lastPart line := by
  have hpos := List.length_pos_of_ne_nil hline
  rw [mbLine_pred] at hacc
  have hparts : (2047 + line.length - 1) / 2047 = (line.length - 1) / 2047 + 1 := by
    omega
  rw [lastPart, lastPart, List.length_append, mbLine_pred, hacc, hparts,
    Nat.add_mul, Nat.one_mul, Nat.add_comm, ← hacc, ← List.drop_drop, List.drop_left]

/-- The accumulators of a stream are the last parts of its lines. -/
theorem emitted_eq {acc : Bytes} (hacc : acc.length ≤ mbLine - 1) (data : Bytes) :
    emitted acc data =
      ((data.splitOn lf).modifyHead (acc ++ ·)).map lastPart := by
  induction data generalizing acc with
  | nil => simp [emitted, lastPart_short hacc]
  | cons b data ih =>
      have hsplit := List.splitOnP_cons_eq_if_modifyHead (p := (· == lf)) b data
      rw [← List.splitOn_eq_splitOnP, ← List.splitOn_eq_splitOnP] at hsplit
      simp only [beq_iff_eq] at hsplit
      rw [emitted, hsplit]
      by_cases hlf : b = lf
      · have hhead : (data.splitOn lf).modifyHead (([] : Bytes) ++ ·) = data.splitOn lf := by
          cases data.splitOn lf <;> rfl
        rw [if_pos hlf, if_pos hlf, ih (by simp), hhead]
        simp [lastPart_short hacc]
      · obtain ⟨line, lines, hlines⟩ := List.exists_cons_of_ne_nil
          (List.splitOnP_ne_nil (· == lf) data)
        rw [← List.splitOn_eq_splitOnP] at hlines
        simp only [hlf, if_false]
        split_ifs with hfull
        · rw [ih (by simp [mbLine_pred]), hlines]
          simp only [List.modifyHead_cons, List.map_cons]
          rw [lastPart_full (le_antisymm hacc hfull) (by simp)]
          rfl
        · rw [ih (by rw [List.length_append, List.length_singleton]; omega), hlines]
          simp

/-! A filter that never makes a line longer. -/

theorem mbOut_length
    {back : Bytes → Bytes} {acc data : Bytes}
    (hback : ∀ c ∈ emitted acc data, (back (cstr c)).length ≤ c.length) :
    (mbOut back acc data).length ≤ (acc ++ data).length := by
  induction data generalizing acc with
  | nil =>
      rw [mbOut]
      split_ifs with hacc
      · simp
      · rw [List.append_nil]
        exact hback acc (by simp [emitted])
  | cons b data ih =>
      rw [mbOut]
      rw [emitted] at hback
      split_ifs at hback ⊢ with hlf hfull
      · obtain ⟨hline, hback⟩ := List.forall_mem_cons.mp hback
        have hrest := ih hback
        simp only [List.length_append, List.length_cons, List.nil_append] at hrest ⊢
        omega
      · have hrest := ih hback
        simp only [List.length_append, List.length_cons, List.length_nil] at hrest ⊢
        omega
      · have hrest := ih hback
        simp only [List.length_append, List.length_cons, List.length_nil] at hrest ⊢
        omega

/-- Nothing is lost if and only if every accumulator passes the filter. -/
theorem mbOut_eq_iff
    {back : Bytes → Bytes} (hnil : back [] = []) {acc data : Bytes}
    (hback : ∀ c ∈ emitted acc data, (back (cstr c)).length ≤ c.length) :
    mbOut back acc data = acc ++ data ↔ ∀ c ∈ emitted acc data, back (cstr c) = c := by
  induction data generalizing acc with
  | nil =>
      rw [mbOut, emitted, List.forall_mem_singleton, List.append_nil]
      split_ifs with hacc
      · simp [hacc, hnil]
      · rfl
  | cons b data ih =>
      rw [mbOut]
      rw [emitted] at hback ⊢
      split_ifs at hback ⊢ with hlf hfull
      · obtain ⟨hline, hback⟩ := List.forall_mem_cons.mp hback
        have hrest := ih hback
        have hshort := mbOut_length hback
        rw [List.forall_mem_cons, ← hrest, hlf]
        constructor
        · intro heq
          -- Both parts are no longer than what they stand for.
          have hlen := congrArg List.length heq
          simp only [List.length_append, List.length_cons, List.nil_append] at hlen hshort
          obtain ⟨hacc, htail⟩ := List.append_inj heq (by omega)
          exact ⟨hacc, (List.cons.inj htail).2⟩
        · rintro ⟨hacc, htail⟩
          rw [hacc, htail]
          rfl
      · rw [← ih hback]
        simp
      · rw [← ih hback]
        simp

/-! ## The filter of the host's entries -/

/-- No remote prefix occurs in the stream, ignoring case. -/
def RemoteFree (kv : List GcdsKv) (host stream : Bytes) : Prop :=
  ∀ v ∈ pmMaps kv host, (pmEntry v).remote ≠ [] →
    ¬ (pmEntry v).remote.map lower <:+: stream.map lower

theorem pmFind_none
    {kv : List GcdsKv} {host stream x : Bytes} (hfree : RemoteFree kv host stream)
    (hx : x <:+: stream) : pmFind ((pmMaps kv host).map pmEntry) x = none := by
  rw [pmFind, List.find?_eq_none]
  intro e he hfound
  obtain ⟨v, hv, rfl⟩ := List.mem_map.mp he
  cases hmatch : atMatch ((pmEntry v).sep = backslash) x (pmEntry v).remote with
  | none => simp [hmatch] at hfound
  | some n =>
      obtain ⟨rfl, front, rest, rfl, hlen, hlower⟩ := atMatch_some hmatch
      have hremote : (pmEntry v).remote ≠ [] := by
        intro hempty
        rw [hmatch, hempty] at hfound
        simp at hfound
      refine hfree v hv hremote ?_
      rw [← hlower]
      exact (List.IsPrefix.isInfix ⟨rest, rfl⟩).trans hx |>.map lower

theorem pmBackLine_free
    {kv : List GcdsKv} {host stream c : Bytes} (hfree : RemoteFree kv host stream)
    (hc : c <:+: stream) :
    pmBackLine kv host c mbLine = if pmMaps kv host = [] then c else c.take backMax := by
  unfold pmBackLine
  split_ifs with hnone
  · simp [hnone]
  · have hsubst : pmSubst ((pmMaps kv host).map pmEntry) c.length c = c :=
      pmSubst_none le_rfl fun x hx => pmFind_none hfree (hx.isInfix.trans hc)
    have hmin : min (mbLine - 1) backMax = backMax := rfl
    simp only [hnone, if_false, gcdsStrlcpy]
    rw [pmBackLoop_eq _ _ _ (by simp), hsubst, List.nil_append, List.take_take, hmin]

theorem emitted_within {acc data c : Bytes} (hc : c ∈ emitted acc data) :
    c <:+: acc ++ data := by
  induction data generalizing acc with
  | nil =>
      rw [emitted, List.mem_singleton] at hc
      rw [hc, List.append_nil]
  | cons b data ih =>
      rw [emitted] at hc
      split_ifs at hc with hlf hfull
      · rcases List.mem_cons.mp hc with rfl | hc
        · exact (List.prefix_append c _).isInfix
        · refine (ih hc).trans (List.IsSuffix.isInfix ⟨acc ++ [b], ?_⟩)
          simp
      · refine (ih hc).trans (List.IsSuffix.isInfix ⟨acc, ?_⟩)
        simp
      · have hrest := ih hc
        rwa [List.append_assoc] at hrest

theorem cstr_front (c : Bytes) : cstr c <+: c := List.takeWhile_prefix _

/-- The condition on a stream: the part of each line that is filtered has no
NUL, and does not fill the accumulator when there is an entry. -/
def LinesKept (kv : List GcdsKv) (host stream : Bytes) : Prop :=
  ∀ line ∈ stream.splitOn lf, nul ∉ lastPart line ∧
    (pmMaps kv host = [] ∨ (lastPart line).length < mbLine - 1)

theorem pmBackLine_kept
    {kv : List GcdsKv} {host stream c : Bytes} (hfree : RemoteFree kv host stream)
    (hc : c <:+: stream) :
    (pmBackLine kv host (cstr c) mbLine).length ≤ c.length ∧
      (pmBackLine kv host (cstr c) mbLine = c ↔
        nul ∉ c ∧ (pmMaps kv host = [] ∨ c.length < mbLine - 1)) := by
  have hshort := (cstr_front c).length_le
  have hback : backMax = 2046 := rfl
  rw [pmBackLine_free hfree ((cstr_front c).isInfix.trans hc), ← cstr_eq_iff]
  split_ifs with hnone
  · exact ⟨hshort, by simp [hnone]⟩
  · rw [List.length_take, mbLine_pred]
    refine ⟨by omega, ?_⟩
    constructor
    · intro heq
      have hlen := congrArg List.length heq
      rw [List.length_take] at hlen
      exact ⟨(cstr_front c).eq_of_length (by omega), Or.inr (by omega)⟩
    · rintro ⟨heq, hfits⟩
      have hlen := hfits.resolve_left hnone
      rw [heq, List.take_of_length_le (by omega)]

/-- A stream without a remote prefix is written out exactly, whatever its
frames, if and only if its lines are kept. -/
theorem mapback_lossless_iff
    (file host : Bytes) (rc : Rc) (hrc : rc.Steady)
    (hmb : rc.mb = some
      ⟨fun line => pmBackLine (confLoad file confEntMax) host line mbLine, [], []⟩)
    (fs : List Frame) (code : ℕ) (rest : Bytes)
    (hpending : rc.inp.pending = encodeStream fs code ++ rest) (s : Stream)
    (hfree : RemoteFree (confLoad file confEntMax) host (payload s fs)) :
    ((rcStream rc).2.fd s).taken = (rc.fd s).taken ++ payload s fs ↔
      LinesKept (confLoad file confEntMax) host (payload s fs) := by
  have hacc : MapBack.acc
      ⟨fun line => pmBackLine (confLoad file confEntMax) host line mbLine, [], []⟩ s = [] := by
    cases s <;> rfl
  have hkept : ∀ c ∈ emitted [] (payload s fs), _ := fun c hc =>
    pmBackLine_kept hfree (emitted_within hc)
  have hnil : pmBackLine (confLoad file confEntMax) host [] mbLine = [] := by
    rw [pmBackLine_free hfree (List.nil_infix)]
    simp
  have hlines : emitted [] (payload s fs) = ((payload s fs).splitOn lf).map lastPart := by
    rw [emitted_eq (by simp)]
    cases (payload s fs).splitOn lf <;> rfl
  rw [rcStream_owed hrc hmb fs code hpending, Rc.owed, hacc, List.append_cancel_left_eq]
  have hiff : mbOut (fun line => pmBackLine (confLoad file confEntMax) host line mbLine) []
      (payload s fs) = payload s fs ↔ ∀ c ∈ emitted [] (payload s fs),
        pmBackLine (confLoad file confEntMax) host (cstr c) mbLine = c :=
    mbOut_eq_iff hnil fun c hc => (hkept c hc).1
  have hparts : LinesKept (confLoad file confEntMax) host (payload s fs) ↔
      ∀ c ∈ emitted [] (payload s fs), nul ∉ c ∧
        (pmMaps (confLoad file confEntMax) host = [] ∨ c.length < mbLine - 1) := by
    rw [hlines, List.forall_mem_map]
    rfl
  rw [hiff, hparts]
  exact forall₂_congr fun c hc => (hkept c hc).2

/-- The configuration of a host with one entry. -/
def driveConf : Bytes := ascii "host.h.map.1 = /l|Z:\\p\n"

/-- Its client before it reads a stream. -/
def driveRc (data : Bytes) : Rc :=
  ⟨⟨[], data⟩, ⟨[], []⟩, ⟨[], []⟩,
    some ⟨fun line => pmBackLine (confLoad driveConf confEntMax) (ascii "h") line mbLine,
      [], []⟩⟩

theorem driveConf_free
    {stream : Bytes} (h : ¬ (ascii "Z:\\p").map lower <:+: stream.map lower) :
    RemoteFree (confLoad driveConf confEntMax) (ascii "h") stream := by
  have hmaps : pmMaps (confLoad driveConf confEntMax) (ascii "h") = [ascii "/l|Z:\\p"] := by
    decide +kernel
  intro v hv _
  rw [hmaps, List.mem_singleton] at hv
  rw [hv]
  exact h

/-- One line in two frames and a last line without an end. -/
theorem mapback_lossless_two_frames :
    ((rcStream (driveRc (encodeStream
      [⟨.out, ascii "ab", by decide, by decide⟩,
        ⟨.out, ascii "c\nd", by decide, by decide⟩] 0))).2.fd .out).taken =
      ascii "abc\nd" := by
  refine (mapback_lossless_iff driveConf (ascii "h") (driveRc (encodeStream
      [⟨.out, ascii "ab", by decide, by decide⟩,
        ⟨.out, ascii "c\nd", by decide, by decide⟩] 0))
    ⟨List.not_mem_nil, List.not_mem_nil, List.not_mem_nil⟩ rfl
    [⟨.out, ascii "ab", by decide, by decide⟩,
      ⟨.out, ascii "c\nd", by decide, by decide⟩] 0 [] (List.append_nil _).symm .out
    (driveConf_free (by decide))).mpr ?_
  have hlines : (ascii "abc\nd").splitOn lf = [ascii "abc", ascii "d"] := by decide
  intro line hline
  have hmem : line ∈ [ascii "abc", ascii "d"] := hlines ▸ hline
  simp only [List.mem_cons, List.not_mem_nil, or_false] at hmem
  rcases hmem with rfl | rfl
  · exact ⟨by decide, Or.inr (by decide)⟩
  · exact ⟨by decide, Or.inr (by decide)⟩

/-- A NUL in a line: the rest of the line is lost. -/
theorem mapback_loses_after_nul :
    RemoteFree (confLoad driveConf confEntMax) (ascii "h") [97, 0, 98, 10] ∧
      ((rcStream (driveRc (encodeStream
        [⟨.out, [97, 0, 98, 10], by decide, by decide⟩] 0))).2.fd .out).taken = [97, 10] :=
  ⟨driveConf_free (by decide), by decide +kernel⟩

end GrandCross
