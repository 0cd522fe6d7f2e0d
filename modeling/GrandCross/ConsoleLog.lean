import GrandCross.CText
import GrandCross.LinePieces

/-!
# Logging a serial console

`tools/gcdslog.c` reads a port, divides what comes into lines and writes every
line with a time stamp to stdout and the log file.  A line longer than the
buffer is written in pieces.
-/

namespace GrandCross.Gcdslog

open CText
open LinePieces

/-! ## The code -/

/-- `line[4096]`, with room for the terminator. -/
def lineSize : ℕ := 4096

structure Entry where
  ts : Bytes
  text : Bytes

/-- The bytes on stdout, and in the log file if there is one. -/
def Entry.bytes (e : Entry) : Bytes :=
  ascii "[" ++ e.ts ++ ascii "] " ++ e.text ++ [lf]

/-- `emit`: `%s` of the line; `clock` gives the stamps. -/
def emit (clock : ℕ → Bytes) (log : List Entry) (line : Bytes) : List Entry :=
  log ++ [⟨clock log.length, cstr line⟩]

/-- The first `ll` bytes of the line buffer and what is logged. -/
structure Capture where
  line : Bytes
  log : List Entry
  fits : line.length < lineSize

def logByte (clock : ℕ → Bytes) (st : Capture) (c : Byte) : Capture :=
  if c = cr then st
  else if c = lf then ⟨[], emit clock st.log st.line, by decide⟩
  else if h : st.line.length < lineSize - 1 then
    ⟨st.line ++ [c], st.log, by rw [List.length_append, List.length_singleton]; omega⟩
  else ⟨[c], emit clock st.log st.line, by rw [List.length_singleton]; decide⟩

/-- An unfinished line, if there is one. -/
def flushLine (clock : ℕ → Bytes) (st : Capture) : Capture :=
  if st.line = [] then st else ⟨[], emit clock st.log st.line, by decide⟩

/-- What one `read` returns. -/
structure Chunk where
  bytes : Bytes
  some_bytes : bytes ≠ []
  fits : bytes.length ≤ 1024

/-- One pass of the inner loop that does not leave it. -/
inductive Pass where
  | interrupted
  | idle
  | data (chunk : Chunk)

def capturePass (clock : ℕ → Bytes) (showAll : Bool) (st : Capture) : Pass → Capture
  | .interrupted => st
  | .idle => if showAll then flushLine clock st else st
  | .data chunk => chunk.bytes.foldl (logByte clock) st

/-- An open port until it is closed, or until the tool is stopped. -/
def capturePort (clock : ℕ → Bytes) (showAll : Bool) (st : Capture)
    (passes : List Pass) : Capture :=
  let connected : Capture :=
    { st with log := emit clock st.log (ascii "gcdslog: connected") }
  let closed := flushLine clock (passes.foldl (capturePass clock showAll) connected)
  { closed with log := emit clock closed.log (ascii "gcdslog: port closed") }

inductive Port where
  | absent
  | opened (passes : List Pass)

/-- The outer loop until the tool is stopped. -/
def capturePorts (clock : ℕ → Bytes) (showAll noReconnect : Bool) :
    Capture → List Port → Capture
  | st, [] => st
  | st, .absent :: ports =>
      if noReconnect then st else capturePorts clock showAll noReconnect st ports
  | st, .opened passes :: ports =>
      let st := capturePort clock showAll st passes
      if noReconnect then st else capturePorts clock showAll noReconnect st ports

/-- `main` behind its arguments. -/
def gcdslog (clock : ℕ → Bytes) (showAll noReconnect : Bool) (ports : List Port) :
    List Entry :=
  let start : Capture := ⟨[], emit clock [] (ascii "gcdslog: start"), by decide⟩
  emit clock (capturePorts clock showAll noReconnect start ports).log
    (ascii "gcdslog: stop")

/-! ## What is to be recorded -/

def streamOf (passes : List Pass) : Bytes :=
  passes.flatMap fun
    | .data chunk => chunk.bytes
    | _ => []

def isLf (b : Byte) : Bool := b = lf

/-- The stream without CR in its lines, each in pieces that fit the buffer. -/
def consoleText (stream : Bytes) : List Bytes :=
  written (lineSize - 1) isLf (stream.filter (· ≠ cr))

/-- The ports that are read. -/
def visits (noReconnect : Bool) : List Port → List (List Pass)
  | [] => []
  | .absent :: ports => if noReconnect then [] else visits noReconnect ports
  | .opened passes :: ports =>
      passes :: if noReconnect then [] else visits noReconnect ports

def visitText (passes : List Pass) : List Bytes :=
  [ascii "gcdslog: connected"] ++ consoleText (streamOf passes) ++
    [ascii "gcdslog: port closed"]

def record (ports : List (List Pass)) : List Bytes :=
  [ascii "gcdslog: start"] ++ ports.flatMap visitText ++ [ascii "gcdslog: stop"]

def texts (log : List Entry) : List Bytes := log.map Entry.text

variable {clock : ℕ → Bytes}

@[simp] theorem texts_emit (log : List Entry) (line : Bytes) :
    texts (emit clock log line) = texts log ++ [cstr line] := by
  simp [texts, emit]

/-! ## One port -/

def Clean (line : Bytes) : Prop := ∀ b ∈ line, b ≠ cr ∧ isLf b = false

theorem Clean.text
    {line : Bytes} (hline : Clean line) (stream : Bytes) :
    (line ++ stream).filter (· ≠ cr) = line ++ stream.filter (· ≠ cr) := by
  rw [List.filter_append, List.filter_eq_self.mpr]
  intro b hb
  simpa using (hline b hb).1

theorem Clean.snoc
    {line : Bytes} (hline : Clean line) {c : Byte} (hcr : c ≠ cr) (hlf : c ≠ lf) :
    Clean (line ++ [c]) := by
  intro b hb
  rcases List.mem_append.mp hb with hb | hb
  · exact hline b hb
  · rw [List.mem_singleton.mp hb]
    exact ⟨hcr, decide_eq_false hlf⟩

theorem Clean.nil : Clean [] := fun _ hb => absurd hb List.not_mem_nil

section Text

variable {line : Bytes} {c : Byte}

theorem consoleText_unfinished (hline : Clean line) (hfits : line.length < lineSize) :
    consoleText line = if line = [] then [] else [line] := by
  have htext := hline.text []
  rw [List.append_nil, List.filter_nil, List.append_nil] at htext
  unfold consoleText
  rw [htext]
  exact written_short (fun b hb => (hline b hb).2) (by omega)

theorem consoleText_cr (hline : Clean line) (stream : Bytes) :
    consoleText (line ++ cr :: stream) = consoleText (line ++ stream) := by
  unfold consoleText
  rw [hline.text, hline.text, List.filter_cons_of_neg (by simp)]

theorem consoleText_lf
    (hline : Clean line) (hfits : line.length < lineSize) (stream : Bytes) :
    consoleText (line ++ lf :: stream) = line :: consoleText stream := by
  unfold consoleText
  rw [hline.text, List.filter_cons_of_pos (by decide)]
  exact written_end (fun b hb => (hline b hb).2) (by omega) (by decide) _

/-- Of an overlong line the buffer is a piece. -/
theorem consoleText_full
    (hline : Clean line) (hfull : line.length = lineSize - 1) (hcr : c ≠ cr)
    (hlf : c ≠ lf) (stream : Bytes) :
    consoleText (line ++ c :: stream) = line :: consoleText (c :: stream) := by
  have hkept : (c :: stream).filter (· ≠ cr) = c :: stream.filter (· ≠ cr) :=
    List.filter_cons_of_pos (by simpa using hcr)
  unfold consoleText
  rw [hline.text, hkept]
  exact written_full (by decide) (fun b hb => (hline b hb).2) hfull
    (decide_eq_false hlf) _

end Text

/-- What is logged of a stream behind an unfinished line is the text of both
together, each piece as `%s` writes it. -/
theorem texts_stream
    (stream : Bytes) (st : Capture) (hline : Clean st.line) :
    texts (flushLine clock (stream.foldl (logByte clock) st)).log =
      texts st.log ++ (consoleText (st.line ++ stream)).map cstr := by
  induction stream generalizing st with
  | nil =>
      rw [List.append_nil, consoleText_unfinished hline st.fits, List.foldl_nil]
      unfold flushLine
      split_ifs with hnil <;> simp
  | cons c stream ih =>
      rw [List.foldl_cons]
      by_cases hcr : c = cr
      · have hsame : logByte clock st c = st := if_pos hcr
        rw [hsame, hcr, consoleText_cr hline]
        exact ih st hline
      by_cases hlf : c = lf
      · have hended : logByte clock st c =
            ⟨[], emit clock st.log st.line, by decide⟩ := by
          unfold logByte
          rw [if_neg hcr, if_pos hlf]
        rw [hended, ih _ Clean.nil, texts_emit, hlf, consoleText_lf hline st.fits,
          List.append_assoc]
        rfl
      by_cases hroom : st.line.length < lineSize - 1
      · have hlonger : (logByte clock st c).line = st.line ++ [c] ∧
            (logByte clock st c).log = st.log := by
          unfold logByte
          rw [if_neg hcr, if_neg hlf, dif_pos hroom]
          exact ⟨rfl, rfl⟩
        rw [ih _ (by rw [hlonger.1]; exact hline.snoc hcr hlf), hlonger.1, hlonger.2,
          List.append_assoc]
        rfl
      · have hfull : st.line.length = lineSize - 1 := by
          have hfits := st.fits
          omega
        have hflushed : (logByte clock st c).line = [c] ∧
            (logByte clock st c).log = emit clock st.log st.line := by
          unfold logByte
          rw [if_neg hcr, if_neg hlf, dif_neg hroom]
          exact ⟨rfl, rfl⟩
        rw [ih _ (by rw [hflushed.1]; exact Clean.nil.snoc hcr hlf), hflushed.1,
          hflushed.2, texts_emit, consoleText_full hline hfull hcr hlf, List.append_assoc]
        rfl

/-! ## All ports -/

/-- Without `-a` the passes only add up their bytes. -/
theorem passes_stream (passes : List Pass) (st : Capture) :
    passes.foldl (capturePass clock false) st =
      (streamOf passes).foldl (logByte clock) st := by
  induction passes generalizing st with
  | nil => rfl
  | cons p passes ih =>
      rw [List.foldl_cons, ih]
      cases p with
      | interrupted => rfl
      | idle => rfl
      | data chunk =>
          have hstream : streamOf (Pass.data chunk :: passes) =
              chunk.bytes ++ streamOf passes := rfl
          rw [hstream, List.foldl_append]
          rfl

theorem capturePort_line (st : Capture) (showAll : Bool) (passes : List Pass) :
    (capturePort clock showAll st passes).line = [] := by
  simp only [capturePort, flushLine]
  split_ifs with hnil
  · exact hnil
  · rfl

theorem texts_port (st : Capture) (hline : st.line = []) (passes : List Pass) :
    texts (capturePort clock false st passes).log =
      texts st.log ++ (visitText passes).map cstr := by
  simp only [capturePort, texts_emit]
  rw [passes_stream, texts_stream _ _ (by rw [hline]; exact Clean.nil), texts_emit, hline]
  simp [visitText]

/-- The visits follow each other when each one adds its own text. -/
theorem texts_ports
    {showAll : Bool} {visit : List Pass → List Bytes}
    (hvisit : ∀ (st : Capture) (_ : st.line = []) (passes : List Pass),
      texts (capturePort clock showAll st passes).log =
        texts st.log ++ (visit passes).map cstr)
    (noReconnect : Bool) (ports : List Port) (st : Capture) (hline : st.line = []) :
    texts (capturePorts clock showAll noReconnect st ports).log =
      texts st.log ++ ((visits noReconnect ports).flatMap visit).map cstr := by
  induction ports generalizing st with
  | nil => simp [capturePorts, visits]
  | cons port ports ih =>
      cases port with
      | absent =>
          simp only [capturePorts, visits]
          split_ifs
          · simp
          · exact ih st hline
      | opened passes =>
          have hport : texts (capturePort clock showAll st passes).log =
              texts st.log ++ (visit passes).map cstr := hvisit st hline passes
          simp only [capturePorts, visits]
          split_ifs
          · simp [hport]
          · rw [ih _ (capturePort_line st showAll passes), hport]
            simp

/-- The log is the record as `%s` writes it. -/
theorem texts_gcdslog (noReconnect : Bool) (ports : List Port) :
    texts (gcdslog clock false noReconnect ports) =
      (record (visits noReconnect ports)).map cstr := by
  simp only [gcdslog, texts_emit]
  rw [texts_ports texts_port noReconnect ports _ rfl, texts_emit]
  simp [record, texts]

/-! ## Stamps -/

def Stamped (clock : ℕ → Bytes) (log : List Entry) : Prop :=
  log = (texts log).zipIdx.map fun line => ⟨clock line.2, line.1⟩

theorem Stamped.emit
    {log : List Entry} (h : Stamped clock log) (line : Bytes) :
    Stamped clock (emit clock log line) := by
  have hlen : (texts log).length = log.length := List.length_map _
  unfold Stamped
  rw [texts_emit, List.zipIdx_append, List.map_append, ← h, hlen]
  simp [Gcdslog.emit]

theorem Stamped.flushLine
    {st : Capture} (h : Stamped clock st.log) : Stamped clock (flushLine clock st).log := by
  unfold Gcdslog.flushLine
  split_ifs
  · exact h
  · exact h.emit _

theorem Stamped.stream
    {st : Capture} (h : Stamped clock st.log) (stream : Bytes) :
    Stamped clock (stream.foldl (logByte clock) st).log := by
  induction stream generalizing st with
  | nil => exact h
  | cons c stream ih =>
      apply ih
      unfold logByte
      split_ifs
      · exact h
      · exact h.emit _
      · exact h
      · exact h.emit _

theorem Stamped.port
    {st : Capture} (h : Stamped clock st.log) (passes : List Pass) :
    Stamped clock (capturePort clock false st passes).log := by
  simp only [capturePort]
  rw [passes_stream]
  have hconnected := h.emit (ascii "gcdslog: connected")
  exact ((Stamped.stream hconnected (streamOf passes)).flushLine).emit _

theorem Stamped.ports
    (noReconnect : Bool) (ports : List Port) {st : Capture} (h : Stamped clock st.log) :
    Stamped clock (capturePorts clock false noReconnect st ports).log := by
  induction ports generalizing st with
  | nil => exact h
  | cons port ports ih =>
      cases port with
      | absent =>
          simp only [capturePorts]
          split_ifs
          · exact h
          · exact ih h
      | opened passes =>
          simp only [capturePorts]
          split_ifs
          · exact h.port passes
          · exact ih (h.port passes)

/-! ## What is recorded -/

/-- Only CR and LF are missing from the text of a stream. -/
theorem mem_consoleText (stream : Bytes) (b : Byte) :
    (∃ text ∈ consoleText stream, b ∈ text) ↔ b ∈ stream ∧ b ≠ cr ∧ b ≠ lf := by
  have hflat : (consoleText stream).flatten =
      (stream.filter (· ≠ cr)).filter (! isLf ·) :=
    written_flatten (by decide) _
  rw [← List.mem_flatten, hflat]
  simp only [List.mem_filter, isLf, decide_eq_true_eq, Bool.not_eq_true',
    decide_eq_false_iff_not, ne_eq, and_assoc]

theorem visitText_whole_iff (passes : List Pass) :
    (∀ text ∈ visitText passes, nul ∉ text) ↔ nul ∉ streamOf passes := by
  have hmem := mem_consoleText (streamOf passes) nul
  constructor
  · intro hall hnul
    obtain ⟨text, htext, hin⟩ := hmem.mpr ⟨hnul, by decide, by decide⟩
    exact hall text (by simp [visitText, htext]) hin
  · intro hnone text htext
    simp only [visitText, List.mem_append, List.mem_singleton] at htext
    rcases htext with (rfl | htext) | rfl
    · decide
    · exact fun hin => hnone (hmem.mp ⟨text, htext, hin⟩).1
    · decide

theorem record_whole_iff (ports : List (List Pass)) :
    (record ports).map cstr = record ports ↔
      ∀ passes ∈ ports, nul ∉ streamOf passes := by
  have hfixed : (record ports).map cstr = record ports ↔
      ∀ text ∈ record ports, nul ∉ text := by
    have hid := List.map_inj_left (f := cstr) (g := id) (l := record ports)
    rw [List.map_id] at hid
    rw [hid]
    exact forall₂_congr fun text _ => cstr_eq_iff text
  rw [hfixed]
  constructor
  · intro hall passes hpasses
    refine (visitText_whole_iff passes).mp ?_
    intro text htext
    refine hall text ?_
    simp only [record, List.mem_append, List.mem_flatMap]
    exact Or.inl (Or.inr ⟨passes, hpasses, htext⟩)
  · intro hnone text htext
    simp only [record, List.mem_append, List.mem_flatMap, List.mem_singleton] at htext
    rcases htext with (rfl | ⟨passes, hpasses, htext⟩) | rfl
    · decide
    · exact (visitText_whole_iff passes).mpr (hnone passes hpasses) text htext
    · decide

/-- Without `-a`, the log holds every stream in its lines and pieces exactly
when there is no NUL in it, however `read` has split it. -/
theorem gcdslog_records_iff
    (clock : ℕ → Bytes) (noReconnect : Bool) (ports : List Port) :
    texts (gcdslog clock false noReconnect ports) = record (visits noReconnect ports) ↔
      ∀ passes ∈ visits noReconnect ports, nul ∉ streamOf passes := by
  rw [texts_gcdslog]
  exact record_whole_iff _

/-- `oops`, a NUL and `reset` in one line: the end of the line is lost. -/
theorem gcdslog_loses_nul :
    texts (gcdslog (fun _ => ascii "2024-01-01 00:00:00") false true
      [.opened [.data ⟨ascii "oops" ++ [nul] ++ ascii "reset" ++ [lf], by decide,
        by decide⟩]]) ≠
      record [[.data ⟨ascii "oops" ++ [nul] ++ ascii "reset" ++ [lf], by decide,
        by decide⟩]] := by
  intro heq
  have hnone := (record_whole_iff _).mp
    ((texts_gcdslog true [.opened [.data ⟨ascii "oops" ++ [nul] ++ ascii "reset" ++ [lf],
      by decide, by decide⟩]]).symm.trans heq)
  exact absurd (hnone _ (List.mem_singleton_self _)) (by decide)

/-! ## With `-a` -/

/-- The stream behind what is open, cut where the port was idle. -/
def segments (opened : Bytes) : List Pass → List Bytes
  | [] => [opened]
  | .interrupted :: passes => segments opened passes
  | .idle :: passes => opened :: segments [] passes
  | .data chunk :: passes => segments (opened ++ chunk.bytes) passes

def visitSegments (passes : List Pass) : List Bytes :=
  [ascii "gcdslog: connected"] ++ (segments [] passes).flatMap consoleText ++
    [ascii "gcdslog: port closed"]

def recordSegments (ports : List (List Pass)) : List Bytes :=
  [ascii "gcdslog: start"] ++ ports.flatMap visitSegments ++ [ascii "gcdslog: stop"]

theorem flushLine_line (st : Capture) : (flushLine clock st).line = [] := by
  unfold flushLine
  split_ifs with hnil
  · exact hnil
  · rfl

/-- Each idle pass ends the segment that is open, as the end of the port does. -/
theorem texts_segments
    (passes : List Pass) {st : Capture} (hline : st.line = []) (opened : Bytes) :
    texts (flushLine clock
        (passes.foldl (capturePass clock true) (opened.foldl (logByte clock) st))).log =
      texts st.log ++ ((segments opened passes).flatMap consoleText).map cstr := by
  have hclean : Clean st.line := by
    rw [hline]
    exact Clean.nil
  induction passes generalizing st opened with
  | nil =>
      rw [List.foldl_nil, texts_stream opened st hclean, hline]
      simp [segments]
  | cons p passes ih =>
      rw [List.foldl_cons]
      cases p with
      | interrupted => exact ih hline opened hclean
      | idle =>
          have hflushed : (flushLine clock (opened.foldl (logByte clock) st)).line = [] :=
            flushLine_line _
          have hrest := ih hflushed [] (by rw [hflushed]; exact Clean.nil)
          rw [List.foldl_nil, texts_stream opened st hclean, hline, List.nil_append] at hrest
          rw [segments, List.flatMap_cons, List.map_append, ← List.append_assoc]
          exact hrest
      | data chunk =>
          have hmore := ih hline (opened ++ chunk.bytes) hclean
          rw [List.foldl_append] at hmore
          exact hmore

theorem texts_port_segments (st : Capture) (hline : st.line = []) (passes : List Pass) :
    texts (capturePort clock true st passes).log =
      texts st.log ++ (visitSegments passes).map cstr := by
  have hempty : ({ st with log := emit clock st.log (ascii "gcdslog: connected") } :
      Capture).line = [] := hline
  have hread : texts (flushLine clock (passes.foldl (capturePass clock true) _)).log = _ :=
    texts_segments passes hempty []
  rw [texts_emit, List.foldl_nil] at hread
  simp only [capturePort, texts_emit]
  rw [hread]
  simp [visitSegments]

theorem consoleText_flatten (stream : Bytes) :
    (consoleText stream).flatten = (stream.filter (· ≠ cr)).filter (! isLf ·) :=
  written_flatten (by decide) _

/-- The cuts lose nothing of the stream. -/
theorem segments_flatten (opened : Bytes) (passes : List Pass) :
    ((segments opened passes).flatMap consoleText).flatten =
      (consoleText (opened ++ streamOf passes)).flatten := by
  induction passes generalizing opened with
  | nil => simp [segments, streamOf]
  | cons p passes ih =>
      cases p with
      | interrupted => exact ih opened
      | idle =>
          have hstream : streamOf (Pass.idle :: passes) = streamOf passes := rfl
          rw [segments, List.flatMap_cons, List.flatten_append, ih [], List.nil_append, hstream,
            consoleText_flatten, consoleText_flatten, consoleText_flatten, List.filter_append,
            List.filter_append]
      | data chunk =>
          have hstream : streamOf (Pass.data chunk :: passes) =
              chunk.bytes ++ streamOf passes := rfl
          rw [segments, ih, hstream, List.append_assoc]

theorem recordSegments_flatten (ports : List (List Pass)) :
    (recordSegments ports).flatten = (record ports).flatten := by
  have hvisits : (ports.flatMap visitSegments).flatten = (ports.flatMap visitText).flatten := by
    induction ports with
    | nil => rfl
    | cons passes ports ih =>
        have hcut := segments_flatten [] passes
        rw [List.nil_append] at hcut
        simp only [List.flatMap_cons, List.flatten_append, visitSegments, visitText, hcut, ih]
  simp only [recordSegments, record, List.flatten_append, hvisits]

/-- With `-a`, each visit is recorded in the segments between idle passes, every
one in its own lines and pieces; the bytes are those recorded without it. -/
theorem gcdslog_all_segments
    (clock : ℕ → Bytes) (noReconnect : Bool) (ports : List Port) :
    texts (gcdslog clock true noReconnect ports) =
        (recordSegments (visits noReconnect ports)).map cstr ∧
      (recordSegments (visits noReconnect ports)).flatten =
        (record (visits noReconnect ports)).flatten := by
  refine ⟨?_, recordSegments_flatten _⟩
  simp only [gcdslog, texts_emit]
  rw [texts_ports texts_port_segments noReconnect ports _ rfl, texts_emit]
  simp [recordSegments, texts]

example :
    texts (gcdslog (fun _ => []) true true
      [.opened [.data ⟨ascii "login: ", by decide, by decide⟩, .idle,
        .data ⟨ascii "root" ++ [cr, lf], by decide, by decide⟩]]) =
      [ascii "gcdslog: start", ascii "gcdslog: connected", ascii "login: ", ascii "root",
        ascii "gcdslog: port closed", ascii "gcdslog: stop"] := by
  decide

end GrandCross.Gcdslog
