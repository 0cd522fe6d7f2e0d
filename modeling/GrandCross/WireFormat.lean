import GrandCross.LineIo

/-!
# Output streams on the wire

The answer to RUN, RUNI and RESULT is a sequence of O and E frames ended by
an X line.  `Frame` carries the wire limits of a frame, so a list of frames
and an exit code is exactly a well-formed stream.
-/

namespace GrandCross

open CText

/-- The two output streams of a child and their frame tags. -/
inductive Stream where
  | out
  | err
  deriving DecidableEq, Repr

def Stream.tag : Stream → Byte
  | .out => 79
  | .err => 69

/-- The widest frame of the protocol: `GCDSP_FRAME_MAX` of the host build. -/
def wireFrameMax : ℕ := 4096

structure Frame where
  stream : Stream
  data : Bytes
  pos : 1 ≤ data.length
  fits : data.length ≤ wireFrameMax

def Frame.encode (f : Frame) : Bytes :=
  frameHdr f.stream.tag f.data.length ++ f.data

def encodeFrames (fs : List Frame) : Bytes := fs.flatMap Frame.encode

def exitLine (code : ℕ) : Bytes := ascii "X " ++ decimal (code % 256)

/-- A whole stream: the frames, then the X line. -/
def encodeStream (fs : List Frame) (code : ℕ) : Bytes :=
  encodeFrames fs ++ (exitLine code ++ [lf])

/-- The bytes a list of frames carries for one stream. -/
def payload (s : Stream) (fs : List Frame) : Bytes :=
  (fs.filter fun f => f.stream = s).flatMap Frame.data

@[simp] theorem encodeFrames_nil : encodeFrames [] = [] := rfl

@[simp] theorem encodeFrames_cons (f : Frame) (fs : List Frame) :
    encodeFrames (f :: fs) = f.encode ++ encodeFrames fs := by
  simp [encodeFrames]

@[simp] theorem encodeFrames_append (fs gs : List Frame) :
    encodeFrames (fs ++ gs) = encodeFrames fs ++ encodeFrames gs := by
  simp [encodeFrames]

@[simp] theorem payload_nil (s : Stream) : payload s [] = [] := rfl

theorem payload_cons (s : Stream) (f : Frame) (fs : List Frame) :
    payload s (f :: fs) = (if f.stream = s then f.data else []) ++ payload s fs := by
  by_cases h : f.stream = s <;> simp [payload, h]

@[simp] theorem payload_append (s : Stream) (fs gs : List Frame) :
    payload s (fs ++ gs) = payload s fs ++ payload s gs := by
  simp [payload]

/-! ## Header lines -/

def hdrText (tag : Byte) (len : ℕ) : Bytes := tag :: sp :: decimal len

theorem frameHdr_eq (tag : Byte) (len : ℕ) :
    frameHdr tag len = hdrText tag len ++ [lf] := by
  simp [frameHdr, hdrText]

theorem hdrText_clean
    {tag : Byte} (hlf : tag ≠ lf) (hcr : tag ≠ cr) (len : ℕ) :
    LineClean (hdrText tag len) := by
  refine lineClean_cons hlf hcr (lineClean_cons (by decide) (by decide) ?_)
  exact lineClean_decimal len

theorem hdrText_length
    (tag : Byte) {len : ℕ} (hlen : len ≤ wireFrameMax) :
    (hdrText tag len).length ≤ 6 := by
  have h : (decimal len).length ≤ 4 :=
    decimal_length_le (by omega) (by unfold wireFrameMax at hlen; omega)
  simp only [hdrText, List.length_cons]
  omega

theorem cstr_hdrText
    {tag : Byte} (hnul : tag ≠ nul) (len : ℕ) :
    cstr (hdrText tag len) = hdrText tag len := by
  apply cstr_eq_self
  intro hmem
  simp only [hdrText, List.mem_cons] at hmem
  rcases hmem with h | h | h
  · exact hnul h.symm
  · exact absurd h (by decide)
  · exact (decimal_clean len).1 h

theorem Stream.tag_ne (s : Stream) :
    s.tag ≠ lf ∧ s.tag ≠ cr ∧ s.tag ≠ nul := by
  cases s <;> decide

theorem exitLine_eq (code : ℕ) :
    exitLine code = hdrText 88 (code % 256) := rfl

theorem exitLine_clean (code : ℕ) : LineClean (exitLine code) := by
  rw [exitLine_eq]
  exact hdrText_clean (by decide) (by decide) _

theorem exitLine_length (code : ℕ) : (exitLine code).length ≤ 6 := by
  rw [exitLine_eq]
  refine hdrText_length 88 ?_
  have := Nat.mod_lt code (show 0 < 256 by omega)
  unfold wireFrameMax
  omega

end GrandCross
