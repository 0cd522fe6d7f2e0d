import GrandCross.CText

/-!
# Text conversion on macOS

`common/textcv.c` composes decomposed Hangul in the output of a command.  A
character is read by its first byte alone; the bytes behind it are taken as
they are.  The loops run over the bytes that are left, with the number of
bytes as the bound on their iterations.
-/

namespace GrandCross

open CText

def lBase : ℕ := 0x1100
def vBase : ℕ := 0x1161
def tBase : ℕ := 0x11A7
def sBase : ℕ := 0xAC00
def lCnt : ℕ := 19
def vCnt : ℕ := 21
def tCnt : ℕ := 28
def nCnt : ℕ := vCnt * tCnt
def sCnt : ℕ := lCnt * nCnt

def isL (c : ℕ) : Bool := lBase ≤ c ∧ c < lBase + lCnt
def isV (c : ℕ) : Bool := vBase ≤ c ∧ c < vBase + vCnt
def isT (c : ℕ) : Bool := tBase < c ∧ c < tBase + tCnt
def isS (c : ℕ) : Bool := sBase ≤ c ∧ c < sBase + sCnt

/-- A precomposed syllable without a final consonant. -/
def isLV (c : ℕ) : Bool := isS c ∧ (c - sBase) % tCnt = 0

inductive Dec where
  | incomplete
  | invalid
  | char (k cp : ℕ)
  deriving DecidableEq

/-- The low six bits of a byte. -/
def low6 (b : Byte) : ℕ := b.toNat &&& 0x3F

/-- `u8dec`: one character at the front of what is left. -/
def u8dec : Bytes → Dec
  | [] => .incomplete
  | b0 :: rest =>
      if b0.toNat < 0x80 then .char 1 b0.toNat
      else if b0.toNat &&& 0xE0 = 0xC0 then
        match rest with
        | b1 :: _ => .char 2 ((b0.toNat &&& 0x1F) <<< 6 ||| low6 b1)
        | _ => .incomplete
      else if b0.toNat &&& 0xF0 = 0xE0 then
        match rest with
        | b1 :: b2 :: _ =>
            .char 3 ((b0.toNat &&& 0x0F) <<< 12 ||| low6 b1 <<< 6 ||| low6 b2)
        | _ => .incomplete
      else if b0.toNat &&& 0xF8 = 0xF0 then
        match rest with
        | b1 :: b2 :: b3 :: _ =>
            .char 4 ((b0.toNat &&& 0x07) <<< 18 ||| low6 b1 <<< 12 |||
              low6 b2 <<< 6 ||| low6 b3)
        | _ => .incomplete
      else .invalid

def u8enc (c : ℕ) : Bytes :=
  if c < 0x80 then [UInt8.ofNat c]
  else if c < 0x800 then
    [UInt8.ofNat (0xC0 ||| c >>> 6), UInt8.ofNat (0x80 ||| c &&& 0x3F)]
  else if c < 0x10000 then
    [UInt8.ofNat (0xE0 ||| c >>> 12), UInt8.ofNat (0x80 ||| c >>> 6 &&& 0x3F),
      UInt8.ofNat (0x80 ||| c &&& 0x3F)]
  else
    [UInt8.ofNat (0xF0 ||| c >>> 18), UInt8.ofNat (0x80 ||| c >>> 12 &&& 0x3F),
      UInt8.ofNat (0x80 ||| c >>> 6 &&& 0x3F), UInt8.ofNat (0x80 ||| c &&& 0x3F)]

/-! ## Where the input may be cut -/

/-- A character `safe_end` remembers: where it starts and its code point,
`none` for an invalid byte. -/
structure Mark where
  start : ℕ
  code : Option ℕ

/-- The last two characters and the end of the last one. -/
structure Seen where
  prev : Option Mark
  last : Option Mark
  complete : ℕ

def Mark.is (p : ℕ → Bool) (m : Mark) : Bool := m.code.any p

def safeScan : ℕ → Bytes → Seen → Seen
  | 0, _, seen => seen
  | fuel + 1, src, seen =>
      if src = [] then seen
      else
        match u8dec src with
        | .incomplete => seen
        | .invalid => safeScan fuel (src.drop 1)
            ⟨seen.last, some ⟨seen.complete, none⟩, seen.complete + 1⟩
        | .char k cp => safeScan fuel (src.drop k)
            ⟨seen.last, some ⟨seen.complete, some cp⟩, seen.complete + k⟩

/-- How much of the input can be converted now. -/
def safeEnd (src : Bytes) : ℕ :=
  let seen := safeScan src.length src ⟨none, none, 0⟩
  match seen.last with
  | none => seen.complete
  | some m =>
      if m.is isL then m.start
      else if m.is isV then
        match seen.prev with
        | some p => if p.is isL then p.start else m.start
        | none => m.start
      else if m.is isLV then m.start
      else seen.complete

/-! ## Composition -/

/-- `L` and `V` at the front, with a `T` behind them if there is one: the
syllable and the bytes it takes. -/
def jamoCluster (src : Bytes) (k cp : ℕ) : Option (ℕ × ℕ) :=
  if isL cp ∧ k < src.length then
    match u8dec (src.drop k) with
    | .char k2 cp2 =>
        if isV cp2 then
          let sy := sBase + (cp - lBase) * nCnt + (cp2 - vBase) * tCnt
          let adv := k + k2
          if adv < src.length then
            match u8dec (src.drop adv) with
            | .char k3 cp3 =>
                if isT cp3 then some (sy + (cp3 - tBase), adv + k3)
                else some (sy, adv)
            | _ => some (sy, adv)
          else some (sy, adv)
        else none
    | _ => none
  else none

/-- An `LV` syllable at the front with a `T` behind it. -/
def syllableCluster (src : Bytes) (k cp : ℕ) : Option (ℕ × ℕ) :=
  if isLV cp ∧ k < src.length then
    match u8dec (src.drop k) with
    | .char k2 cp2 => if isT cp2 then some (cp + (cp2 - tBase), k + k2) else none
    | _ => none
  else none

def composeLoop (omax : ℕ) : ℕ → Bytes → Bytes → Option Bytes
  | 0, _, out => some out
  | fuel + 1, src, out =>
      if src = [] then some out
      else
        match u8dec src with
        | .incomplete => some out
        | .invalid =>
            if omax ≤ out.length then none
            else composeLoop omax fuel (src.drop 1) (out ++ src.take 1)
        | .char k cp =>
            match (jamoCluster src k cp).or (syllableCluster src k cp) with
            | some (sy, adv) =>
                if omax < out.length + 3 then none
                else composeLoop omax fuel (src.drop adv) (out ++ u8enc sy)
            | none =>
                if omax < out.length + k then none
                else composeLoop omax fuel (src.drop k) (out ++ u8enc cp)

/-- `compose` into a buffer of `omax` bytes; `none` for -1. -/
def compose (src : Bytes) (omax : ℕ) : Option Bytes :=
  composeLoop omax src.length src []

/-! ## Streams -/

def joinMax : ℕ := 8192
def pendMax : ℕ := 16

structure TxtStream where
  pend : Bytes
  fits : pend.length ≤ pendMax

def TxtStream.init : TxtStream := ⟨[], by decide⟩

/-- The held bytes in front of the chunk, as far as the buffer goes. -/
def splice (s : TxtStream) (input : Bytes) : Bytes :=
  if s.pend = [] then input
  else s.pend ++ input.take (joinMax - s.pend.length)

theorem splice_append
    {s : TxtStream} {input : Bytes}
    (hroom : s.pend ≠ [] → s.pend.length + input.length ≤ joinMax) :
    splice s input = s.pend ++ input := by
  unfold splice
  split_ifs with hnil
  · rw [hnil, List.nil_append]
  · rw [List.take_of_length_le]
    have hlen := hroom hnil
    omega

/-- `hold` on a stream that `splice` has cleared. -/
def hold (p : Bytes) : TxtStream :=
  ⟨p.take pendMax, by simp⟩

/-- `txt_out` of one chunk: the bytes written and the stream after it. -/
def txtOut (s : TxtStream) (input : Bytes) (omax : ℕ) : Option Bytes × TxtStream :=
  let src := splice s input
  let lim := safeEnd src
  (compose (src.take lim) omax, hold (src.drop lim))

def txtFlush (s : TxtStream) (omax : ℕ) : Option Bytes × TxtStream :=
  if s.pend = [] then (some [], s)
  else (compose s.pend omax, TxtStream.init)

/-- The results of the chunks, in their order, and of the flush behind them. -/
def txtRun (omax : ℕ) : TxtStream → List Bytes → List (Option Bytes)
  | s, [] => [(txtFlush s omax).1]
  | s, c :: cs => (txtOut s c omax).1 :: txtRun omax (txtOut s c omax).2 cs

/-- The stream after the chunks. -/
def txtAfter (omax : ℕ) (s : TxtStream) (cs : List Bytes) : TxtStream :=
  cs.foldl (fun s c => (txtOut s c omax).2) s

end GrandCross
