import GrandCross.PutSync

/-!
# Downloads

`xfer_get` reads D frames into a local file up to the D 0 frame.  Without a
local file it reads the stream all the same, to keep the session sane.
-/

namespace GrandCross

open CText
open Transfer

/-- What the local file system answers to `xfer_get`. -/
structure LocalFile where
  create : Bool := true
  fwrite : List Bool := []
  fclose : Bool := true
  deriving DecidableEq

/-- The loop of `xfer_get`: the stream, the answers to the coming `fwrite`
calls, and what the file holds. -/
structure Get where
  inp : Source
  fwrite : List Bool
  saved : Bytes
  deriving DecidableEq

def getLine (rpath : Bytes) : Bytes :=
  (gcdsStrlcat (gcdsStrlcat [] (ascii "GET ") lineMax).1 rpath lineMax).1

/-- A header line of `xfer_get`: `none` to go on, `some true` behind the last
frame. -/
def getFrame (frameMax : ℕ) (g : Get) (line : Bytes) : Option Bool × Get :=
  match line with
  | 68 :: 32 :: num =>
      let n := atol num
      if n = 0 then (some true, g)
      else if n < 0 ∨ (frameMax : ℤ) < n then (some false, g)
      else
        match g.inp.readN n.toNat with
        | none => (some false, g)
        | some (data, inp) =>
            if g.fwrite.headD true then
              (none, ⟨inp, g.fwrite.tail, g.saved ++ data⟩)
            else (some false, ⟨inp, g.fwrite.tail, g.saved⟩)
  | _ => (some false, g)

/-- Every turn reads at least the LF of a header. -/
def getLoop (frameMax : ℕ) : ℕ → Get → Bool × Get
  | 0, g => (false, g)
  | fuel + 1, g =>
      match lioGetLine lineMax g.inp with
      | (.ok line, inp) =>
          match getFrame frameMax { g with inp := inp } (cstr line) with
          | (some done, g') => (done, g')
          | (none, g') => getLoop frameMax fuel g'
      | (_, inp) => (false, { g with inp := inp })

/-- The same header when there is no local file: `none` when the stream is
not read any further. -/
def drainFrame (frameMax : ℕ) (inp : Source) (line : Bytes) : Option Source :=
  match line with
  | 68 :: 32 :: num =>
      let n := atol num
      if n = 0 then none
      else if n < 0 ∨ (frameMax : ℤ) < n then none
      else (inp.readN n.toNat).map Prod.snd
  | _ => none

def drainLoop (frameMax : ℕ) : ℕ → Source → Source
  | 0, inp => inp
  | fuel + 1, inp =>
      match lioGetLine lineMax inp with
      | (.ok line, inp') =>
          match drainFrame frameMax inp' (cstr line) with
          | some inp'' => drainLoop frameMax fuel inp''
          | none => inp'
      | (_, inp') => inp'

/-- The code that `xfer_get` returns, the connection and what the local file
holds, when it could be created. -/
def xferGet (frameMax : ℕ) (link : Link) (rpath : Bytes) (file : LocalFile) :
    ℤ × Link × Option Bytes :=
  match rcCmd link (getLine rpath) with
  | (none, link) => (-1, link, none)
  | (some line, link) =>
      if line ≠ ascii "OK" then (-1, link, none)
      else if file.create then
        let r := getLoop frameMax (link.inp.pending.length + 1)
          ⟨link.inp, file.fwrite, []⟩
        let code : ℤ := if r.1 && file.fclose then 0 else -1
        (code, ⟨link.chan, r.2.inp⟩, some r.2.saved)
      else
        (-1, ⟨link.chan, drainLoop frameMax (link.inp.pending.length + 1) link.inp⟩,
          none)

end GrandCross
