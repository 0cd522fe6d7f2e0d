import GrandCross.DaemonStep

/-!
# Supervised execution on Windows

`live_w32.c` polls: sockets with `select`, the output pipes with
`PeekNamedPipe`, the process with `WaitForSingleObject`.  One pass reads at most
one frame of the client and one piece of each stream; a kill takes effect at
once and what the child still writes is relayed.
-/

namespace GrandCross

open CText
open Transfer

/-! ## The loop -/

/-- The locals of `live_exec`.  An output pipe is `none` once it is done; the
stdin pipe carries what its coming writes return.  `fed` is what the child was
given and `kills` counts the calls of `kill_job`. -/
structure W32Live where
  chan : Chan
  src : Source
  out : Option Bytes
  err : Option Bytes
  hin : Option (List Bool)
  killed : Bool
  total : ℕ
  capped : Bool
  holdOut : Bytes
  holdErr : Bytes
  fed : Bytes
  kills : ℕ

/-- What one pass finds: a readable session, the pipes, the size of the capture
files, and whether the process has ended. -/
structure W32Pass where
  sess : Bool := false
  out : Option ℕ := none
  err : Option ℕ := none
  size : ℕ := 0
  exited : Bool := false

def W32Live.pipe (st : W32Live) : Stream → Option Bytes
  | .out => st.out
  | .err => st.err

def W32Live.hold (st : W32Live) : Stream → Bytes
  | .out => st.holdOut
  | .err => st.holdErr

def W32Live.afterRead (st : W32Live) (s : Stream) (pipe : Option Bytes) (hold : Bytes)
    (n : ℕ) : W32Live :=
  match s with
  | .out => { st with out := pipe, holdOut := hold, total := st.total + n }
  | .err => { st with err := pipe, holdErr := hold, total := st.total + n }

/-- `PeekNamedPipe` on a pipe that still holds `rest`: nothing has been written
yet, or up to `k + 1` bytes have; it fails when the child's side is closed and
the pipe is empty. -/
def peekNamedPipe (rest : Bytes) : Option ℕ → Option ℕ
  | none => some 0
  | some k => if rest = [] then none else some (min (k + 1) rest.length)

/-- `pump`: false on a session write error. -/
def pumpW32 (cfg : Cfg) (st : W32Live) (s : Stream) (seen : Option ℕ) : Bool × W32Live :=
  match st.pipe s with
  | none => (true, st)
  | some rest =>
      match peekNamedPipe rest seen with
      | none => (true, st.afterRead s none (st.hold s) 0)
      | some avail =>
          if avail = 0 then (true, st)
          else
            let data := rest.take (min avail (chanChunk st.chan))
            match convertOut cfg (st.hold s) data with
            | none => (false, st.afterRead s (some (rest.drop data.length)) (st.hold s) data.length)
            | some (hold, text) =>
                let st' := st.afterRead s (some (rest.drop data.length)) hold data.length
                if text = [] then (true, st')
                else
                  let w := lioPutFrame cfg.build.frameMax st.chan s.tag text
                  (w.1, { st' with chan := w.2 })

def W32Live.killJob (st : W32Live) : W32Live := { st with kills := st.kills + 1 }

/-- `WriteFile` to the child's stdin, or the payload dropped. -/
def W32Live.writeFile (st : W32Live) (data : Bytes) : W32Live :=
  match st.hin with
  | none => st
  | some plan =>
      if st.killed then st
      else if plan.headD true then { st with hin := some plan.tail, fed := st.fed ++ data }
      else { st with hin := none }

/-- `runi_frame` with a header line read; `none` is fatal. -/
def runiFrameW32 (cfg : Cfg) (st : W32Live) (line : Bytes) : Option W32Live :=
  match line with
  | [75] => some (if st.killed then st else { st.killJob with killed := true })
  | 73 :: 32 :: num =>
      let n := atol num
      if n < 0 ∨ (cfg.build.frameMax : ℤ) < n then none
      else if n = 0 then some { st with hin := none }
      else
        match st.src.readN n.toNat with
        | none => none
        | some (data, src) => some (W32Live.writeFile { st with src := src } data)
  | _ => none

/-- Input on the session channel: whether the session is lost. -/
def sessW32 (cfg : Cfg) (mode : LiveMode) (st : W32Live) (p : W32Pass) : Bool × W32Live :=
  if p.sess then
    match mode with
    | .job => (false, st)
    | .run => (true, st)
    | .runi =>
        match lioGetLine lineMax st.src with
        | (.ok line, src) =>
            match runiFrameW32 cfg { st with src := src } (cstr line) with
            | some st' => (false, st')
            | none => (true, { st with src := src })
        | (_, src) => (true, { st with src := src })
  else (false, st)

/-- The output cap; the kill leaves `killed` as it is. -/
def capW32 (cfg : Cfg) (mode : LiveMode) (st : W32Live) (p : W32Pass) : W32Live :=
  if 0 < cfg.maxout ∧ st.capped = false ∧
      cfg.maxout < (if mode = .job then p.size else st.total) then
    let st : W32Live := { st with capped := true }
    if mode = .job then st.killJob
    else
      W32Live.killJob
        { st with chan := (lioPutFrame cfg.build.frameMax st.chan Stream.err.tag capNotice).2 }
  else st

def w32Pass (cfg : Cfg) (mode : LiveMode) (st : W32Live) (p : W32Pass) : Bool × W32Live :=
  let si := sessW32 cfg mode st p
  let po := pumpW32 cfg si.2 .out p.out
  let pe := pumpW32 cfg po.2 .err p.err
  (si.1 || !po.1 || !pe.1, capW32 cfg mode pe.2 p)

inductive W32End where
  | watching (st : W32Live)
  | ended (st : W32Live)
  | lost (st : W32Live)

/-- The loop of `live_exec`. -/
def w32Exec (cfg : Cfg) (mode : LiveMode) : W32Live → List W32Pass → W32End
  | st, [] => .watching st
  | st, p :: ps =>
      let r := w32Pass cfg mode st p
      if r.1 then .lost r.2.killJob
      else if r.2.out = none ∧ r.2.err = none ∧ p.exited then .ended r.2
      else w32Exec cfg mode r.2 ps

/-- `cv_flush_all`: 0 or -1. -/
def cvFlushW32 (cfg : Cfg) (st : W32Live) : Bool × W32Live :=
  match cfg.cv with
  | none => (true, st)
  | some cv =>
      let flushOne (st : W32Live) (s : Stream) : Bool × W32Live :=
        if 0 < (cv.flush (st.hold s)).length then
          let w := lioPutFrame cfg.build.frameMax st.chan s.tag (cv.flush (st.hold s))
          (w.1, { st with chan := w.2 })
        else (true, st)
      let w := flushOne st .out
      if w.1 then flushOne w.2 .err else w

/-- What `live_exec` returns when the process has ended with `code`; nothing
while it is still watched. -/
def w32Return (cfg : Cfg) (mode : LiveMode) (code : ℕ) : W32End → Option (ℤ × W32Live)
  | .watching _ => none
  | .lost st => some (-2, if mode = .job then st else (cvFlushW32 cfg st).2)
  | .ended st =>
      let w := if mode = .job then (true, st) else cvFlushW32 cfg st
      some (if w.1 then (if 255 < code then 255 else (code : ℤ)) else -2, w.2)

/-- The state in front of the loop; a job's output goes to its files. -/
def W32Live.start (mode : LiveMode) (c : Chan) (src : Source) (child : Child)
    (hin : Option (List Bool)) : W32Live where
  chan := c
  src := src
  out := if mode = .job then none else some child.out
  err := if mode = .job then none else some child.err
  hin := hin
  killed := false
  total := 0
  capped := false
  holdOut := []
  holdErr := []
  fed := []
  kills := 0

@[simp] theorem W32Live.afterRead_pipe
    (st : W32Live) (s t : Stream) (pipe : Option Bytes) (hold : Bytes) (n : ℕ) :
    (st.afterRead s pipe hold n).pipe t = if t = s then pipe else st.pipe t := by
  cases s <;> cases t <;> rfl

end GrandCross
