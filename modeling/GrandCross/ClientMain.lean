import GrandCross.Conf

/-!
# The client's command line

`client/main.c` reads its options and joins the arguments behind them into the
command line of a `RUN`, `RUNA` or `RUNI` request, a leading `@name` standing
for a tool of the host.
-/

namespace GrandCross

open CText Transfer

def atSign : Byte := 64

/-! ## Options -/

structure ClientOpts where
  ping : Bool
  stat : Bool
  async : Bool
  ix : Bool
  mapback : Bool
  put : Bool
  get : Bool
  deriving DecidableEq

def ClientOpts.start : ClientOpts := ⟨false, false, false, false, false, false, false⟩

/-- One argument that starts with a dash. -/
def ClientOpts.set (o : ClientOpts) (w : Bytes) : Option ClientOpts :=
  if w = ascii "--ping" then some { o with ping := true }
  else if w = ascii "--stat" then some { o with stat := true }
  else if w = ascii "--async" then some { o with async := true }
  else if w = ascii "-i" then some { o with ix := true }
  else if w = ascii "--mapback" then some { o with mapback := true }
  else if w = ascii "--put" then some { o with put := true }
  else if w = ascii "--get" then some { o with get := true }
  else none

/-- The options and the arguments behind them; `none` prints the usage. -/
def clientArgs : ClientOpts → List Bytes → Option (ClientOpts × List Bytes)
  | o, [] => some (o, [])
  | o, w :: rest =>
      if w.head? = some minus then
        match o.set w with
        | some o => clientArgs o rest
        | none => none
      else some (o, w :: rest)

/-! ## The command line -/

def rcKey (host what : Bytes) : Bytes :=
  let key := (gcdsStrlcat [] (ascii "host.") confKeyMax).1
  let key := (gcdsStrlcat key host confKeyMax).1
  let key := (gcdsStrlcat key (ascii ".") confKeyMax).1
  (gcdsStrlcat key what confKeyMax).1

/-- The configured value of a tool alias. -/
def toolValue (kv : List GcdsKv) (host name : Bytes) : Option Bytes :=
  let what := (gcdsStrlcat [] (ascii "tool.") confKeyMax).1
  let what := (gcdsStrlcat what name confKeyMax).1
  confGet kv (rcKey host what)

def toolExpand (kv : List GcdsKv) (host name : Bytes) (size : ℕ) : Option Bytes :=
  (toolValue kv host name).map fun v => (gcdsStrlcpy v size).1

/-- The loop that appends the remaining arguments; `none` when the command
line is too long. -/
def joinArgs : Bytes → List Bytes → Option Bytes
  | cmd, [] => some cmd
  | cmd, w :: ws =>
      let cmd := if cmd ≠ [] then (gcdsStrlcat cmd [sp] lineMax).1 else cmd
      if lineMax - 8 ≤ (gcdsStrlcat cmd w lineMax).2 then none
      else joinArgs (gcdsStrlcat cmd w lineMax).1 ws

def commandLine (kv : List GcdsKv) (host : Bytes) : List Bytes → Option Bytes
  | [] => some []
  | w :: ws =>
      if w.head? = some atSign then
        match toolExpand kv host (w.drop 1) lineMax with
        | none => none
        | some cmd => joinArgs cmd ws
      else joinArgs [] (w :: ws)

/-- A verb and its argument in the line buffer. -/
def requestLine (verb arg : Bytes) : Bytes :=
  (gcdsStrlcat (gcdsStrlcat [] verb lineMax).1 arg lineMax).1

end GrandCross
