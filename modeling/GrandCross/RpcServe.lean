import GrandCross.NfsProc
import GrandCross.SlotRing

/-!
# RPC dispatch and the duplicate request cache

`nfsd/rpc.c`: one datagram is parsed, matched against the route table and
answered.  Replies of routes marked `cache` go into a ring of 256 slots, keyed
by the client's endpoint and transaction id, and a live entry is replayed
without running the procedure again.
-/

namespace GrandCross

open CText EarlyExit

structure RpcCall where
  xid : ℕ
  prog : ℕ
  vers : ℕ
  proc : ℕ
  deriving DecidableEq

/-- `rpc_parse_call`; the credentials only fill fields no procedure reads. -/
def rpcParseCall (input : Bytes) : Option (RpcCall × Bytes) := do
  let (xid, rest) ← xdrGetU32 input
  let (mtype, rest) ← xdrGetU32 rest
  if mtype ≠ 0 then none
  else
    let (rpcvers, rest) ← xdrGetU32 rest
    if rpcvers ≠ 2 then none
    else
      let (prog, rest) ← xdrGetU32 rest
      let (vers, rest) ← xdrGetU32 rest
      let (proc, rest) ← xdrGetU32 rest
      let (_, rest) ← xdrGetU32 rest
      let (_, rest) ← xdrGetBytes rest
      let (_, rest) ← xdrGetU32 rest
      let (_, rest) ← xdrGetBytes rest
      pure (⟨xid, prog, vers, proc⟩, rest)

def replyHead (xid acceptStat : ℕ) (out : XdrOut) : XdrOut :=
  [xid, 1, 0, 0, 0, acceptStat].foldl xdrPutU32 out

/-! ## The cache -/

def drcSlots : ℕ := 256
def drcReplyMax : ℕ := 512
def drcTtl : ℤ := 30

structure Peer where
  addr : ℕ
  port : ℕ
  deriving DecidableEq

structure DrcEnt where
  valid : Bool
  peer : Peer
  xid : ℕ
  stamp : ℤ
  reply : Bytes
  deriving DecidableEq

def DrcEnt.unused : DrcEnt := ⟨false, ⟨0, 0⟩, 0, 0, []⟩

abbrev Drc := SlotRing DrcEnt drcSlots

def Drc.init : Drc where
  slots := List.replicate drcSlots DrcEnt.unused
  next := 0
  length_slots := List.length_replicate
  next_lt := by decide

def DrcEnt.hasKey (peer : Peer) (xid : ℕ) (e : DrcEnt) : Bool :=
  e.valid && e.xid == xid && e.peer == peer

def drcLookup (drc : Drc) (peer : Peer) (xid : ℕ) (now : ℤ) : Option DrcEnt :=
  drc.slots.find? fun e => e.hasKey peer xid && decide (now - e.stamp ≤ drcTtl)

def drcStore (drc : Drc) (peer : Peer) (xid : ℕ) (reply : Bytes) (now : ℤ) :
    Drc :=
  if drcReplyMax < reply.length then drc
  else drc.push ⟨true, peer, xid, now, reply⟩

/-! ## One datagram -/

structure Rpc (σ : Type) where
  srv : Srv σ
  drc : Drc

/-- A datagram with its sender, what other programs did to the file system
since the last one, and the clock at the lookup and at the store. -/
structure Datagram (σ : Type) where
  peer : Peer
  data : Bytes
  outside : σ → σ
  now : ℤ
  later : ℤ

/-- What became of a datagram: whether a procedure ran, whether its reply was
stored, and the reply that was sent. -/
structure Handled where
  ran : Bool
  stored : Bool
  sent : Option Bytes
  deriving DecidableEq

def rpcBufSize : ℕ := 65536

section Dispatch

variable {σ : Type} (routes : List (Route σ))

/-- The last route for a call. -/
def matchRoute (c : RpcCall) : Option (Route σ) :=
  (routes.filter fun r => r.prog = c.prog ∧ r.vers = c.vers ∧ r.proc = c.proc)
    |>.getLast?

/-- The answer to a call that no route serves. -/
def refuse (c : RpcCall) (out : XdrOut) : XdrOut :=
  let served := routes.filter fun r => r.prog = c.prog
  if served.isEmpty then replyHead c.xid 1 out
  else if served.any fun r => r.vers = c.vers then replyHead c.xid 3 out
  else
    let lo := (served.map Route.vers).foldl min 0x7fffffff
    let hi := (served.map Route.vers).foldl max 0
    xdrPutU32 (xdrPutU32 (replyHead c.xid 2 out) lo) hi

/-- Run a procedure on the header of a successful reply. -/
def runRoute (r : Route σ) (c : RpcCall) (rest : Bytes) (srv : Srv σ) :
    Option XdrOut × Srv σ :=
  match exec (r.fn rest (replyHead c.xid 0 (xdrInit rpcBufSize))) srv with
  | (.ok out, srv) => (some out, srv)
  | (.error exit, srv) => (exit, srv)

/-- The reply as it is sent, unless the encoder ran over. -/
def sendable : Option XdrOut → Option Bytes
  | some out => if out.err then none else some out.bytes
  | none => none

def handleOne (s : Rpc σ) (dg : Datagram σ) : Rpc σ × Handled :=
  let s := { s with srv := { s.srv with world := dg.outside s.srv.world } }
  match rpcParseCall dg.data with
  | none => (s, ⟨false, false, none⟩)
  | some (c, rest) =>
      match matchRoute routes c with
      | none =>
          (s, ⟨false, false, sendable (some (refuse routes c (xdrInit rpcBufSize)))⟩)
      | some r =>
          match if r.cache then drcLookup s.drc dg.peer c.xid dg.now else none with
          | some hit => (s, ⟨false, false, some hit.reply⟩)
          | none =>
              let res := runRoute r c rest s.srv
              let s := { s with srv := res.2 }
              match sendable res.1 with
              | none => (s, ⟨true, false, none⟩)
              | some reply =>
                  if r.cache then
                    ({ s with drc := drcStore s.drc dg.peer c.xid reply dg.later },
                      ⟨true, decide (reply.length ≤ drcReplyMax), some reply⟩)
                  else (s, ⟨true, false, some reply⟩)

/-- `rpc_serve` over the datagrams that arrive. -/
def serve (s : Rpc σ) (dgs : List (Datagram σ)) : Rpc σ :=
  dgs.foldl (fun s dg => (handleOne routes s dg).1) s

theorem serve_nil (s : Rpc σ) : serve routes s [] = s := rfl

theorem serve_cons (s : Rpc σ) (dg : Datagram σ) (dgs : List (Datagram σ)) :
    serve routes s (dg :: dgs) = serve routes (handleOne routes s dg).1 dgs := rfl

/-- What became of the datagrams, in their order. -/
def handledOf : Rpc σ → List (Datagram σ) → List Handled
  | _, [] => []
  | s, dg :: dgs =>
      (handleOne routes s dg).2 :: handledOf (handleOne routes s dg).1 dgs

/-- How many of the datagrams put a reply into the cache. -/
def storesOf : Rpc σ → List (Datagram σ) → ℕ
  | _, [] => 0
  | s, dg :: dgs =>
      (if (handleOne routes s dg).2.stored then 1 else 0) +
        storesOf (handleOne routes s dg).1 dgs

end Dispatch

/-- A server that just started on a file system. -/
def Rpc.start {σ : Type} (w : σ) : Rpc σ := ⟨⟨w, Table.empty⟩, Drc.init⟩

end GrandCross
