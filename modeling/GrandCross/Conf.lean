import GrandCross.Exec
import Mathlib.Data.List.DropRight

/-!
# The daemon's configuration and its allow list

`common/conf.c` reads `key = value` lines with `fgets` into a bounded table,
`common/acl.c` matches a peer against the entries of the `allow` value.
-/

namespace GrandCross

open CText

def hash : Byte := 35
def equals : Byte := 61
def comma : Byte := 44
def period : Byte := 46
def cidrMark : Byte := 47

/-! ## `conf.c` -/

def isBlank (b : Byte) : Bool := b = sp ∨ b = tab

def isEndBlank (b : Byte) : Bool := b = sp ∨ b = tab ∨ b = cr ∨ b = lf

def trim (s : Bytes) : Bytes := (s.rdropWhile isEndBlank).dropWhile isBlank

/-- `fgets` into a buffer of `size` bytes: the bytes read and those left. -/
def fgets (size : ℕ) (file : Bytes) : Bytes × Bytes :=
  let line := (file.takeWhile (· ≠ lf)).length
  if line + 1 ≤ size - 1 then (file.take (line + 1), file.drop (line + 1))
  else (file.take (size - 1), file.drop (size - 1))

/-- One line of the file: its key and value, unless it is skipped. -/
def confEntry (line : Bytes) : Option (Bytes × Bytes) :=
  let line := trim line
  if line = [] ∨ line.head? = some hash then none
  else
    match cutAt equals line with
    | (_, none) => none
    | (key, some val) => if trim key = [] then none else some (trim key, trim val)

structure GcdsKv where
  key : Bytes
  val : Bytes
  deriving DecidableEq

def confKeyMax : ℕ := 64
def confValMax : ℕ := 384
def confEntMax : ℕ := 64

def storeKv (e : Bytes × Bytes) : GcdsKv :=
  ⟨(gcdsStrlcpy e.1 confKeyMax).1, (gcdsStrlcpy e.2 confValMax).1⟩

/-- The loop of `conf_load`, with room for `room` more entries. -/
def confLoop : ℕ → ℕ → Bytes → List GcdsKv
  | 0, _, _ => []
  | fuel + 1, room, file =>
      if room = 0 ∨ file = [] then []
      else
        match confEntry (cstr (fgets 1024 file).1) with
        | none => confLoop fuel room (fgets 1024 file).2
        | some e => storeKv e :: confLoop fuel (room - 1) (fgets 1024 file).2

def confLoad (file : Bytes) (maxkv : ℕ) : List GcdsKv :=
  confLoop (file.length + 1) maxkv file

def confGet (kv : List GcdsKv) (key : Bytes) : Option Bytes :=
  (kv.find? (·.key = key)).map GcdsKv.val

/-! ## `acl.c` -/

/-- The digits of an octet, its value and what follows. -/
def octLoop : Bytes → ℕ → ℕ → Option (ℕ × ℕ × Bytes)
  | [], oct, digits => some (oct, digits, [])
  | b :: s, oct, digits =>
      if isDigit b then
        if 255 < oct * 10 + digitVal b ∨ 3 < digits + 1 then none
        else octLoop s (oct * 10 + digitVal b) (digits + 1)
      else some (oct, digits, b :: s)

def ipOctets : ℕ → ℕ → Bytes → Option (ℕ × Bytes)
  | 0, v, s => some (v, s)
  | left + 1, v, s =>
      match octLoop s 0 0 with
      | none => none
      | some (oct, digits, s) =>
          if digits = 0 then none
          else if left = 0 then some (v <<< 8 ||| oct, s)
          else
            match s with
            | b :: s => if b = period then ipOctets left (v <<< 8 ||| oct) s else none
            | [] => none

/-- `parse_ip`: the address and what follows it. -/
def parseIp (s : Bytes) : Option (ℕ × Bytes) := ipOctets 4 0 s

/-- The digits of the prefix length and what follows. -/
def bitsLoop : Bytes → ℕ → Option (ℕ × Bytes)
  | [], bits => some (bits, [])
  | b :: s, bits =>
      if isDigit b then
        if 32 < bits * 10 + digitVal b then none
        else bitsLoop s (bits * 10 + digitVal b)
      else some (bits, b :: s)

def maskOf (bits : ℕ) : ℕ :=
  (if bits = 0 then 0 else 0xFFFFFFFF <<< (32 - bits)) &&& 0xFFFFFFFF

def matchEntry (ent : Bytes) (peer : ℕ) : Bool :=
  if ent.length = 0 ∨ 64 ≤ ent.length then false
  else
    match parseIp ent with
    | none => false
    | some (net, []) => peer = net
    | some (net, b :: p) =>
        if b ≠ cidrMark then false
        else
          match p with
          | [] => false
          | d :: _ =>
              if isDigit d then
                match bitsLoop p 0 with
                | some (bits, []) => peer &&& maskOf bits = net &&& maskOf bits
                | _ => false
              else false

def isListSep (b : Byte) : Bool := b = sp ∨ b = tab ∨ b = comma

def aclLoop (peer : ℕ) : ℕ → Bytes → Bool
  | 0, _ => false
  | fuel + 1, s =>
      if s = [] then false
      else
        let start := s.dropWhile isListSep
        let ent := start.takeWhile (! isListSep ·)
        if ent ≠ [] ∧ matchEntry ent peer then true
        else aclLoop peer fuel (start.dropWhile (! isListSep ·))

def aclAllowed (allow ip : Bytes) : Bool :=
  if allow = [] then true
  else
    match parseIp ip with
    | none => false
    | some (peer, _) => aclLoop peer allow.length allow

/-! ## `session.c` -/

def allowBuf : ℕ := 512

/-- `session_set_acl`: what `g_allow` holds afterwards. -/
def sessionSetAcl (allow : Option Bytes) : Bytes :=
  match allow with
  | none => []
  | some allow => (gcdsStrlcpy allow allowBuf).1

/-- `session_peer_ok` in a daemon started with the given file. -/
def sessionPeerOk (file : Bytes) (maxkv : ℕ) (ip : Bytes) : Bool :=
  aclAllowed (sessionSetAcl (confGet (confLoad file maxkv) (ascii "allow"))) ip

/-- `inet_ntoa`. -/
def inetNtoa (a b c d : Byte) : Bytes :=
  decimal a.toNat ++ period :: (decimal b.toNat ++ period ::
    (decimal c.toNat ++ period :: decimal d.toNat))

/-! ## The lines of a text -/

/-- The lines of a text, without their line feeds. -/
def linesOf (text : Bytes) : List Bytes := text.splitOn lf

theorem linesOf_line
    {line rest : Bytes} (hline : lf ∉ line) :
    linesOf (line ++ lf :: rest) = line :: linesOf rest := by
  unfold linesOf
  rw [List.splitOn_eq_splitOnP, List.splitOn_eq_splitOnP]
  apply List.splitOnP_append_cons_of_forall_mem
  · intro b hb
    have hne : b ≠ lf := fun h => hline (h ▸ hb)
    simpa using hne
  · rfl

theorem linesOf_last {line : Bytes} (hline : lf ∉ line) : linesOf line = [line] := by
  unfold linesOf
  rw [List.splitOn_eq_splitOnP]
  apply List.splitOnP_eq_singleton
  intro b hb
  have hne : b ≠ lf := fun h => hline (h ▸ hb)
  simpa using hne

end GrandCross
