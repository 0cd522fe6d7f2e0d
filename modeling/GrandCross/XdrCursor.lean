import GrandCross.Xdr

/-!
# The XDR cursor in its buffer

`nfsd/xdr.c` word by word: one cursor over a buffer of fixed capacity, used to
decode and to encode, with the machine arithmetic of its bound checks.  An
access outside the buffer is a fault.  The decoders and encoders of `Xdr` are
what the cursor does as long as nothing faults.
-/

namespace GrandCross

open CText

/-- `xdr_t`; the capacity is the length of the buffer. -/
structure XdrT where
  buf : Bytes
  pos : ℕ
  err : Bool
  deriving DecidableEq

namespace XdrT

/-- What a call does: it returns 0 with its result, it returns -1, or it
touches memory outside the buffer. -/
inductive Outcome (α : Type) where
  | done (a : α) (x : XdrT)
  | failed (x : XdrT)
  | fault

def XdrM (α : Type) := XdrT → Outcome α

instance : Monad XdrM where
  pure a := fun x => .done a x
  bind m f := fun x =>
    match m x with
    | .done a y => f a y
    | .failed y => .failed y
    | .fault => .fault

theorem bind_done
    {α β : Type} {m : XdrM α} {f : α → XdrM β} {x y : XdrT} {a : α}
    (h : m x = .done a y) : (m >>= f) x = f a y := by
  show (match m x with
    | .done a y => f a y
    | .failed y => .failed y
    | .fault => .fault) = _
  rw [h]

theorem bind_failed
    {α β : Type} {m : XdrM α} {f : α → XdrM β} {x y : XdrT}
    (h : m x = .failed y) : (m >>= f) x = .failed y := by
  show (match m x with
    | .done a y => f a y
    | .failed y => .failed y
    | .fault => .fault) = _
  rw [h]

def init (buf : Bytes) : XdrT := ⟨buf, 0, false⟩

/-- `xdr_reset` to the start. -/
def reset (x : XdrT) : XdrT := ⟨x.buf, 0, false⟩

/-- `pos + n > cap` in `size_t`. -/
def need (n : ℕ) : XdrM Unit := fun x =>
  if x.err ∨ x.buf.length < (x.pos + n) % 2 ^ 64 then .failed { x with err := true }
  else .done () x

/-- Read `n` bytes at the cursor. -/
def load (n : ℕ) : XdrM Bytes := fun x =>
  if x.pos + n ≤ x.buf.length then .done ((x.buf.drop x.pos).take n) x else .fault

def overwrite (x : XdrT) (data : Bytes) : XdrT :=
  { x with buf := x.buf.take x.pos ++ data ++ x.buf.drop (x.pos + data.length) }

/-- Write at the cursor. -/
def store (data : Bytes) : XdrM Unit := fun x =>
  if x.pos + data.length ≤ x.buf.length then .done () (x.overwrite data) else .fault

/-- `pos += n`, with the `uint32_t` sum on the right. -/
def advance (n : ℕ) : XdrM Unit := fun x =>
  .done () { x with pos := (x.pos + n % 2 ^ 32) % 2 ^ 64 }

def fail {α : Type} : XdrM α := fun x => .failed { x with err := true }

def word : Bytes → UInt32
  | [a, b, c, d] => UInt32.ofNat (wordOf a b c d)
  | _ => 0

def getU32 : XdrM UInt32 := do
  need 4
  let p ← load 4
  advance 4
  pure (word p)

def getI32 : XdrM Int32 := do
  let u ← getU32
  pure u.toInt32

def getBytes : XdrM Bytes := do
  let n ← getU32
  need n.toNat
  need (n.toNat + padOf n.toNat)
  let p ← load n.toNat
  advance (n.toNat + padOf n.toNat)
  pure p

def getFixed (len : UInt32) : XdrM Bytes := do
  need (len.toNat + padOf len.toNat)
  let p ← load len.toNat
  advance (len.toNat + padOf len.toNat)
  pure p

/-- `xdr_get_string`: the bytes copied to `out` in front of the NUL. -/
def getString (max : ℕ) : XdrM Bytes := do
  let p ← getBytes
  if max ≤ p.length then fail else pure p

def putU32 (v : UInt32) : XdrM Unit := do
  need 4
  store (be32 v.toNat)
  advance 4

def putI32 (v : Int32) : XdrM Unit := putU32 v.toUInt32

/-- Bytes that a caller can pass: their number is a `uint32_t`. -/
abbrev Blob := { p : Bytes // p.length < 2 ^ 32 }

def putFixed (p : Blob) : XdrM Unit := do
  need (p.1.length + padOf p.1.length)
  store (p.1 ++ List.replicate (padOf p.1.length) 0)
  advance (p.1.length + padOf p.1.length)

def putBytes (p : Blob) : XdrM Unit := do
  putU32 (UInt32.ofNat p.1.length)
  putFixed p

/-! ## Decoding from what is left -/

/-- The capacity is at most that of the server's buffers, and the cursor is
inside. -/
structure Ok (x : XdrT) : Prop where
  pos : x.pos ≤ x.buf.length
  cap : x.buf.length ≤ 65536

def left (x : XdrT) : Bytes := x.buf.drop x.pos

def broken (x : XdrT) : XdrT := { x with err := true }

def skip (x : XdrT) (n : ℕ) : XdrT := { x with pos := x.pos + n }

theorem left_length (x : XdrT) : x.left.length = x.buf.length - x.pos :=
  List.length_drop

theorem left_skip (x : XdrT) (n : ℕ) : (x.skip n).left = x.left.drop n := by
  simp [left, skip, List.drop_drop]

theorem Ok.skip {x : XdrT} (hx : x.Ok) {n : ℕ} (hn : n ≤ x.left.length) :
    (x.skip n).Ok := by
  rw [left_length] at hn
  have hpos := hx.pos
  exact ⟨by simp only [XdrT.skip]; omega, hx.cap⟩

theorem need_eq {x : XdrT} (hx : x.Ok) {n : ℕ} (hn : n < 2 ^ 33) :
    need n x = if x.err ∨ x.left.length < n then .failed x.broken else .done () x := by
  have hpos := hx.pos
  have hcap := hx.cap
  have hmod : (x.pos + n) % 2 ^ 64 = x.pos + n := Nat.mod_eq_of_lt (by omega)
  have hiff : x.buf.length < x.pos + n ↔ x.left.length < n := by
    rw [left_length]
    omega
  simp only [need, hmod, hiff, broken]

theorem load_eq {x : XdrT} (hx : x.Ok) {n : ℕ} (hn : n ≤ x.left.length) :
    load n x = .done (x.left.take n) x := by
  have hpos := hx.pos
  rw [left_length] at hn
  exact if_pos (by omega)

theorem advance_eq {x : XdrT} (hx : x.Ok) {n : ℕ} (hn : n ≤ x.left.length) :
    advance n x = .done () (x.skip n) := by
  have hpos := hx.pos
  have hcap := hx.cap
  rw [left_length] at hn
  have hword : n % 2 ^ 32 = n := Nat.mod_eq_of_lt (by omega)
  have hsize : (x.pos + n) % 2 ^ 64 = x.pos + n := Nat.mod_eq_of_lt (by omega)
  simp only [advance, hword, hsize, skip]

theorem padOf_lt (n : ℕ) : padOf n < 4 := Nat.mod_lt _ (by omega)

/-- A call of the cursor reads what the decoder reads of the bytes that are
left, and fails where the decoder has no result. -/
def Reads {α : Type} (x : XdrT) (o : Outcome α) (r : Option (α × Bytes)) : Prop :=
  match o, r with
  | .done a y, some (b, rest) =>
      a = b ∧ y.left = rest ∧ y.Ok ∧ y.buf = x.buf ∧ y.err = false
  | .failed y, none => y.Ok ∧ y.buf = x.buf ∧ y.err = true
  | _, _ => False

theorem getFixed_reads
    {x : XdrT} (hx : x.Ok) (herr : x.err = false) (len : UInt32) :
    Reads x (getFixed len x) (xdrGetFixed len.toNat x.left) := by
  have hlen := len.toNat_lt
  have hpad := padOf_lt len.toNat
  have hneed := need_eq hx (n := len.toNat + padOf len.toNat) (by omega)
  by_cases hshort : x.left.length < len.toNat + padOf len.toNat
  · have hfail : getFixed len x = .failed x.broken := by
      rw [if_pos (Or.inr hshort)] at hneed
      exact bind_failed hneed
    rw [hfail, xdrGetFixed, if_pos hshort]
    exact ⟨⟨hx.pos, hx.cap⟩, rfl, rfl⟩
  · have hdone : getFixed len x =
        .done (x.left.take len.toNat) (x.skip (len.toNat + padOf len.toNat)) := by
      rw [if_neg (by simp [herr]; omega)] at hneed
      rw [getFixed, bind_done hneed, bind_done (load_eq hx (by omega)),
        bind_done (advance_eq hx (by omega))]
      rfl
    rw [hdone, xdrGetFixed, if_neg hshort]
    exact ⟨rfl, left_skip x _, hx.skip (by omega), rfl, herr⟩

theorem getU32_eq {x : XdrT} (hx : x.Ok) (herr : x.err = false) :
    getU32 x = if x.left.length < 4 then .failed x.broken
      else .done (word (x.left.take 4)) (x.skip 4) := by
  have hneed := need_eq hx (n := 4) (by omega)
  by_cases hshort : x.left.length < 4
  · rw [if_pos (Or.inr hshort)] at hneed
    rw [if_pos hshort]
    exact bind_failed hneed
  · rw [if_neg (by simp [herr]; omega)] at hneed
    rw [if_neg hshort, getU32, bind_done hneed, bind_done (load_eq hx (by omega)),
      bind_done (advance_eq hx (by omega))]
    rfl

theorem getU32_reads {x : XdrT} (hx : x.Ok) (herr : x.err = false) :
    Reads x (getU32 x)
      ((xdrGetU32 x.left).map fun r => (UInt32.ofNat r.1, r.2)) := by
  rw [getU32_eq hx herr]
  have hskip := left_skip x 4
  have hroom := fun hn => hx.skip (n := 4) hn
  match hleft : x.left with
  | [] => exact ⟨⟨hx.pos, hx.cap⟩, rfl, rfl⟩
  | [_] => exact ⟨⟨hx.pos, hx.cap⟩, rfl, rfl⟩
  | [_, _] => exact ⟨⟨hx.pos, hx.cap⟩, rfl, rfl⟩
  | [_, _, _] => exact ⟨⟨hx.pos, hx.cap⟩, rfl, rfl⟩
  | a :: b :: c :: d :: rest =>
      rw [hleft] at hskip hroom
      rw [if_neg (by simp)]
      exact ⟨rfl, hskip, hroom (by simp), rfl, herr⟩

/-- Calls in sequence read what the decoders read in sequence. -/
theorem Reads.bind
    {α β : Type} {x : XdrT} {m : XdrM α} {f : α → XdrM β} {r : Option (α × Bytes)}
    {g : α → Bytes → Option (β × Bytes)} (hm : Reads x (m x) r)
    (hf : ∀ a y, y.Ok → y.buf = x.buf → y.err = false → Reads y (f a y) (g a y.left)) :
    Reads x ((m >>= f) x) (r.bind fun p => g p.1 p.2) := by
  cases hmx : m x with
  | fault =>
      rw [hmx] at hm
      cases r <;> exact hm.elim
  | failed y =>
      rw [hmx] at hm
      rw [bind_failed hmx]
      cases r with
      | none => exact hm
      | some p => exact hm.elim
  | done a y =>
      rw [hmx] at hm
      rw [bind_done hmx]
      cases r with
      | none => exact hm.elim
      | some p =>
          obtain ⟨b, rest⟩ := p
          obtain ⟨rfl, rfl, hok, hbuf, herr⟩ := hm
          have hnext := hf a y hok hbuf herr
          rw [Option.bind_some]
          unfold Reads at hnext ⊢
          rw [← hbuf]
          exact hnext

theorem xdrGetU32_lt
    {input rest : Bytes} {v : ℕ} (h : xdrGetU32 input = some (v, rest)) : v < 2 ^ 32 := by
  match input with
  | [] => simp [xdrGetU32] at h
  | [_] => simp [xdrGetU32] at h
  | [_, _] => simp [xdrGetU32] at h
  | [_, _, _] => simp [xdrGetU32] at h
  | a :: b :: c :: d :: _ =>
      simp only [xdrGetU32, Option.some.injEq, Prod.mk.injEq] at h
      rw [← h.1]
      exact wordOf_lt a b c d

theorem getBytes_reads {x : XdrT} (hx : x.Ok) (herr : x.err = false) :
    Reads x (getBytes x) (xdrGetBytes x.left) := by
  have hcode : getBytes = getU32 >>= fun n => need n.toNat >>= fun _ => getFixed n := rfl
  have hspec : xdrGetBytes x.left =
      ((xdrGetU32 x.left).map fun r => (UInt32.ofNat r.1, r.2)).bind fun p =>
        if p.2.length < p.1.toNat then none else xdrGetFixed p.1.toNat p.2 := by
    unfold xdrGetBytes xdrGetFixed
    cases hword : xdrGetU32 x.left with
    | none => rfl
    | some p =>
        obtain ⟨n, rest⟩ := p
        have hn : (UInt32.ofNat n).toNat = n := by
          rw [UInt32.toNat_ofNat', Nat.mod_eq_of_lt (xdrGetU32_lt hword)]
        simp [hn]
  rw [hcode, hspec]
  apply (getU32_reads hx herr).bind
    (g := fun n rest => if rest.length < n.toNat then none else xdrGetFixed n.toNat rest)
  intro n y hy _ hyerr
  have hlen := n.toNat_lt
  have hneed := need_eq hy (n := n.toNat) (by omega)
  by_cases hshort : y.left.length < n.toNat
  · rw [if_pos (Or.inr hshort)] at hneed
    rw [if_pos hshort, bind_failed hneed]
    exact ⟨⟨hy.pos, hy.cap⟩, rfl, rfl⟩
  · rw [if_neg (by simp [hyerr]; omega)] at hneed
    rw [if_neg hshort, bind_done hneed]
    exact getFixed_reads hy hyerr n

theorem getI32_reads {x : XdrT} (hx : x.Ok) (herr : x.err = false) :
    Reads x (getI32 x)
      ((xdrGetU32 x.left).map fun r => ((UInt32.ofNat r.1).toInt32, r.2)) := by
  have hspec : ((xdrGetU32 x.left).map fun r => ((UInt32.ofNat r.1).toInt32, r.2)) =
      ((xdrGetU32 x.left).map fun r => (UInt32.ofNat r.1, r.2)).bind fun p =>
        some (p.1.toInt32, p.2) := by
    cases xdrGetU32 x.left <;> rfl
  rw [hspec]
  apply (getU32_reads hx herr).bind (f := fun u => pure u.toInt32)
    (g := fun u rest => some (u.toInt32, rest))
  intro u y hy _ hyerr
  exact ⟨rfl, rfl, hy, rfl, hyerr⟩

/-- `xdr_get_string` sets the error flag behind what it has read. -/
theorem getString_reads {x : XdrT} (hx : x.Ok) (herr : x.err = false) (max : ℕ) :
    Reads x (getString max x) ((xdrGetBytes x.left).bind fun p =>
      if max ≤ p.1.length then none else some p) := by
  apply (getBytes_reads hx herr).bind
    (g := fun p rest => if max ≤ p.length then none else some (p, rest))
  intro p y hy _ hyerr
  by_cases hlong : max ≤ p.length
  · rw [if_pos hlong, if_pos hlong]
    exact ⟨⟨hy.pos, hy.cap⟩, rfl, rfl⟩
  · rw [if_neg hlong, if_neg hlong]
    exact ⟨rfl, rfl, hy, rfl, hyerr⟩

/-! ## Encoding in front of the cursor -/

/-- What has been written so far. -/
def written (x : XdrT) : XdrOut := ⟨x.buf.take x.pos, x.buf.length, x.err⟩

/-- A call of the cursor writes what the encoder appends. -/
def Writes (x : XdrT) (o : Outcome Unit) (out : XdrOut) : Prop :=
  match o with
  | .done _ y =>
      y.written = out ∧ y.Ok ∧ y.buf.length = x.buf.length ∧ out.err = false
  | .failed y =>
      y.written = out ∧ y.Ok ∧ y.buf.length = x.buf.length ∧ out.err = true
  | .fault => False

theorem store_eq {x : XdrT} (hx : x.Ok) {data : Bytes} (hroom : data.length ≤ x.left.length) :
    store data x = .done () (x.overwrite data) := by
  have hpos := hx.pos
  rw [left_length] at hroom
  exact if_pos (by omega)

theorem overwrite_length
    {x : XdrT} {data : Bytes} (hroom : x.pos + data.length ≤ x.buf.length) :
    (x.overwrite data).buf.length = x.buf.length := by
  simp only [overwrite, List.length_append, List.length_take, List.length_drop]
  omega

/-- Behind the step the new bytes follow the old ones. -/
theorem overwrite_written
    {x : XdrT} {data : Bytes} (hroom : x.pos + data.length ≤ x.buf.length) :
    ((x.overwrite data).skip data.length).written =
      ⟨x.buf.take x.pos ++ data, x.buf.length, x.err⟩ := by
  have htake : (x.buf.take x.pos ++ data ++ x.buf.drop (x.pos + data.length)).take
      (x.pos + data.length) = x.buf.take x.pos ++ data := by
    apply List.take_left'
    rw [List.length_append, List.length_take]
    omega
  have hlen := overwrite_length hroom
  unfold overwrite at hlen
  simp only [written, skip, overwrite, htake, hlen]

/-- The check, the bytes and the step of every encoder. -/
def put (data : Bytes) : XdrM Unit := do
  need data.length
  store data
  advance data.length

theorem put_writes
    {x : XdrT} (hx : x.Ok) (herr : x.err = false) (data : Bytes)
    (hdata : data.length < 2 ^ 33) :
    Writes x (put data x) (x.written.put data) := by
  have hpos := hx.pos
  have hcap := hx.cap
  have hneed := need_eq hx hdata
  have hlen : (x.buf.take x.pos).length = x.pos := by
    rw [List.length_take]
    omega
  by_cases hshort : x.left.length < data.length
  · rw [if_pos (Or.inr hshort)] at hneed
    have hfull : x.buf.length < x.pos + data.length := by
      rw [left_length] at hshort
      omega
    have hout : x.written.put data = x.broken.written := by
      simp [XdrOut.put, written, broken, hlen, hfull]
    rw [put, bind_failed hneed, hout]
    exact ⟨rfl, ⟨hx.pos, hx.cap⟩, rfl, rfl⟩
  · rw [if_neg (by simp [herr]; omega)] at hneed
    have hroom : x.pos + data.length ≤ x.buf.length := by
      rw [left_length] at hshort
      omega
    have hsame := overwrite_length hroom
    have hstored : (x.overwrite data).Ok :=
      ⟨by rw [hsame]; exact hpos, by rw [hsame]; exact hcap⟩
    have hleft : data.length ≤ (x.overwrite data).left.length := by
      rw [left_length, hsame]
      exact Nat.le_sub_of_add_le' hroom
    have hout : x.written.put data = ((x.overwrite data).skip data.length).written := by
      rw [overwrite_written hroom, written, herr]
      exact XdrOut.put_ok (by rw [hlen]; exact hroom)
    rw [put, bind_done hneed, bind_done (store_eq hx (by omega)),
      advance_eq hstored hleft, hout]
    exact ⟨rfl, hstored.skip hleft, hsame, herr⟩

theorem putU32_writes {x : XdrT} (hx : x.Ok) (herr : x.err = false) (v : UInt32) :
    Writes x (putU32 v x) (xdrPutU32 x.written v.toNat) :=
  put_writes hx herr (be32 v.toNat) (by rw [be32_length]; omega)

theorem putFixed_writes {x : XdrT} (hx : x.Ok) (herr : x.err = false) (p : Blob) :
    Writes x (putFixed p x) (xdrPutFixed x.written p.1) := by
  have hlen := p.2
  have hpad := padOf_lt p.1.length
  have hdata : (p.1 ++ List.replicate (padOf p.1.length) 0).length =
      p.1.length + padOf p.1.length := by
    rw [List.length_append, List.length_replicate]
  have hput := put_writes hx herr (p.1 ++ List.replicate (padOf p.1.length) 0) (by omega)
  rw [put, hdata] at hput
  exact hput

theorem putBytes_writes {x : XdrT} (hx : x.Ok) (herr : x.err = false) (p : Blob) :
    Writes x (putBytes p x) (xdrPutBytes x.written p.1) := by
  have hlen : (UInt32.ofNat p.1.length).toNat = p.1.length := by
    rw [UInt32.toNat_ofNat', Nat.mod_eq_of_lt p.2]
  have hword := putU32_writes hx herr (UInt32.ofNat p.1.length)
  rw [hlen] at hword
  cases hx' : putU32 (UInt32.ofNat p.1.length) x with
  | fault =>
      rw [hx'] at hword
      exact hword.elim
  | failed y =>
      rw [hx'] at hword
      obtain ⟨hwritten, hok, hcap, hbad⟩ := hword
      rw [putBytes, bind_failed hx', xdrPutBytes]
      have hkeep : xdrPutFixed (xdrPutU32 x.written p.1.length) p.1 =
          xdrPutU32 x.written p.1.length := XdrOut.put_err hbad _
      rw [hkeep]
      exact ⟨hwritten, hok, hcap, hbad⟩
  | done a y =>
      rw [hx'] at hword
      obtain ⟨hwritten, hok, hcap, hgood⟩ := hword
      have hyerr : y.err = false := by
        rw [← hwritten] at hgood
        exact hgood
      have hbody := putFixed_writes hok hyerr p
      rw [hwritten] at hbody
      rw [putBytes, bind_done hx', xdrPutBytes]
      unfold Writes at hbody ⊢
      rw [← hcap]
      exact hbody

/-! ## Any sequence of calls -/

inductive Call where
  | getU32
  | getI32
  | getBytes
  | getFixed (len : UInt32)
  | getString (max : ℕ)
  | putU32 (v : UInt32)
  | putI32 (v : Int32)
  | putFixed (p : Blob)
  | putBytes (p : Blob)

/-- A call without its result. -/
def Call.run : Call → XdrM Unit
  | .getU32 => XdrT.getU32 >>= fun _ => pure ()
  | .getI32 => XdrT.getI32 >>= fun _ => pure ()
  | .getBytes => XdrT.getBytes >>= fun _ => pure ()
  | .getFixed len => XdrT.getFixed len >>= fun _ => pure ()
  | .getString max => XdrT.getString max >>= fun _ => pure ()
  | .putU32 v => XdrT.putU32 v
  | .putI32 v => XdrT.putI32 v
  | .putFixed p => XdrT.putFixed p
  | .putBytes p => XdrT.putBytes p

/-- The cursor behind a sequence of calls, whatever they return; `none` if one
of them faults. -/
def runCalls : List Call → XdrT → Option XdrT
  | [], x => some x
  | c :: cs, x =>
      match c.run x with
      | .done _ y => runCalls cs y
      | .failed y => runCalls cs y
      | .fault => none

/-- A call that moved inside the buffer, or failed and left the flag set. -/
def Stays (x : XdrT) (o : Outcome Unit) : Prop :=
  match o with
  | .done _ y => y.Ok ∧ y.buf.length = x.buf.length
  | .failed y => y.Ok ∧ y.buf.length = x.buf.length ∧ y.err = true
  | .fault => False

theorem Reads.stays
    {α : Type} {x : XdrT} {m : XdrM α} {r : Option (α × Bytes)} (h : Reads x (m x) r) :
    Stays x ((m >>= fun _ => pure ()) x) := by
  cases hmx : m x with
  | fault =>
      rw [hmx] at h
      cases r <;> exact h.elim
  | failed y =>
      rw [hmx] at h
      rw [bind_failed hmx]
      cases r with
      | none => exact ⟨h.1, by rw [h.2.1], h.2.2⟩
      | some p => exact h.elim
  | done a y =>
      rw [hmx] at h
      rw [bind_done hmx]
      cases r with
      | none => exact h.elim
      | some p => exact ⟨h.2.2.1, by rw [h.2.2.2.1]⟩

theorem Writes.stays {x : XdrT} {o : Outcome Unit} {out : XdrOut} (h : Writes x o out) :
    Stays x o := by
  cases o with
  | fault => exact h
  | failed y => exact ⟨h.2.1, h.2.2.1, by rw [← h.1] at h; exact h.2.2.2⟩
  | done a y => exact ⟨h.2.1, h.2.2.1⟩

theorem need_stuck {x : XdrT} (herr : x.err = true) (n : ℕ) : need n x = .failed x := by
  obtain ⟨buf, pos, err⟩ := x
  subst herr
  simp [need]

/-- Behind a failure every call fails and changes nothing. -/
theorem Call.stuck {x : XdrT} (herr : x.err = true) (c : Call) : c.run x = .failed x := by
  have hneed := need_stuck herr
  have hword : XdrT.getU32 x = .failed x := bind_failed (hneed 4)
  have hbytes : XdrT.getBytes x = .failed x := bind_failed hword
  cases c with
  | getU32 => exact bind_failed hword
  | getI32 => exact bind_failed (bind_failed hword)
  | getBytes => exact bind_failed hbytes
  | getFixed len => exact bind_failed (bind_failed (hneed _))
  | getString max => exact bind_failed (bind_failed hbytes)
  | putU32 v => exact bind_failed (hneed 4)
  | putI32 v => exact bind_failed (hneed 4)
  | putFixed p => exact bind_failed (hneed _)
  | putBytes p => exact bind_failed (bind_failed (hneed 4))

theorem Call.stays {x : XdrT} (hx : x.Ok) (c : Call) : Stays x (c.run x) := by
  by_cases herr : x.err = true
  · rw [Call.stuck herr]
    exact ⟨hx, rfl, herr⟩
  · have hgood : x.err = false := by simpa using herr
    cases c with
    | getU32 => exact (getU32_reads hx hgood).stays
    | getI32 => exact (getI32_reads hx hgood).stays
    | getBytes => exact (getBytes_reads hx hgood).stays
    | getFixed len => exact (getFixed_reads hx hgood len).stays
    | getString max => exact (getString_reads hx hgood max).stays
    | putU32 v => exact (putU32_writes hx hgood v).stays
    | putI32 v => exact (putU32_writes hx hgood v.toUInt32).stays
    | putFixed p => exact (putFixed_writes hx hgood p).stays
    | putBytes p => exact (putBytes_writes hx hgood p).stays

theorem runCalls_stuck {x : XdrT} (herr : x.err = true) (cs : List Call) :
    runCalls cs x = some x := by
  induction cs with
  | nil => rfl
  | cons c cs ih =>
      rw [runCalls, Call.stuck herr c]
      exact ih

/-- No sequence of calls leaves the buffer. -/
theorem runCalls_inside {x : XdrT} (hx : x.Ok) (cs : List Call) :
    ∃ y, runCalls cs x = some y ∧ y.Ok ∧ y.buf.length = x.buf.length := by
  induction cs generalizing x with
  | nil => exact ⟨x, rfl, hx, rfl⟩
  | cons c cs ih =>
      have hstays := Call.stays hx c
      rw [runCalls]
      cases hc : c.run x with
      | fault =>
          rw [hc] at hstays
          exact hstays.elim
      | failed y =>
          rw [hc] at hstays
          obtain ⟨z, hrun, hz, hlen⟩ := ih hstays.1
          exact ⟨z, hrun, hz, hlen.trans hstays.2.1⟩
      | done a y =>
          rw [hc] at hstays
          obtain ⟨z, hrun, hz, hlen⟩ := ih hstays.1
          exact ⟨z, hrun, hz, hlen.trans hstays.2⟩

/-! ## Round trip of items -/

inductive Item where
  | u32 (v : UInt32)
  | i32 (v : Int32)
  | fixed (p : Blob)
  | bytes (p : Blob)

/-- What has to be known of an item to decode it. -/
inductive Kind where
  | u32
  | i32
  | fixed (len : UInt32)
  | bytes

inductive Value where
  | u32 (v : UInt32)
  | i32 (v : Int32)
  | fixed (p : Bytes)
  | bytes (p : Bytes)
  deriving DecidableEq

def Item.put : Item → Call
  | .u32 v => .putU32 v
  | .i32 v => .putI32 v
  | .fixed p => .putFixed p
  | .bytes p => .putBytes p

def Item.kind : Item → Kind
  | .u32 _ => .u32
  | .i32 _ => .i32
  | .fixed p => .fixed (UInt32.ofNat p.1.length)
  | .bytes _ => .bytes

def Item.value : Item → Value
  | .u32 v => .u32 v
  | .i32 v => .i32 v
  | .fixed p => .fixed p.1
  | .bytes p => .bytes p.1

def Kind.get : Kind → XdrM Value
  | .u32 => getU32 >>= fun v => pure (.u32 v)
  | .i32 => getI32 >>= fun v => pure (.i32 v)
  | .fixed len => getFixed len >>= fun p => pure (.fixed p)
  | .bytes => getBytes >>= fun p => pure (.bytes p)

def getItems : List Kind → XdrM (List Value)
  | [] => pure []
  | k :: ks => do
      let v ← k.get
      let vs ← getItems ks
      pure (v :: vs)

/-- The bytes of an item on the wire. -/
def Item.encode : Item → Bytes
  | .u32 v => be32 v.toNat
  | .i32 v => be32 v.toUInt32.toNat
  | .fixed p => p.1 ++ List.replicate (padOf p.1.length) 0
  | .bytes p => counted p.1

theorem padOf_aligned (n : ℕ) : (n + padOf n) % 4 = 0 := by
  unfold padOf
  omega

theorem Item.encode_aligned (i : Item) : i.encode.length % 4 = 0 := by
  cases i with
  | u32 v => rw [Item.encode, be32_length]
  | i32 v => rw [Item.encode, be32_length]
  | fixed p =>
      rw [Item.encode, List.length_append, List.length_replicate]
      exact padOf_aligned _
  | bytes p =>
      have hpad := padOf_aligned p.1.length
      rw [Item.encode, counted_length]
      omega

/-- An encoder that did not overflow has appended its bytes. -/
theorem put_good {out : XdrOut} {data : Bytes} (h : (out.put data).err = false) :
    out.put data = ⟨out.bytes ++ data, out.cap, false⟩ := by
  unfold XdrOut.put at h ⊢
  split_ifs at h ⊢ with hfull
  simp only at h
  rw [h]

theorem Item.put_spec
    {x : XdrT} (hx : x.Ok) (herr : x.err = false) (i : Item) :
    (∃ y, i.put.run x = .failed y ∧ y.err = true) ∨
      ∃ y, i.put.run x = .done () y ∧ y.Ok ∧
        y.written = ⟨x.written.bytes ++ i.encode, x.buf.length, false⟩ := by
  have hspec : ∃ out, Writes x (i.put.run x) out ∧
      (out.err = false → out = ⟨x.written.bytes ++ i.encode, x.buf.length, false⟩) := by
    cases i with
    | u32 v => exact ⟨_, putU32_writes hx herr v, put_good⟩
    | i32 v => exact ⟨_, putU32_writes hx herr v.toUInt32, put_good⟩
    | fixed p => exact ⟨_, putFixed_writes hx herr p, put_good⟩
    | bytes p =>
        refine ⟨_, putBytes_writes hx herr p, fun hgood => ?_⟩
        have hword : (xdrPutU32 x.written p.1.length).err = false := by
          by_contra hbad
          have hkeep : xdrPutBytes x.written p.1 = xdrPutU32 x.written p.1.length :=
            XdrOut.put_err (by simpa using hbad) _
          rw [hkeep] at hgood
          exact hbad hgood
        have hfirst : xdrPutU32 x.written p.1.length =
            ⟨x.written.bytes ++ be32 p.1.length, x.buf.length, false⟩ := put_good hword
        unfold xdrPutBytes at hgood ⊢
        rw [hfirst] at hgood ⊢
        rw [show xdrPutFixed _ p.1 = _ from put_good hgood]
        simp [Item.encode, counted]
  obtain ⟨out, hwrites, hout⟩ := hspec
  cases hrun : i.put.run x with
  | fault =>
      rw [hrun] at hwrites
      exact hwrites.elim
  | failed y =>
      rw [hrun] at hwrites
      refine Or.inl ⟨y, rfl, ?_⟩
      have hbad := hwrites.2.2.2
      rw [← hwrites.1] at hbad
      exact hbad
  | done a y =>
      rw [hrun] at hwrites
      exact Or.inr ⟨y, rfl, hwrites.2.1, hwrites.1.trans (hout hwrites.2.2.2)⟩

/-- Items that all fitted lie one behind the other. -/
theorem runCalls_put
    {x y : XdrT} (hx : x.Ok) (herr : x.err = false) {items : List Item}
    (hrun : runCalls (items.map Item.put) x = some y) (hgood : y.err = false) :
    y.Ok ∧ y.written =
      ⟨x.written.bytes ++ items.flatMap Item.encode, x.buf.length, false⟩ := by
  induction items generalizing x with
  | nil =>
      obtain rfl := Option.some.inj hrun
      refine ⟨hx, ?_⟩
      rw [List.flatMap_nil, List.append_nil, ← herr]
      rfl
  | cons i items ih =>
      rw [List.map_cons, runCalls] at hrun
      rcases Item.put_spec hx herr i with ⟨z, hput, hbad⟩ | ⟨z, hput, hz, hwritten⟩
      · rw [hput] at hrun
        simp only [runCalls_stuck hbad, Option.some.injEq] at hrun
        rw [← hrun, hbad] at hgood
        exact absurd hgood (by simp)
      · rw [hput] at hrun
        have hzerr : z.err = false := congrArg XdrOut.err hwritten
        have hzcap : z.buf.length = x.buf.length := congrArg XdrOut.cap hwritten
        obtain ⟨hy, hall⟩ := ih hz hzerr hrun
        refine ⟨hy, ?_⟩
        rw [hall, hwritten, hzcap]
        simp

/-- A decoder that finds its item in front of the cursor. -/
theorem Reads.found
    {α : Type} {x : XdrT} {m : XdrM α} {a : α} {rest : Bytes} {v : α → Value}
    (h : Reads x (m x) (some (a, rest))) :
    ∃ y, (m >>= fun a => pure (v a)) x = .done (v a) y ∧ y.left = rest ∧ y.Ok ∧
      y.buf = x.buf ∧ y.err = false := by
  cases hmx : m x with
  | fault =>
      rw [hmx] at h
      exact h.elim
  | failed y =>
      rw [hmx] at h
      exact h.elim
  | done b y =>
      rw [hmx] at h
      obtain ⟨rfl, hleft, hok, hbuf, herr⟩ := h
      exact ⟨y, bind_done hmx, hleft, hok, hbuf, herr⟩

theorem Item.get_spec
    {x : XdrT} (hx : x.Ok) (herr : x.err = false) (i : Item) {rest : Bytes}
    (hleft : x.left = i.encode ++ rest) :
    ∃ y, i.kind.get x = .done i.value y ∧ y.left = rest ∧ y.Ok ∧ y.buf = x.buf ∧
      y.err = false := by
  cases i with
  | u32 v =>
      have hread := getU32_reads hx herr
      rw [hleft, Item.encode, xdrGetU32_word v.toNat_lt, Option.map_some,
        UInt32.ofNat_toNat] at hread
      exact hread.found
  | i32 v =>
      have hread := getI32_reads hx herr
      rw [hleft, Item.encode, xdrGetU32_word v.toUInt32.toNat_lt, Option.map_some,
        UInt32.ofNat_toNat, Int32.toInt32_toUInt32] at hread
      exact hread.found
  | fixed p =>
      have hlen : (UInt32.ofNat p.1.length).toNat = p.1.length := by
        rw [UInt32.toNat_ofNat', Nat.mod_eq_of_lt p.2]
      have hread := getFixed_reads hx herr (UInt32.ofNat p.1.length)
      have hspec : xdrGetFixed p.1.length x.left = some (p.1, rest) := by
        have hroom : ¬ x.left.length < p.1.length + padOf p.1.length := by
          rw [hleft, Item.encode]
          simp only [List.length_append, List.length_replicate]
          omega
        have htake : x.left.take p.1.length = p.1 := by
          rw [hleft, Item.encode, List.append_assoc, List.take_left]
        have hdrop : x.left.drop (p.1.length + padOf p.1.length) = rest := by
          rw [hleft, Item.encode]
          apply List.drop_left'
          rw [List.length_append, List.length_replicate]
        rw [xdrGetFixed, if_neg hroom, htake, hdrop]
      rw [hlen, hspec] at hread
      exact hread.found
  | bytes p =>
      have hread := getBytes_reads hx herr
      rw [hleft, Item.encode, xdrGetBytes_counted p.2] at hread
      exact hread.found

theorem getItems_spec
    {x : XdrT} (hx : x.Ok) (herr : x.err = false) (items : List Item) {rest : Bytes}
    (hleft : x.left = items.flatMap Item.encode ++ rest) :
    ∃ y, getItems (items.map Item.kind) x = .done (items.map Item.value) y ∧
      y.left = rest ∧ y.Ok ∧ y.buf = x.buf := by
  induction items generalizing x with
  | nil => exact ⟨x, rfl, hleft, hx, rfl⟩
  | cons i items ih =>
      rw [List.flatMap_cons, List.append_assoc] at hleft
      obtain ⟨y, hget, hyleft, hy, hybuf, hyerr⟩ := Item.get_spec hx herr i hleft
      obtain ⟨z, hgets, hzleft, hz, hzbuf⟩ := ih hy hyerr hyleft
      refine ⟨z, ?_, hzleft, hz, hzbuf.trans hybuf⟩
      rw [List.map_cons, getItems, bind_done hget, bind_done hgets]
      rfl

theorem pos_of_left
    {x : XdrT} (hx : x.Ok) {front rest : Bytes} (hbuf : x.buf = front ++ rest)
    (hleft : x.left = rest) : x.pos = front.length := by
  have hpos := hx.pos
  have hlen := congrArg List.length hleft
  rw [left_length, hbuf, List.length_append] at hlen
  rw [hbuf, List.length_append] at hpos
  omega

theorem encode_aligned (items : List Item) :
    (items.flatMap Item.encode).length % 4 = 0 := by
  induction items with
  | nil => rfl
  | cons i items ih =>
      have hfirst := i.encode_aligned
      rw [List.flatMap_cons, List.length_append]
      omega

/-- Items that were encoded without an overflow are decoded from the start, up
to the same place. -/
theorem items_roundtrip
    {buf : Bytes} (hcap : buf.length ≤ 65536) {items : List Item} {x : XdrT}
    (hput : runCalls (items.map Item.put) (init buf) = some x) (hgood : x.err = false) :
    (∃ y, getItems (items.map Item.kind) x.reset = .done (items.map Item.value) y ∧
      y.pos = x.pos) ∧ x.pos % 4 = 0 := by
  have hinit : (init buf).Ok := ⟨Nat.zero_le _, hcap⟩
  obtain ⟨hx, hwritten⟩ := runCalls_put hinit rfl hput hgood
  have hfront : x.buf.take x.pos = items.flatMap Item.encode :=
    congrArg XdrOut.bytes hwritten
  have hbuf : x.buf = items.flatMap Item.encode ++ x.buf.drop x.pos := by
    rw [← hfront, List.take_append_drop]
  have hpos : x.pos = (items.flatMap Item.encode).length :=
    pos_of_left hx hbuf rfl
  have hreset : x.reset.Ok := ⟨Nat.zero_le _, hx.cap⟩
  obtain ⟨y, hget, hleft, hy, hybuf⟩ := getItems_spec hreset rfl items hbuf
  refine ⟨⟨y, hget, ?_⟩, ?_⟩
  · rw [hpos]
    exact pos_of_left hy (hybuf.trans hbuf) hleft
  · rw [hpos]
    exact encode_aligned items

/-- Round trip and safety of the cursor, for every buffer of at most the
server's size. -/
theorem xdr_cursor_correct {buf : Bytes} (hcap : buf.length ≤ 65536) :
    (∀ (items : List Item) (x : XdrT),
      runCalls (items.map Item.put) (init buf) = some x → x.err = false →
        (∃ y, getItems (items.map Item.kind) x.reset = .done (items.map Item.value) y ∧
          y.pos = x.pos) ∧ x.pos % 4 = 0) ∧
    ∀ cs : List Call, ∃ x, runCalls cs (init buf) = some x ∧
      x.pos ≤ x.buf.length ∧ x.buf.length = buf.length ∧
      ∀ (c : Call) (y : XdrT), c.run x = .failed y → y.err = true ∧
        ∀ later : List Call, runCalls later y = some y ∧ ∀ d ∈ later, d.run y = .failed y := by
  have hinit : (init buf).Ok := ⟨Nat.zero_le _, hcap⟩
  refine ⟨fun items x hput hgood => items_roundtrip hcap hput hgood, ?_⟩
  intro cs
  obtain ⟨x, hrun, hx, hlen⟩ := runCalls_inside hinit cs
  refine ⟨x, hrun, hx.pos, hlen, ?_⟩
  intro c y hfail
  have hstays := Call.stays hx c
  rw [hfail] at hstays
  exact ⟨hstays.2.2, fun later => ⟨runCalls_stuck hstays.2.2 later,
    fun d _ => Call.stuck hstays.2.2 d⟩⟩

/-- A word and three bytes in twelve bytes of buffer. -/
theorem xdr_cursor_correct_pair :
    ∃ y, getItems [.u32, .bytes] (reset ⟨[0, 0, 0, 7, 0, 0, 0, 3, 97, 98, 99, 0], 12, false⟩) =
      .done [.u32 7, .bytes (ascii "abc")] y ∧ y.pos = 12 := by
  have hcap : (List.replicate 12 (0 : Byte)).length ≤ 65536 := by decide
  exact ((xdr_cursor_correct hcap).1
    [.u32 7, .bytes ⟨ascii "abc", by decide⟩]
    ⟨[0, 0, 0, 7, 0, 0, 0, 3, 97, 98, 99, 0], 12, false⟩ (by decide) rfl).1

end XdrT

end GrandCross
