import GrandCross.CText

/-!
# XDR cursors

`nfsd/xdr.c` decodes call arguments from a datagram and encodes replies into
a fixed buffer.  A decoder is the bytes that are left; a failed read ends the
use of the cursor in every caller, so it is `none`.  An encoder keeps the
bytes written so far and the sticky error flag.
-/

namespace GrandCross

open CText

/-- `put_be32`: the low 32 bits of a number, most significant byte first. -/
def be32 (v : ℕ) : Bytes :=
  [UInt8.ofNat (v / 2 ^ 24), UInt8.ofNat (v / 2 ^ 16),
    UInt8.ofNat (v / 2 ^ 8), UInt8.ofNat v]

@[simp] theorem be32_length (v : ℕ) : (be32 v).length = 4 := rfl

def wordOf (a b c d : Byte) : ℕ :=
  a.toNat * 2 ^ 24 + b.toNat * 2 ^ 16 + c.toNat * 2 ^ 8 + d.toNat

theorem wordOf_be32 (v : ℕ) :
    wordOf (UInt8.ofNat (v / 2 ^ 24)) (UInt8.ofNat (v / 2 ^ 16))
      (UInt8.ofNat (v / 2 ^ 8)) (UInt8.ofNat v) = v % 2 ^ 32 := by
  simp only [wordOf, UInt8.toNat_ofNat']
  omega

theorem wordOf_lt (a b c d : Byte) : wordOf a b c d < 2 ^ 32 := by
  have ha := a.toNat_lt
  have hb := b.toNat_lt
  have hc := c.toNat_lt
  have hd := d.toNat_lt
  unfold wordOf
  omega

theorem be32_mod (v : ℕ) : be32 (v % 2 ^ 32) = be32 v := by
  have hbyte : ∀ k ≤ 24, UInt8.ofNat (v % 2 ^ 32 / 2 ^ k) =
      UInt8.ofNat (v / 2 ^ k) := by
    intro k hk
    apply UInt8.toNat_inj.mp
    simp only [UInt8.toNat_ofNat']
    interval_cases k <;> omega
  have hlow := hbyte 0 (by omega)
  simp only [Nat.pow_zero, Nat.div_one] at hlow
  unfold be32
  rw [hbyte 24 (by omega), hbyte 16 (by omega), hbyte 8 (by omega), hlow]

/-- `(4 - (n & 3)) & 3`. -/
def padOf (n : ℕ) : ℕ := (4 - n % 4) % 4

/-! ## Decoding -/

def xdrGetU32 : Bytes → Option (ℕ × Bytes)
  | a :: b :: c :: d :: rest => some (wordOf a b c d, rest)
  | _ => none

@[simp] theorem xdrGetU32_be32 (v : ℕ) (rest : Bytes) :
    xdrGetU32 (be32 v ++ rest) = some (v % 2 ^ 32, rest) := by
  simp only [be32, List.cons_append, List.nil_append, xdrGetU32]
  rw [wordOf_be32]

theorem xdrGetU32_word
    {v : ℕ} (hv : v < 2 ^ 32) (rest : Bytes) :
    xdrGetU32 (be32 v ++ rest) = some (v, rest) := by
  rw [xdrGetU32_be32, Nat.mod_eq_of_lt hv]

/-- `xdr_get_bytes`: a counted opaque with its padding. -/
def xdrGetBytes (input : Bytes) : Option (Bytes × Bytes) := do
  let (n, rest) ← xdrGetU32 input
  if rest.length < n then none
  else if rest.length < n + padOf n then none
  else some (rest.take n, rest.drop (n + padOf n))

/-- `xdr_get_fixed`: an opaque of known length with its padding. -/
def xdrGetFixed (len : ℕ) (input : Bytes) : Option (Bytes × Bytes) :=
  if input.length < len + padOf len then none
  else some (input.take len, input.drop (len + padOf len))

/-- `xdr_get_string` into a buffer of `max` bytes; what the caller then reads
is the C string in it. -/
def xdrGetString (max : ℕ) (input : Bytes) : Option (Bytes × Bytes) := do
  let (p, rest) ← xdrGetBytes input
  if max ≤ p.length then none else some (cstr p, rest)

theorem xdrGetFixed_append
    {p : Bytes} (hpad : padOf p.length = 0) (rest : Bytes) :
    xdrGetFixed p.length (p ++ rest) = some (p, rest) := by
  simp [xdrGetFixed, hpad]

/-! ## Encoding -/

structure XdrOut where
  bytes : Bytes
  cap : ℕ
  err : Bool
  deriving DecidableEq

def xdrInit (cap : ℕ) : XdrOut := ⟨[], cap, false⟩

/-- The `need` check and the write behind it. -/
def XdrOut.put (x : XdrOut) (data : Bytes) : XdrOut :=
  if x.err ∨ x.cap < x.bytes.length + data.length then
    { x with err := true }
  else { x with bytes := x.bytes ++ data }

def xdrPutU32 (x : XdrOut) (v : ℕ) : XdrOut := x.put (be32 v)

def xdrPutFixed (x : XdrOut) (p : Bytes) : XdrOut :=
  x.put (p ++ List.replicate (padOf p.length) 0)

def xdrPutBytes (x : XdrOut) (p : Bytes) : XdrOut :=
  xdrPutFixed (xdrPutU32 x p.length) p

/-- The opaque as `xdr_put_bytes` lays it out. -/
def counted (p : Bytes) : Bytes :=
  be32 p.length ++ (p ++ List.replicate (padOf p.length) 0)

theorem counted_length (p : Bytes) :
    (counted p).length = 4 + (p.length + padOf p.length) := by
  simp [counted]

theorem XdrOut.put_ok
    {bytes data : Bytes} {cap : ℕ} (hroom : bytes.length + data.length ≤ cap) :
    XdrOut.put ⟨bytes, cap, false⟩ data = ⟨bytes ++ data, cap, false⟩ := by
  have hcap : ¬ cap < bytes.length + data.length := by omega
  simp [XdrOut.put, hcap]

theorem XdrOut.put_err {out : XdrOut} (h : out.err = true) (data : Bytes) :
    out.put data = out := by
  obtain ⟨bytes, cap, err⟩ := out
  subst h
  simp [XdrOut.put]

theorem xdrPutU32_ok
    {bytes : Bytes} {cap : ℕ} (v : ℕ) (hroom : bytes.length + 4 ≤ cap) :
    xdrPutU32 ⟨bytes, cap, false⟩ v = ⟨bytes ++ be32 v, cap, false⟩ :=
  XdrOut.put_ok hroom

theorem XdrOut.put_length_le (x : XdrOut) (data : Bytes) :
    (x.put data).bytes.length ≤ x.bytes.length + data.length := by
  unfold XdrOut.put
  split_ifs <;> simp

theorem xdrPutWords_ok
    {bytes : Bytes} {cap : ℕ} (words : List ℕ)
    (hroom : bytes.length + 4 * words.length ≤ cap) :
    words.foldl xdrPutU32 ⟨bytes, cap, false⟩ =
      ⟨bytes ++ words.flatMap be32, cap, false⟩ := by
  induction words generalizing bytes with
  | nil => simp
  | cons v words ih =>
      simp only [List.length_cons] at hroom
      rw [List.foldl_cons, xdrPutU32_ok v (by omega), ih]
      · simp
      · simp only [List.length_append, be32_length]
        omega

theorem xdrPutBytes_ok
    {bytes p : Bytes} {cap : ℕ}
    (hroom : bytes.length + (counted p).length ≤ cap) :
    xdrPutBytes ⟨bytes, cap, false⟩ p = ⟨bytes ++ counted p, cap, false⟩ := by
  have hlen := counted_length p
  unfold xdrPutBytes xdrPutFixed
  rw [xdrPutU32_ok p.length (by omega), XdrOut.put_ok]
  · simp [counted]
  · simp only [List.length_append, be32_length, List.length_replicate]
    omega

/-- What `xdr_put_bytes` wrote, `xdr_get_bytes` reads back. -/
theorem xdrGetBytes_counted
    {p : Bytes} (hlen : p.length < 2 ^ 32) (rest : Bytes) :
    xdrGetBytes (counted p ++ rest) = some (p, rest) := by
  have hword : xdrGetU32 (counted p ++ rest) =
      some (p.length, p ++ (List.replicate (padOf p.length) 0 ++ rest)) := by
    unfold counted
    rw [List.append_assoc, xdrGetU32_be32, Nat.mod_eq_of_lt hlen,
      List.append_assoc]
  have hall : p.length + padOf p.length ≤
      (p ++ (List.replicate (padOf p.length) 0 ++ rest)).length := by
    simp
  unfold xdrGetBytes
  rw [hword]
  simp only [Option.bind_eq_bind, Option.bind_some]
  rw [if_neg (by omega), if_neg (by omega)]
  congr 2
  · simp
  · rw [List.drop_append]
    simp

end GrandCross
