import GrandCross.RpcServe
import GrandCross.XdrCursor

/-!
# Call headers

`rpc_parse_call` reads the header of a call with the cursor of `xdr.c` and the
ids of a UNIX credential with a second cursor over its body.  The datagrams it
accepts are described as encodings; the cursor is left at the arguments.
-/

namespace GrandCross

open CText

/-! ## `rpc_parse_call` -/

/-- `rpc_call_t`. -/
structure RpcCallT where
  xid : UInt32
  prog : UInt32
  vers : UInt32
  proc : UInt32
  uid : UInt32
  gid : UInt32
  deriving DecidableEq

def msgCall : UInt32 := 0
def rpcVersion : UInt32 := 2
def authUnix : UInt32 := 1

/-- `(uint32_t)-1`. -/
def noId : UInt32 := 0xFFFFFFFF

namespace XdrT

/-- Go on if the call returns 0, otherwise keep what has been read before. -/
def XdrM.attempt {α β : Type} (m : XdrM α) (kept : β) (f : α → XdrM β) : XdrM β := fun x =>
  match m x with
  | .done a y => f a y
  | .failed y => .done kept y
  | .fault => .fault

/-- Run on a cursor of its own over some bytes. -/
def nested {α : Type} (body : Bytes) (m : XdrM α) : XdrM α := fun x =>
  match m (init body) with
  | .done a _ => .done a x
  | .failed _ => .failed x
  | .fault => .fault

/-- `return -1` unless the condition holds; the cursor is not touched. -/
def require (ok : Bool) : XdrM Unit := fun x => if ok then .done () x else .failed x

/-- Stamp, machine name, user id and group id. -/
def unixIds : XdrM (UInt32 × UInt32) :=
  getU32.attempt (noId, noId) fun _ =>
    getBytes.attempt (noId, noId) fun _ =>
      getU32.attempt (noId, noId) fun uid =>
        getU32.attempt (uid, noId) fun gid => pure (uid, gid)

/-- The ids of a credential; a body that does not parse is no failure. -/
def credIds (flavor : UInt32) (cred : Bytes) : XdrM (UInt32 × UInt32) :=
  if flavor = authUnix ∧ 12 ≤ cred.length then nested cred unixIds else pure (noId, noId)

def parseCall : XdrM RpcCallT := do
  let xid ← getU32
  let mtype ← getU32
  require (mtype = msgCall)
  let rpcvers ← getU32
  require (rpcvers = rpcVersion)
  let prog ← getU32
  let vers ← getU32
  let proc ← getU32
  let credFlavor ← getU32
  let cred ← getBytes
  let ids ← credIds credFlavor cred
  let _verfFlavor ← getU32
  let _verf ← getBytes
  pure ⟨xid, prog, vers, proc, ids.1, ids.2⟩

end XdrT

/-! ## The format -/

/-- Bytes behind their length, filled up to whole words with any bytes. -/
structure PaddedBody where
  body : Bytes
  fill : Bytes
  length_body : body.length < 2 ^ 32
  length_fill : fill.length = padOf body.length

def PaddedBody.encode (p : PaddedBody) : Bytes := be32 p.body.length ++ (p.body ++ p.fill)

structure CallMsg where
  xid : UInt32
  prog : UInt32
  vers : UInt32
  proc : UInt32
  credFlavor : UInt32
  cred : PaddedBody
  verfFlavor : UInt32
  verf : PaddedBody

def CallMsg.encode (m : CallMsg) : Bytes :=
  [m.xid, msgCall, rpcVersion, m.prog, m.vers, m.proc, m.credFlavor].flatMap
      (be32 ·.toNat) ++
    (m.cred.encode ++ (be32 m.verfFlavor.toNat ++ m.verf.encode))

/-! ## Decoding -/

theorem xdrGetU32_iff {s rest : Bytes} {v : ℕ} :
    xdrGetU32 s = some (v, rest) ↔ v < 2 ^ 32 ∧ s = be32 v ++ rest := by
  constructor
  · intro h
    refine ⟨XdrT.xdrGetU32_lt h, ?_⟩
    match s with
    | [] => simp [xdrGetU32] at h
    | [_] => simp [xdrGetU32] at h
    | [_, _] => simp [xdrGetU32] at h
    | [_, _, _] => simp [xdrGetU32] at h
    | a :: b :: c :: d :: tail =>
        simp only [xdrGetU32, Option.some.injEq, Prod.mk.injEq] at h
        obtain ⟨rfl, rfl⟩ := h
        have hbyte : ∀ (x : Byte) (n : ℕ), n % 256 = x.toNat → UInt8.ofNat n = x := by
          intro x n hn
          apply UInt8.toNat_inj.mp
          rw [UInt8.toNat_ofNat', hn]
        have ha := a.toNat_lt
        have hb := b.toNat_lt
        have hc := c.toNat_lt
        have hd := d.toNat_lt
        simp only [be32, List.cons_append, List.nil_append]
        rw [hbyte a _ (by unfold wordOf; omega), hbyte b _ (by unfold wordOf; omega),
          hbyte c _ (by unfold wordOf; omega), hbyte d _ (by unfold wordOf; omega)]
  · rintro ⟨hv, rfl⟩
    exact xdrGetU32_word hv rest

theorem xdrGetBytes_iff {s p rest : Bytes} :
    xdrGetBytes s = some (p, rest) ↔
      ∃ b : PaddedBody, b.body = p ∧ s = b.encode ++ rest := by
  constructor
  · intro h
    unfold xdrGetBytes at h
    cases hword : xdrGetU32 s with
    | none => simp [hword] at h
    | some res =>
        obtain ⟨n, tail⟩ := res
        simp only [hword, Option.bind_eq_bind, Option.bind_some] at h
        split_ifs at h with hshort hfill
        simp only [Option.some.injEq, Prod.mk.injEq] at h
        obtain ⟨rfl, rfl⟩ := h
        obtain ⟨hn, rfl⟩ := xdrGetU32_iff.mp hword
        have hlen : (tail.take n).length = n := by
          rw [List.length_take]
          omega
        refine ⟨⟨tail.take n, (tail.drop n).take (padOf n), by omega, ?_⟩, rfl, ?_⟩
        · rw [hlen, List.length_take, List.length_drop]
          omega
        · show be32 n ++ tail = be32 (tail.take n).length ++
            (tail.take n ++ (tail.drop n).take (padOf n)) ++ tail.drop (n + padOf n)
          rw [hlen, List.append_assoc, List.append_assoc, ← List.drop_drop,
            List.take_append_drop, List.take_append_drop]
  · rintro ⟨⟨body, fill, hbody, hfill⟩, rfl, rfl⟩
    have hword : xdrGetU32 (be32 body.length ++ (body ++ (fill ++ rest))) =
        some (body.length, body ++ (fill ++ rest)) := xdrGetU32_word hbody _
    unfold xdrGetBytes
    rw [PaddedBody.encode, List.append_assoc, List.append_assoc, hword]
    simp only [Option.bind_eq_bind, Option.bind_some, List.length_append]
    rw [if_neg (by omega), if_neg (by omega), ← hfill, List.take_left, ← List.length_append,
      ← List.append_assoc, List.drop_left]

def CallMsg.call (m : CallMsg) : RpcCall :=
  ⟨m.xid.toNat, m.prog.toNat, m.vers.toNat, m.proc.toNat⟩

theorem CallMsg.encode_append (m : CallMsg) (args : Bytes) :
    m.encode ++ args = be32 m.xid.toNat ++ (be32 0 ++ (be32 2 ++ (be32 m.prog.toNat ++
      (be32 m.vers.toNat ++ (be32 m.proc.toNat ++ (be32 m.credFlavor.toNat ++
        (m.cred.encode ++ (be32 m.verfFlavor.toNat ++ (m.verf.encode ++ args))))))))) := by
  have hcall : msgCall.toNat = 0 := rfl
  have hvers : rpcVersion.toNat = 2 := rfl
  simp [CallMsg.encode, hcall, hvers]

theorem rpcParseCall_of_words
    {s₀ s₁ s₂ s₃ s₄ s₅ s₆ s₇ s₈ s₉ args cred verf : Bytes}
    {xid prog vers proc credFlavor verfFlavor : ℕ}
    (h₀ : xdrGetU32 s₀ = some (xid, s₁)) (h₁ : xdrGetU32 s₁ = some (0, s₂))
    (h₂ : xdrGetU32 s₂ = some (2, s₃)) (h₃ : xdrGetU32 s₃ = some (prog, s₄))
    (h₄ : xdrGetU32 s₄ = some (vers, s₅)) (h₅ : xdrGetU32 s₅ = some (proc, s₆))
    (h₆ : xdrGetU32 s₆ = some (credFlavor, s₇)) (h₇ : xdrGetBytes s₇ = some (cred, s₈))
    (h₈ : xdrGetU32 s₈ = some (verfFlavor, s₉)) (h₉ : xdrGetBytes s₉ = some (verf, args)) :
    rpcParseCall s₀ = some (⟨xid, prog, vers, proc⟩, args) := by
  simp [rpcParseCall, h₀, h₁, h₂, h₃, h₄, h₅, h₆, h₇, h₈, h₉]

/-- The calls that are parsed are the encodings. -/
theorem rpcParseCall_iff {input args : Bytes} {c : RpcCall} :
    rpcParseCall input = some (c, args) ↔
      ∃ m : CallMsg, m.call = c ∧ input = m.encode ++ args := by
  constructor
  · intro h
    simp only [rpcParseCall, Option.bind_eq_bind, Option.bind_eq_some_iff, Prod.exists] at h
    obtain ⟨xid, r₁, h₁, mtype, r₂, h₂, h⟩ := h
    split_ifs at h with hcall
    simp only [Option.bind_eq_some_iff, Prod.exists] at h
    obtain ⟨rpcvers, r₃, h₃, h⟩ := h
    split_ifs at h with hrpc
    simp only [Option.bind_eq_some_iff, Prod.exists, Option.pure_def, Option.some.injEq,
      Prod.mk.injEq] at h
    obtain ⟨prog, r₄, h₄, vers, r₅, h₅, proc, r₆, h₆, flavor, r₇, h₇, cred, r₈, h₈,
      verfFlavor, r₉, h₉, verf, r₁₀, h₁₀, rfl, rfl⟩ := h
    obtain ⟨hxid, rfl⟩ := xdrGetU32_iff.mp h₁
    obtain ⟨-, rfl⟩ := xdrGetU32_iff.mp h₂
    obtain ⟨-, rfl⟩ := xdrGetU32_iff.mp h₃
    obtain ⟨hprog, rfl⟩ := xdrGetU32_iff.mp h₄
    obtain ⟨hvers, rfl⟩ := xdrGetU32_iff.mp h₅
    obtain ⟨hproc, rfl⟩ := xdrGetU32_iff.mp h₆
    obtain ⟨hflavor, rfl⟩ := xdrGetU32_iff.mp h₇
    obtain ⟨credBody, -, rfl⟩ := xdrGetBytes_iff.mp h₈
    obtain ⟨hverfFlavor, rfl⟩ := xdrGetU32_iff.mp h₉
    obtain ⟨verfBody, -, rfl⟩ := xdrGetBytes_iff.mp h₁₀
    have hword : ∀ n < 2 ^ 32, (UInt32.ofNat n).toNat = n := fun n hn => by
      rw [UInt32.toNat_ofNat', Nat.mod_eq_of_lt hn]
    refine ⟨⟨UInt32.ofNat xid, UInt32.ofNat prog, UInt32.ofNat vers, UInt32.ofNat proc,
      UInt32.ofNat flavor, credBody, UInt32.ofNat verfFlavor, verfBody⟩, ?_, ?_⟩
    · rw [CallMsg.call, hword _ hxid, hword _ hprog, hword _ hvers, hword _ hproc]
    · rw [CallMsg.encode_append, hword _ hxid, hword _ hprog, hword _ hvers, hword _ hproc,
        hword _ hflavor, hword _ hverfFlavor]
      rw [not_not.mp hcall, not_not.mp hrpc]
  · rintro ⟨m, rfl, rfl⟩
    rw [CallMsg.encode_append]
    exact rpcParseCall_of_words (xdrGetU32_word m.xid.toNat_lt _)
      (xdrGetU32_word (by norm_num) _) (xdrGetU32_word (by norm_num) _)
      (xdrGetU32_word m.prog.toNat_lt _) (xdrGetU32_word m.vers.toNat_lt _)
      (xdrGetU32_word m.proc.toNat_lt _) (xdrGetU32_word m.credFlavor.toNat_lt _)
      (xdrGetBytes_iff.mpr ⟨m.cred, rfl, rfl⟩) (xdrGetU32_word m.verfFlavor.toNat_lt _)
      (xdrGetBytes_iff.mpr ⟨m.verf, rfl, rfl⟩)

/-! ## The cursor -/

def RpcCallT.call (c : RpcCallT) : RpcCall :=
  ⟨c.xid.toNat, c.prog.toNat, c.vers.toNat, c.proc.toNat⟩

namespace XdrT

/-- The cursor returns 0 where the decoder has a result, and then with a result
that is related to it; where the decoder has none it returns -1. -/
def Parses {α β : Type} (R : α → β → Prop) (x : XdrT) (o : Outcome α)
    (r : Option (β × Bytes)) : Prop :=
  match o, r with
  | .done a y, some (b, rest) =>
      R a b ∧ y.left = rest ∧ y.Ok ∧ y.buf = x.buf ∧ y.err = false
  | .failed _, none => True
  | _, _ => False

theorem Parses.bind
    {α α' β β' : Type} {R : α → β → Prop} {S : α' → β' → Prop} {x : XdrT} {m : XdrM α}
    {f : α → XdrM α'} {r : Option (β × Bytes)} {g : β × Bytes → Option (β' × Bytes)}
    (hm : Parses R x (m x) r)
    (hf : ∀ a b y, R a b → y.Ok → y.buf = x.buf → y.err = false →
      Parses S y (f a y) (g (b, y.left))) :
    Parses S x ((m >>= f) x) (r.bind g) := by
  cases hmx : m x with
  | fault =>
      rw [hmx] at hm
      cases r <;> exact hm.elim
  | failed y =>
      rw [hmx] at hm
      rw [bind_failed hmx]
      cases r with
      | none => exact trivial
      | some p => exact hm.elim
  | done a y =>
      rw [hmx] at hm
      rw [bind_done hmx]
      cases r with
      | none => exact hm.elim
      | some p =>
          obtain ⟨b, rest⟩ := p
          obtain ⟨hab, rfl, hok, hbuf, herr⟩ := hm
          have hnext := hf a b y hab hok hbuf herr
          rw [Option.bind_some]
          unfold Parses at hnext ⊢
          rw [← hbuf]
          exact hnext

/-- A step that only computes. -/
theorem Parses.after
    {α α' β' : Type} {S : α' → β' → Prop} {x : XdrT} {m : XdrM α} {a : α}
    {f : α → XdrM α'} {r : Option (β' × Bytes)} (hm : m x = .done a x)
    (hf : Parses S x (f a x) r) : Parses S x ((m >>= f) x) r := by
  rwa [bind_done hm]

theorem Parses.require
    {α' β' : Type} {S : α' → β' → Prop} {x : XdrT} {ok : Bool} {bad : Prop} [Decidable bad]
    {f : Unit → XdrM α'} {r : Option (β' × Bytes)} (hiff : ok = true ↔ ¬ bad)
    (hf : Parses S x (f () x) r) :
    Parses S x ((XdrT.require ok >>= f) x) (if bad then none else r) := by
  by_cases hbad : bad
  · have hno : ok = false := by
      by_contra hok
      exact hiff.mp (by simpa using hok) hbad
    have hfail : XdrT.require ok x = .failed x := by simp [XdrT.require, hno]
    rw [if_pos hbad, bind_failed hfail]
    exact trivial
  · have hdone : XdrT.require ok x = .done () x := by simp [XdrT.require, hiff.mpr hbad]
    rw [if_neg hbad, bind_done hdone]
    exact hf

theorem Reads.parses
    {α β : Type} {R : α → β → Prop} {x : XdrT} {o : Outcome α} {r : Option (β × Bytes)}
    {val : β → α} (h : Reads x o (r.map fun p => (val p.1, p.2)))
    (hval : ∀ b rest, r = some (b, rest) → R (val b) b) : Parses R x o r := by
  cases r with
  | none =>
      cases o with
      | fault => exact h.elim
      | failed y => exact trivial
      | done a y => exact h.elim
  | some p =>
      cases o with
      | fault => exact h.elim
      | failed y => exact h.elim
      | done a y =>
          obtain ⟨rfl, hrest⟩ := h
          exact ⟨hval p.1 p.2 rfl, hrest⟩

theorem getU32_parses {x : XdrT} (hx : x.Ok) (herr : x.err = false) :
    Parses (fun a b => a.toNat = b) x (getU32 x) (xdrGetU32 x.left) := by
  refine (getU32_reads hx herr).parses fun v rest hword => ?_
  show (UInt32.ofNat v).toNat = v
  rw [UInt32.toNat_ofNat', Nat.mod_eq_of_lt (xdrGetU32_lt hword)]

/-- A body that is read lies in the buffer. -/
theorem getBytes_parses {x : XdrT} (hx : x.Ok) (herr : x.err = false) :
    Parses (fun a b => a = b ∧ a.length ≤ 65536) x (getBytes x) (xdrGetBytes x.left) := by
  have hread : Reads x (getBytes x) ((xdrGetBytes x.left).map fun p => (id p.1, p.2)) := by
    simpa using getBytes_reads hx herr
  refine hread.parses fun body rest hbody => ⟨rfl, ?_⟩
  obtain ⟨b, rfl, hleft⟩ := xdrGetBytes_iff.mp hbody
  have hlen := left_length x
  rw [hleft, PaddedBody.encode] at hlen
  simp only [List.length_append] at hlen
  have hcap := hx.cap
  simp only [id_eq]
  omega

/-- The second cursor always gets to an end. -/
theorem attempt_done
    {α β : Type} {x : XdrT} {m : XdrM α} {r : Option (α × Bytes)} (hm : Reads x (m x) r)
    (kept : β) {f : α → XdrM β}
    (hf : ∀ a y, y.Ok → y.err = false → ∃ b z, f a y = .done b z) :
    ∃ b z, m.attempt kept f x = .done b z := by
  unfold XdrM.attempt
  cases hmx : m x with
  | fault =>
      rw [hmx] at hm
      cases r <;> exact hm.elim
  | failed y => exact ⟨kept, y, rfl⟩
  | done a y =>
      rw [hmx] at hm
      cases r with
      | none => exact hm.elim
      | some p => exact hf a y hm.2.2.1 hm.2.2.2.2

/-- The credential neither fails nor moves the cursor. -/
theorem credIds_done
    (flavor : UInt32) {cred : Bytes} (hcred : cred.length ≤ 65536) (x : XdrT) :
    ∃ ids, credIds flavor cred x = .done ids x := by
  have hinit : (init cred).Ok := ⟨Nat.zero_le _, hcred⟩
  obtain ⟨ids, y, hrun⟩ : ∃ ids y, unixIds (init cred) = .done ids y := by
    apply attempt_done (getU32_reads hinit rfl)
    intro _ y hy hyerr
    apply attempt_done (getBytes_reads hy hyerr)
    intro _ y hy hyerr
    apply attempt_done (getU32_reads hy hyerr)
    intro uid y hy hyerr
    apply attempt_done (getU32_reads hy hyerr)
    intro gid y _ _
    exact ⟨(uid, gid), y, rfl⟩
  unfold credIds
  split_ifs
  · exact ⟨ids, by simp [nested, hrun]⟩
  · exact ⟨_, rfl⟩

theorem word_eq_iff {a w : UInt32} {b : ℕ} (hab : a.toNat = b) :
    decide (a = w) = true ↔ ¬ b ≠ w.toNat := by
  rw [decide_eq_true_eq, ne_eq, not_not, ← hab]
  exact UInt32.toNat_inj.symm

/-- Whatever the credential, the cursor parses what the decoder does. -/
theorem parseCall_parses {x : XdrT} (hx : x.Ok) (herr : x.err = false) :
    Parses (fun c b => c.call = b) x (parseCall x) (rpcParseCall x.left) := by
  unfold parseCall rpcParseCall
  refine (getU32_parses hx herr).bind fun xid _ x hxid hx _ herr => ?_
  refine (getU32_parses hx herr).bind fun mtype _ x hmtype hx _ herr => ?_
  refine Parses.require (word_eq_iff hmtype) ?_
  refine (getU32_parses hx herr).bind fun rpcvers _ x hrpc hx _ herr => ?_
  refine Parses.require (word_eq_iff hrpc) ?_
  refine (getU32_parses hx herr).bind fun prog _ x hprog hx _ herr => ?_
  refine (getU32_parses hx herr).bind fun vers _ x hvers hx _ herr => ?_
  refine (getU32_parses hx herr).bind fun proc _ x hproc hx _ herr => ?_
  refine (getU32_parses hx herr).bind fun flavor _ x _ hx _ herr => ?_
  refine (getBytes_parses hx herr).bind fun cred _ x hcred hx _ herr => ?_
  obtain ⟨ids, hids⟩ := credIds_done flavor hcred.2 x
  refine Parses.after hids ?_
  refine (getU32_parses hx herr).bind fun _ _ x _ hx _ herr => ?_
  refine (getBytes_parses hx herr).bind fun _ _ x _ hx _ herr => ?_
  refine ⟨?_, rfl, hx, rfl, herr⟩
  show (⟨xid.toNat, prog.toNat, vers.toNat, proc.toNat⟩ : RpcCall) = _
  rw [hxid, hprog, hvers, hproc]

theorem parseCall_start {dg : Bytes} (hsize : dg.length ≤ rpcBufSize) :
    Parses (fun c b => c.call = b) (init dg) (parseCall (init dg)) (rpcParseCall dg) :=
  parseCall_parses (x := init dg) ⟨Nat.zero_le _, hsize⟩ rfl

/-- `rpc_parse_call` on a datagram that the receive buffer holds: it returns 0
exactly on an encoding with arguments behind it, and leaves the cursor there. -/
theorem parse_call_exact {dg : Bytes} (hsize : dg.length ≤ rpcBufSize) :
    ((∃ c x, parseCall (init dg) = .done c x) ↔
      ∃ (m : CallMsg) (args : Bytes), dg = m.encode ++ args) ∧
    parseCall (init dg) ≠ .fault ∧
    ∀ (m : CallMsg) (args : Bytes), dg = m.encode ++ args →
      ∃ c x, parseCall (init dg) = .done c x ∧ c.xid = m.xid ∧ c.prog = m.prog ∧
        c.vers = m.vers ∧ c.proc = m.proc ∧ x.buf = dg ∧ x.pos = m.encode.length ∧
        x.left = args ∧ x.err = false := by
  have hstart := parseCall_start hsize
  have hparsed : ∀ (m : CallMsg) (args : Bytes), dg = m.encode ++ args →
      ∃ c x, parseCall (init dg) = .done c x ∧ c.call = m.call ∧ x.buf = dg ∧
        x.pos = m.encode.length ∧ x.left = args ∧ x.err = false := by
    intro m args hdg
    rw [rpcParseCall_iff.mpr ⟨m, rfl, hdg⟩] at hstart
    cases hrun : parseCall (init dg) with
    | fault =>
        rw [hrun] at hstart
        exact hstart.elim
    | failed x =>
        rw [hrun] at hstart
        exact hstart.elim
    | done c x =>
        rw [hrun] at hstart
        obtain ⟨hcall, hleft, hx, hbuf, herr⟩ := hstart
        exact ⟨c, x, rfl, hcall, hbuf, pos_of_left hx (hbuf.trans hdg) hleft, hleft, herr⟩
  refine ⟨⟨?_, ?_⟩, ?_, ?_⟩
  · rintro ⟨c, x, hrun⟩
    rw [hrun] at hstart
    cases hparse : rpcParseCall dg with
    | none =>
        rw [hparse] at hstart
        exact hstart.elim
    | some res =>
        obtain ⟨m, -, hdg⟩ := rpcParseCall_iff.mp (show _ = some (res.1, res.2) from hparse)
        exact ⟨m, res.2, hdg⟩
  · rintro ⟨m, args, hdg⟩
    obtain ⟨c, x, hrun, -⟩ := hparsed m args hdg
    exact ⟨c, x, hrun⟩
  · intro hfault
    rw [hfault] at hstart
    cases rpcParseCall dg <;> simp [Parses] at hstart
  · intro m args hdg
    obtain ⟨c, x, hrun, hcall, hrest⟩ := hparsed m args hdg
    simp only [RpcCallT.call, CallMsg.call, RpcCall.mk.injEq, UInt32.toNat_inj] at hcall
    exact ⟨c, x, hrun, hcall.1, hcall.2.1, hcall.2.2.1, hcall.2.2.2, hrest⟩

/-- The machine name of this credential is longer than its body. -/
theorem parse_call_exact_bad_unix :
    ∃ c x, parseCall (init ([7, 0, 2, 100003, 2, 1, 1, 12, 5, 99, 0, 0, 0, 42].flatMap be32)) =
        .done c x ∧ c.xid = 7 ∧ c.proc = 1 ∧ x.left = be32 42 := by
  have hsize : ([7, 0, 2, 100003, 2, 1, 1, 12, 5, 99, 0, 0, 0, 42].flatMap be32).length ≤
      rpcBufSize := by decide
  obtain ⟨-, -, hparsed⟩ := parse_call_exact hsize
  obtain ⟨c, x, hrun, hxid, -, -, hproc, -, -, hleft, -⟩ := hparsed
    ⟨7, 100003, 2, 1, 1, ⟨[5, 99, 0].flatMap be32, [], by decide, by decide⟩, 0,
      ⟨[], [], by decide, by decide⟩⟩ (be32 42) (by decide +kernel)
  exact ⟨c, x, hrun, hxid, hproc, hleft⟩

end XdrT

end GrandCross
