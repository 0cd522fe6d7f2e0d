import GrandCross.CallHeader

/-!
# The scan over the routes

`handle_one` looks through the whole route table once and keeps four things:
the route to run, whether the program is known, and the lowest and the highest
version of it.  The versions are compared as `int`.  What it sends to a call
that no route serves, and which handler runs otherwise, follows from what the
scan knows at its end.
-/

namespace GrandCross

open CText EarlyExit

/-! ## `handle_one` -/

/-- `rpc_route_t`; a handler reads the call and the argument bytes, appends to
the reply, and asks with `none` to drop it. -/
structure RpcRoute (σ : Type) where
  prog : UInt32
  vers : UInt32
  proc : UInt32
  fn : RpcCallT → Bytes → XdrOut → σ → Option XdrOut × σ
  cache : Bool

/-- `(int)v`. -/
def asInt (v : UInt32) : ℤ := if v.toNat < 2 ^ 31 then v.toNat else v.toNat - 2 ^ 32

/-- `(uint32_t)n`. -/
def asWord (n : ℤ) : ℕ := (n % 2 ^ 32).toNat

structure Scan (σ : Type) where
  found : Option (RpcRoute σ)
  progOk : Bool
  versLo : ℤ
  versHi : ℤ

/-- What a datagram does: the handlers' state and the cache behind it, the
handlers that run and the replies that are sent. -/
structure Effects (σ : Type) where
  state : σ
  drc : Drc
  calls : List (RpcRoute σ)
  sent : List Bytes

def progUnavail : ℕ := 1
def progMismatch : ℕ := 2
def procUnavail : ℕ := 3

section Dispatch

variable {σ : Type}

def Scan.start : Scan σ := ⟨none, false, 0x7fffffff, 0⟩

def Scan.see (c : RpcCallT) (s : Scan σ) (r : RpcRoute σ) : Scan σ :=
  if r.prog = c.prog then
    { found := if r.vers = c.vers ∧ r.proc = c.proc then some r else s.found
      progOk := true
      versLo := if asInt r.vers < s.versLo then asInt r.vers else s.versLo
      versHi := if s.versHi < asInt r.vers then asInt r.vers else s.versHi }
  else s

def scanRoutes (c : RpcCallT) (routes : List (RpcRoute σ)) : Scan σ :=
  routes.foldl (Scan.see c) .start

/-- The reply to a call without a route. -/
def refuseCall (routes : List (RpcRoute σ)) (scan : Scan σ) (c : RpcCallT) : XdrOut :=
  let out := xdrInit rpcBufSize
  if !scan.progOk then replyHead c.xid.toNat progUnavail out
  else if !routes.any fun r => r.prog = c.prog ∧ r.vers = c.vers then
    xdrPutU32 (xdrPutU32 (replyHead c.xid.toNat progMismatch out) (asWord scan.versLo))
      (asWord scan.versHi)
  else replyHead c.xid.toNat procUnavail out

/-- A call that has been parsed. -/
def handleCall (routes : List (RpcRoute σ)) (s : σ) (drc : Drc) (peer : Peer)
    (now later : ℤ) (c : RpcCallT) (args : Bytes) : Effects σ :=
  let scan := scanRoutes c routes
  match scan.found with
  | none =>
      let out := refuseCall routes scan c
      if out.err then ⟨s, drc, [], []⟩ else ⟨s, drc, [], [out.bytes]⟩
  | some r =>
      match if r.cache then drcLookup drc peer c.xid.toNat now else none with
      | some hit => ⟨s, drc, [], [hit.reply]⟩
      | none =>
          let head := replyHead c.xid.toNat 0 (xdrInit rpcBufSize)
          if head.err then ⟨s, drc, [], []⟩
          else
            match r.fn c args head s with
            | (none, s) => ⟨s, drc, [r], []⟩
            | (some out, s) =>
                if out.err then ⟨s, drc, [r], []⟩
                else
                  ⟨s, if r.cache then drcStore drc peer c.xid.toNat out.bytes later else drc,
                    [r], [out.bytes]⟩

/-- A datagram as `handle_one` gets it. -/
def handleDatagram (routes : List (RpcRoute σ)) (s : σ) (drc : Drc) (peer : Peer)
    (now later : ℤ) (dg : Bytes) : Effects σ :=
  match XdrT.parseCall (XdrT.init dg) with
  | .done c x => handleCall routes s drc peer now later c x.left
  | _ => ⟨s, drc, [], []⟩

/-! ## What the scan knows -/

def RpcRoute.Serves (r : RpcRoute σ) (c : RpcCallT) : Prop :=
  r.prog = c.prog ∧ r.vers = c.vers ∧ r.proc = c.proc

instance (r : RpcRoute σ) (c : RpcCallT) : Decidable (r.Serves c) :=
  inferInstanceAs (Decidable (_ ∧ _ ∧ _))

/-- The versions of a program in some routes. -/
def versionsOf (prog : UInt32) (routes : List (RpcRoute σ)) : Set ℤ :=
  { v | ∃ r ∈ routes, r.prog = prog ∧ v = r.vers.toNat }

/-- The scan behind some routes. -/
structure Scan.Knows (c : RpcCallT) (seen : List (RpcRoute σ)) (s : Scan σ) : Prop where
  found : s.found = (seen.filter fun r => r.Serves c).getLast?
  prog : s.progOk = true ↔ (versionsOf c.prog seen).Nonempty
  lower : s.versLo ∈ lowerBounds (versionsOf c.prog seen)
  upper : s.versHi ∈ upperBounds (versionsOf c.prog seen)
  loIn : s.versLo = 0x7fffffff ∨ s.versLo ∈ versionsOf c.prog seen
  hiIn : s.versHi = 0 ∨ s.versHi ∈ versionsOf c.prog seen

theorem versionsOf_nil (prog : UInt32) : versionsOf prog ([] : List (RpcRoute σ)) = ∅ := by
  ext v
  simp [versionsOf]

theorem versionsOf_nonempty {prog : UInt32} {routes : List (RpcRoute σ)} :
    (versionsOf prog routes).Nonempty ↔ ∃ r ∈ routes, r.prog = prog := by
  constructor
  · rintro ⟨v, r, hr, hprog, -⟩
    exact ⟨r, hr, hprog⟩
  · rintro ⟨r, hr, hprog⟩
    exact ⟨_, r, hr, hprog, rfl⟩

theorem versionsOf_snoc_same
    {prog : UInt32} {r : RpcRoute σ} (hr : r.prog = prog) (seen : List (RpcRoute σ)) :
    versionsOf prog (seen ++ [r]) = insert (r.vers.toNat : ℤ) (versionsOf prog seen) := by
  ext v
  simp only [versionsOf, List.mem_append, List.mem_singleton, Set.mem_ofPred_eq,
    Set.mem_insert_iff]
  constructor
  · rintro ⟨r', hmem | rfl, hprog, hv⟩
    · exact Or.inr ⟨r', hmem, hprog, hv⟩
    · exact Or.inl hv
  · rintro (hv | ⟨r', hmem, hprog, hv⟩)
    · exact ⟨r, Or.inr rfl, hr, hv⟩
    · exact ⟨r', Or.inl hmem, hprog, hv⟩

theorem versionsOf_snoc_other
    {prog : UInt32} {r : RpcRoute σ} (hr : r.prog ≠ prog) (seen : List (RpcRoute σ)) :
    versionsOf prog (seen ++ [r]) = versionsOf prog seen := by
  ext v
  simp only [versionsOf, List.mem_append, List.mem_singleton, Set.mem_ofPred_eq]
  constructor
  · rintro ⟨r', hmem | rfl, hprog, hv⟩
    · exact ⟨r', hmem, hprog, hv⟩
    · exact absurd hprog hr
  · rintro ⟨r', hmem, hprog, hv⟩
    exact ⟨r', Or.inl hmem, hprog, hv⟩

theorem Scan.knows_start (c : RpcCallT) : (Scan.start : Scan σ).Knows c [] where
  found := rfl
  prog := by simp [Scan.start, versionsOf_nil]
  lower := by simp [versionsOf_nil]
  upper := by simp [versionsOf_nil]
  loIn := Or.inl rfl
  hiIn := Or.inl rfl

/-- One route more. -/
theorem Scan.Knows.see
    {c : RpcCallT} {seen : List (RpcRoute σ)} {s : Scan σ} (h : s.Knows c seen)
    {r : RpcRoute σ} (hvers : r.vers.toNat < 2 ^ 31) :
    (Scan.see c s r).Knows c (seen ++ [r]) := by
  have hint : asInt r.vers = r.vers.toNat := if_pos hvers
  unfold Scan.see
  by_cases hprog : r.prog = c.prog
  · rw [if_pos hprog]
    have hset := versionsOf_snoc_same hprog seen
    refine ⟨?_, ?_, ?_, ?_, ?_, ?_⟩
    · by_cases hcall : r.vers = c.vers ∧ r.proc = c.proc
      · have hserves : r.Serves c := ⟨hprog, hcall⟩
        simp [hcall, List.filter_append, hserves]
      · have hserves : ¬ r.Serves c := fun hserves => hcall hserves.2
        simp [hcall, List.filter_append, hserves, h.found]
    · simp [hset]
    · rw [hset, lowerBounds_insert, hint]
      refine ⟨?_, ?_⟩
      · simp only [Set.mem_Iic]
        split_ifs <;> omega
      · intro v hv
        have hle := h.lower hv
        simp only
        split_ifs <;> omega
    · rw [hset, upperBounds_insert, hint]
      refine ⟨?_, ?_⟩
      · simp only [Set.mem_Ici]
        split_ifs <;> omega
      · intro v hv
        have hle := h.upper hv
        simp only
        split_ifs <;> omega
    · rw [hset, hint]
      simp only [Set.mem_insert_iff]
      split_ifs
      · exact Or.inr (Or.inl rfl)
      · exact h.loIn.imp id Or.inr
    · rw [hset, hint]
      simp only [Set.mem_insert_iff]
      split_ifs
      · exact Or.inr (Or.inl rfl)
      · exact h.hiIn.imp id Or.inr
  · rw [if_neg hprog]
    have hset := versionsOf_snoc_other hprog seen
    have hserves : ¬ r.Serves c := fun hserves => hprog hserves.1
    exact ⟨by simp [List.filter_append, hserves, h.found], by rw [hset]; exact h.prog,
      by rw [hset]; exact h.lower, by rw [hset]; exact h.upper, by rw [hset]; exact h.loIn,
      by rw [hset]; exact h.hiIn⟩

/-- The whole table. -/
theorem scanRoutes_knows
    (c : RpcCallT) {routes : List (RpcRoute σ)}
    (hvers : ∀ r ∈ routes, r.vers.toNat < 2 ^ 31) : (scanRoutes c routes).Knows c routes := by
  induction routes using List.reverseRecOn with
  | nil => exact Scan.knows_start c
  | append_singleton seen r ih =>
      unfold scanRoutes
      rw [List.foldl_append, List.foldl_cons, List.foldl_nil]
      exact (ih fun r' hr' => hvers r' (by simp [hr'])).see (hvers r (by simp))

/-- A program in the table has a lowest and a highest version, and the scan
ends with them. -/
theorem Scan.Knows.range
    {c : RpcCallT} {routes : List (RpcRoute σ)} {s : Scan σ} (h : s.Knows c routes)
    (hvers : ∀ r ∈ routes, r.vers.toNat < 2 ^ 31)
    (hprog : (versionsOf c.prog routes).Nonempty) :
    IsLeast (versionsOf c.prog routes) s.versLo ∧
      IsGreatest (versionsOf c.prog routes) s.versHi := by
  obtain ⟨v, hv⟩ := hprog
  have hlo := h.lower hv
  have hhi := h.upper hv
  have hbounds : 0 ≤ v ∧ v ≤ 0x7fffffff := by
    obtain ⟨r, hr, -, rfl⟩ := hv
    have hsmall := hvers r hr
    omega
  refine ⟨⟨?_, h.lower⟩, ⟨?_, h.upper⟩⟩
  · rcases h.loIn with heq | hmem
    · have hsame : s.versLo = v := by omega
      exact hsame ▸ hv
    · exact hmem
  · rcases h.hiIn with heq | hmem
    · have hsame : s.versHi = v := by omega
      exact hsame ▸ hv
    · exact hmem

/-! ## Replies -/

/-- An accepted reply: its header, with the verifier, and the words behind it. -/
def acceptedReply (xid : UInt32) (stat : ℕ) (words : List ℕ) : Bytes :=
  ([xid.toNat, 1, 0, 0, 0, stat] ++ words).flatMap be32

theorem acceptedHead_eq (xid : UInt32) (stat : ℕ) :
    replyHead xid.toNat stat (xdrInit rpcBufSize) =
      ⟨acceptedReply xid stat [], rpcBufSize, false⟩ := by
  unfold replyHead xdrInit acceptedReply
  rw [xdrPutWords_ok _ (by simp [rpcBufSize]), List.nil_append, List.append_nil]

theorem mismatch_eq (xid : UInt32) (stat lo hi : ℕ) :
    xdrPutU32 (xdrPutU32 (replyHead xid.toNat stat (xdrInit rpcBufSize)) lo) hi =
      ⟨acceptedReply xid stat [lo, hi], rpcBufSize, false⟩ := by
  have hwords : [lo, hi].foldl xdrPutU32 (replyHead xid.toNat stat (xdrInit rpcBufSize)) =
      ⟨acceptedReply xid stat [lo, hi], rpcBufSize, false⟩ := by
    unfold replyHead xdrInit acceptedReply
    rw [← List.foldl_append, xdrPutWords_ok _ (by simp [rpcBufSize]), List.nil_append]
  rwa [List.foldl_cons, List.foldl_cons, List.foldl_nil] at hwords

theorem asWord_natCast {v : ℕ} (hv : v < 2 ^ 32) : asWord v = v := by
  unfold asWord
  omega

/-- What an unserved call is told. -/
structure Unserved (routes : List (RpcRoute σ)) (c : RpcCallT) (reply : Bytes) : Prop where
  unavail : (∀ r ∈ routes, r.prog ≠ c.prog) → reply = acceptedReply c.xid progUnavail []
  mismatch : (∃ r ∈ routes, r.prog = c.prog) →
    (∀ r ∈ routes, ¬ (r.prog = c.prog ∧ r.vers = c.vers)) →
    ∃ lo hi : ℕ, IsLeast (versionsOf c.prog routes) lo ∧
      IsGreatest (versionsOf c.prog routes) hi ∧
      reply = acceptedReply c.xid progMismatch [lo, hi]
  noProc : (∃ r ∈ routes, r.prog = c.prog ∧ r.vers = c.vers) →
    reply = acceptedReply c.xid procUnavail []

theorem refuseCall_eq
    (c : RpcCallT) {routes : List (RpcRoute σ)}
    (hvers : ∀ r ∈ routes, r.vers.toNat < 2 ^ 31) :
    ∃ reply, refuseCall routes (scanRoutes c routes) c = ⟨reply, rpcBufSize, false⟩ ∧
      Unserved routes c reply := by
  have hknows := scanRoutes_knows c hvers
  have hprog := hknows.prog.trans versionsOf_nonempty
  unfold refuseCall
  by_cases hknown : (scanRoutes c routes).progOk = true
  · obtain ⟨⟨hlo, hlower⟩, hhi, hupper⟩ :=
      hknows.range hvers (versionsOf_nonempty.mpr (hprog.mp hknown))
    have hhave := hprog.mp hknown
    obtain ⟨rlo, hrlo, -, hvlo⟩ := id hlo
    obtain ⟨rhi, hrhi, -, hvhi⟩ := id hhi
    by_cases hany : (routes.any fun r => r.prog = c.prog ∧ r.vers = c.vers) = true
    · have hserved : ∃ r ∈ routes, r.prog = c.prog ∧ r.vers = c.vers := by
        simpa using hany
      refine ⟨acceptedReply c.xid procUnavail [], ?_, ?_⟩
      · simp only [hknown, hany, Bool.not_true, Bool.false_eq_true, if_false]
        exact acceptedHead_eq _ _
      exact ⟨fun hno => absurd hhave (by simpa using hno),
        fun _ hno => absurd hserved (by simpa using hno), fun _ => rfl⟩
    · have hnone : ∀ r ∈ routes, ¬ (r.prog = c.prog ∧ r.vers = c.vers) := by
        simpa using hany
      have hno : (routes.any fun r => r.prog = c.prog ∧ r.vers = c.vers) = false := by
        simpa using hany
      refine ⟨acceptedReply c.xid progMismatch [asWord (scanRoutes c routes).versLo,
        asWord (scanRoutes c routes).versHi], ?_, ?_⟩
      · simp only [hknown, hno, Bool.not_true, Bool.not_false, Bool.false_eq_true, if_false,
          if_true]
        exact mismatch_eq _ _ _ _
      refine ⟨fun hno => absurd hhave (by simpa using hno), ?_,
        fun hyes => absurd hyes (by simpa using hnone)⟩
      intro _ _
      refine ⟨rlo.vers.toNat, rhi.vers.toNat, hvlo ▸ ⟨hlo, hlower⟩, hvhi ▸ ⟨hhi, hupper⟩, ?_⟩
      rw [hvlo, hvhi, asWord_natCast rlo.vers.toNat_lt, asWord_natCast rhi.vers.toNat_lt]
  · have hnone : ∀ r ∈ routes, r.prog ≠ c.prog := by
      intro r hr heq
      exact hknown (hprog.mpr ⟨r, hr, heq⟩)
    refine ⟨acceptedReply c.xid progUnavail [], ?_, ?_⟩
    · simp only [hknown, Bool.not_false, if_true]
      exact acceptedHead_eq _ _
    exact ⟨fun _ => rfl, fun hyes => absurd hyes (by simpa using hnone),
      fun ⟨r, hr, heq, _⟩ => absurd heq (hnone r hr)⟩

/-! ## One datagram -/

/-- A live entry of the cache for the call. -/
def Replayed (drc : Drc) (peer : Peer) (xid : UInt32) (now : ℤ) (e : DrcEnt) : Prop :=
  e ∈ drc.slots ∧ e.valid = true ∧ e.peer = peer ∧ e.xid = xid.toNat ∧
    now - e.stamp ≤ drcTtl

theorem replayed_of_lookup
    {drc : Drc} {peer : Peer} {xid : UInt32} {now : ℤ} {hit : DrcEnt}
    (h : drcLookup drc peer xid.toNat now = some hit) : Replayed drc peer xid now hit := by
  have hkey := List.find?_some h
  simp only [DrcEnt.hasKey, Bool.and_eq_true, beq_iff_eq, decide_eq_true_eq] at hkey
  obtain ⟨⟨⟨hvalid, hxid⟩, hpeer⟩, hlive⟩ := hkey
  exact ⟨List.mem_of_find?_eq_some h, hvalid, hpeer, hxid, hlive⟩

theorem lookup_eq_none_iff {drc : Drc} {peer : Peer} {xid : UInt32} {now : ℤ} :
    drcLookup drc peer xid.toNat now = none ↔ ¬ ∃ e, Replayed drc peer xid now e := by
  unfold drcLookup Replayed DrcEnt.hasKey
  simp only [List.find?_eq_none, Bool.and_eq_true, beq_iff_eq, decide_eq_true_eq]
  constructor
  · rintro hnone ⟨e, he, hvalid, hpeer, hxid, hlive⟩
    exact hnone e he ⟨⟨⟨hvalid, hxid⟩, hpeer⟩, hlive⟩
  · rintro hno e he ⟨⟨⟨hvalid, hxid⟩, hpeer⟩, hlive⟩
    exact hno ⟨e, he, hvalid, hpeer, hxid, hlive⟩

theorem handleCall_unserved
    {routes : List (RpcRoute σ)} (hvers : ∀ r ∈ routes, r.vers.toNat < 2 ^ 31)
    {c : RpcCallT} (hnone : ∀ r ∈ routes, ¬ r.Serves c) (s : σ) (drc : Drc) (peer : Peer)
    (now later : ℤ) (args : Bytes) :
    ∃ reply, handleCall routes s drc peer now later c args = ⟨s, drc, [], [reply]⟩ ∧
      Unserved routes c reply := by
  have hfound : (scanRoutes c routes).found = none := by
    rw [(scanRoutes_knows c hvers).found, List.filter_eq_nil_iff.mpr (by simpa using hnone)]
    rfl
  obtain ⟨reply, hrefuse, hrefused⟩ := refuseCall_eq c hvers
  refine ⟨reply, ?_, hrefused⟩
  unfold handleCall
  simp [hfound, hrefuse]

theorem scanRoutes_last
    {before after : List (RpcRoute σ)} {r : RpcRoute σ}
    (hvers : ∀ r' ∈ before ++ r :: after, r'.vers.toNat < 2 ^ 31) {c : RpcCallT}
    (hr : r.Serves c) (hlast : ∀ r' ∈ after, ¬ r'.Serves c) :
    (scanRoutes c (before ++ r :: after)).found = some r := by
  have hafter : after.filter (fun r => r.Serves c) = [] :=
    List.filter_eq_nil_iff.mpr (by simpa using hlast)
  rw [(scanRoutes_knows c hvers).found]
  simp [List.filter_append, hr, hafter]

theorem handleCall_served
    {before after : List (RpcRoute σ)} {r : RpcRoute σ}
    (hvers : ∀ r' ∈ before ++ r :: after, r'.vers.toNat < 2 ^ 31) {c : RpcCallT}
    (hr : r.Serves c) (hlast : ∀ r' ∈ after, ¬ r'.Serves c) (s : σ) (drc : Drc)
    (peer : Peer) (now later : ℤ) (args : Bytes) :
    (r.cache = true → (∃ e, Replayed drc peer c.xid now e) →
      ∃ e, Replayed drc peer c.xid now e ∧
        handleCall (before ++ r :: after) s drc peer now later c args =
          ⟨s, drc, [], [e.reply]⟩) ∧
    (¬ (r.cache = true ∧ ∃ e, Replayed drc peer c.xid now e) →
      (handleCall (before ++ r :: after) s drc peer now later c args).calls = [r] ∧
      (handleCall (before ++ r :: after) s drc peer now later c args).state =
        (r.fn c args ⟨acceptedReply c.xid 0 [], rpcBufSize, false⟩ s).2) := by
  have hfound := scanRoutes_last hvers hr hlast
  unfold handleCall
  simp only [hfound, acceptedHead_eq, Bool.false_eq_true, if_false]
  constructor
  · intro hcache hentry
    cases hhit : drcLookup drc peer c.xid.toNat now with
    | none => exact absurd hentry (lookup_eq_none_iff.mp hhit)
    | some hit => exact ⟨hit, replayed_of_lookup hhit, by simp [hcache]⟩
  · intro hno
    have hmiss : (if r.cache = true then drcLookup drc peer c.xid.toNat now else none) =
        none := by
      by_cases hcache : r.cache = true
      · rw [if_pos hcache]
        exact lookup_eq_none_iff.mpr fun hentry => hno ⟨hcache, hentry⟩
      · rw [if_neg hcache]
    rw [hmiss]
    simp only
    cases hfn : r.fn c args ⟨acceptedReply c.xid 0 [], rpcBufSize, false⟩ s with
    | mk out s' =>
        cases out with
        | none => exact ⟨rfl, rfl⟩
        | some out =>
            simp only
            split_ifs
            · exact ⟨rfl, rfl⟩
            · exact ⟨rfl, rfl⟩
            · exact ⟨rfl, rfl⟩

/-! ## The server's routes -/

/-- A route of the server as the dispatcher sees it. -/
def Route.toRpc (r : Route σ) : RpcRoute (Srv σ) where
  prog := UInt32.ofNat r.prog
  vers := UInt32.ofNat r.vers
  proc := UInt32.ofNat r.proc
  fn := fun _ args out srv =>
    match exec (r.fn args out) srv with
    | (.ok out, srv) => (some out, srv)
    | (.error exit, srv) => (exit, srv)
  cache := r.cache

structure Route.Words (r : Route σ) : Prop where
  prog : r.prog < 2 ^ 32
  vers : r.vers < 2 ^ 31
  proc : r.proc < 2 ^ 32

theorem ofNat_word_eq_iff {n : ℕ} (hn : n < 2 ^ 32) (w : UInt32) :
    UInt32.ofNat n = w ↔ n = w.toNat := by
  rw [← UInt32.toNat_inj, UInt32.toNat_ofNat', Nat.mod_eq_of_lt hn]

theorem Route.Words.serves_iff {r : Route σ} (h : r.Words) (c : RpcCallT) :
    r.toRpc.Serves c ↔
      r.prog = c.call.prog ∧ r.vers = c.call.vers ∧ r.proc = c.call.proc := by
  have hvers := h.vers
  unfold RpcRoute.Serves Route.toRpc
  rw [ofNat_word_eq_iff h.prog, ofNat_word_eq_iff (by omega), ofNat_word_eq_iff h.proc]
  rfl

section Server

variable {routes : List (Route σ)}

theorem toRpc_vers (hwords : ∀ r ∈ routes, r.Words) :
    ∀ r ∈ routes.map Route.toRpc, r.vers.toNat < 2 ^ 31 := by
  intro r hr
  obtain ⟨r', hr', rfl⟩ := List.mem_map.mp hr
  have hvers := (hwords r' hr').vers
  show (UInt32.ofNat r'.vers).toNat < 2 ^ 31
  rw [UInt32.toNat_ofNat', Nat.mod_eq_of_lt (by omega)]
  exact hvers

theorem found_toRpc (hwords : ∀ r ∈ routes, r.Words) (c : RpcCallT) :
    (scanRoutes c (routes.map Route.toRpc)).found =
      (matchRoute routes c.call).map Route.toRpc := by
  rw [(scanRoutes_knows c (toRpc_vers hwords)).found, List.filter_map, List.getLast?_map]
  unfold matchRoute
  congr 2
  apply List.filter_congr
  intro r hr
  exact decide_eq_decide.mpr ((hwords r hr).serves_iff c)

theorem Scan.see_range
    (c : RpcCallT) (s : Scan σ) {r : RpcRoute σ} (hvers : r.vers.toNat < 2 ^ 31) :
    (Scan.see c s r).versLo =
        (if r.prog = c.prog then min s.versLo r.vers.toNat else s.versLo) ∧
      (Scan.see c s r).versHi =
        (if r.prog = c.prog then max s.versHi r.vers.toNat else s.versHi) := by
  have hint : asInt r.vers = r.vers.toNat := if_pos hvers
  unfold Scan.see
  rw [hint]
  by_cases hprog : r.prog = c.prog
  · simp only [hprog, if_true]
    constructor
    · split_ifs <;> omega
    · split_ifs <;> omega
  · simp only [hprog, if_false]
    exact ⟨trivial, trivial⟩

/-- The range of versions as running minimum and maximum. -/
theorem scanRoutes_range
    (c : RpcCallT) {routes : List (RpcRoute σ)}
    (hvers : ∀ r ∈ routes, r.vers.toNat < 2 ^ 31) :
    (scanRoutes c routes).versLo =
        (((routes.filter fun r => r.prog = c.prog).map fun r => r.vers.toNat).foldl min
          0x7fffffff : ℕ) ∧
      (scanRoutes c routes).versHi =
        (((routes.filter fun r => r.prog = c.prog).map fun r => r.vers.toNat).foldl max
          0 : ℕ) := by
  induction routes using List.reverseRecOn with
  | nil => exact ⟨rfl, rfl⟩
  | append_singleton seen r ih =>
      obtain ⟨hlo, hhi⟩ := ih fun r' hr' => hvers r' (by simp [hr'])
      obtain ⟨hseeLo, hseeHi⟩ := Scan.see_range c (scanRoutes c seen) (hvers r (by simp))
      have hstep : scanRoutes c (seen ++ [r]) = Scan.see c (scanRoutes c seen) r := by
        simp [scanRoutes]
      rw [hstep, hseeLo, hseeHi, hlo, hhi]
      by_cases hprog : r.prog = c.prog
      · simp [List.filter_append, hprog]
      · simp [List.filter_append, hprog]

theorem served_toRpc (hwords : ∀ r ∈ routes, r.Words) (c : RpcCallT) :
    ((routes.map Route.toRpc).filter fun r => r.prog = c.prog) =
      (routes.filter fun r => r.prog = c.call.prog).map Route.toRpc := by
  rw [List.filter_map]
  congr 1
  apply List.filter_congr
  intro r hr
  exact decide_eq_decide.mpr (ofNat_word_eq_iff (hwords r hr).prog c.prog)

/-- The answer to an unserved call does not need the scan. -/
theorem refuseCall_toRpc (hwords : ∀ r ∈ routes, r.Words) (c : RpcCallT) :
    refuseCall (routes.map Route.toRpc) (scanRoutes c (routes.map Route.toRpc)) c =
      refuse routes c.call (xdrInit rpcBufSize) := by
  have hvers := toRpc_vers hwords
  obtain ⟨hlo, hhi⟩ := scanRoutes_range c hvers
  have hserved := served_toRpc hwords c
  have hmap : ((routes.filter fun r => r.prog = c.call.prog).map Route.toRpc).map
      (fun r => r.vers.toNat) = (routes.filter fun r => r.prog = c.call.prog).map Route.vers := by
    rw [List.map_map]
    apply List.map_congr_left
    intro r hr
    have hv := (hwords r (List.mem_filter.mp hr).1).vers
    show (UInt32.ofNat r.vers).toNat = r.vers
    rw [UInt32.toNat_ofNat', Nat.mod_eq_of_lt (by omega)]
  rw [hserved, hmap] at hlo hhi
  have hprog : (scanRoutes c (routes.map Route.toRpc)).progOk =
      !(routes.filter fun r => r.prog = c.call.prog).isEmpty := by
    rw [Bool.eq_iff_iff, (scanRoutes_knows c hvers).prog, versionsOf_nonempty]
    have hmem : (∃ r ∈ routes.map Route.toRpc, r.prog = c.prog) ↔
        (routes.map Route.toRpc).filter (fun r => r.prog = c.prog) ≠ [] := by
      simp
    rw [hmem, hserved]
    simp
  have hany : ((routes.map Route.toRpc).any fun r => r.prog = c.prog ∧ r.vers = c.vers) =
      (routes.filter fun r => r.prog = c.call.prog).any fun r => r.vers = c.call.vers := by
    have hsame : ∀ r ∈ routes, (r.toRpc.prog = c.prog ∧ r.toRpc.vers = c.vers ↔
        r.prog = c.call.prog ∧ r.vers = c.call.vers) := by
      intro r hr
      have hv := (hwords r hr).vers
      exact and_congr (ofNat_word_eq_iff (hwords r hr).prog _) (ofNat_word_eq_iff (by omega) _)
    rw [Bool.eq_iff_iff]
    simp only [List.any_map, List.any_filter, List.any_eq_true, Function.comp_apply,
      Bool.and_eq_true, decide_eq_true_eq]
    constructor
    · rintro ⟨r, hr, hcond⟩
      exact ⟨r, hr, (hsame r hr).mp hcond⟩
    · rintro ⟨r, hr, hcond⟩
      exact ⟨r, hr, (hsame r hr).mpr hcond⟩
  have hput : ∀ (out : XdrOut) (v : ℕ), xdrPutU32 out (asWord v) = xdrPutU32 out v := by
    intro out v
    have hword : asWord v = v % 2 ^ 32 := by
      unfold asWord
      omega
    unfold xdrPutU32
    rw [hword, be32_mod]
  unfold refuseCall refuse
  simp only [hprog, hany, hlo, hhi, hput, Bool.not_not]
  generalize (routes.filter fun r => r.prog = c.call.prog).any
    (fun r => r.vers = c.call.vers) = known
  cases known
  · rfl
  · rfl

theorem handleCall_toRpc
    (hwords : ∀ r ∈ routes, r.Words) (s : Srv σ) (drc : Drc) (peer : Peer) (now later : ℤ)
    (c : RpcCallT) (args : Bytes) :
    handleCall (routes.map Route.toRpc) s drc peer now later c args =
      match matchRoute routes c.call with
      | none =>
          ⟨s, drc, [], (sendable (some (refuse routes c.call (xdrInit rpcBufSize)))).toList⟩
      | some r =>
          match if r.cache then drcLookup drc peer c.call.xid now else none with
          | some hit => ⟨s, drc, [], [hit.reply]⟩
          | none =>
              let res := runRoute r c.call args s
              ⟨res.2, match sendable res.1 with
                | some reply => if r.cache then drcStore drc peer c.call.xid reply later else drc
                | none => drc, [r.toRpc], (sendable res.1).toList⟩ := by
  unfold handleCall
  simp only [found_toRpc hwords c, refuseCall_toRpc hwords c]
  cases hroute : matchRoute routes c.call with
  | none =>
      simp only [Option.map_none, sendable]
      split_ifs <;> rfl
  | some r =>
      have hcache : r.toRpc.cache = r.cache := rfl
      have hxid : c.call.xid = c.xid.toNat := rfl
      simp only [Option.map_some, hcache, hxid, acceptedHead_eq, Bool.false_eq_true, if_false,
        runRoute]
      cases (if r.cache = true then drcLookup drc peer c.xid.toNat now else none) with
      | some hit => rfl
      | none =>
          have hfn : ∀ out, r.toRpc.fn c args out s =
              match exec (r.fn args out) s with
              | (.ok out, srv) => (some out, srv)
              | (.error exit, srv) => (exit, srv) := fun _ => rfl
          rw [hfn]
          cases exec (r.fn args ⟨acceptedReply c.xid 0 [], rpcBufSize, false⟩) s with
          | mk res s' =>
              have hend : ∀ out : Option XdrOut,
                  (match (out, s') with
                  | (none, s) => (⟨s, drc, [r.toRpc], []⟩ : Effects (Srv σ))
                  | (some out, s) =>
                      if out.err then ⟨s, drc, [r.toRpc], []⟩
                      else ⟨s, if r.cache then drcStore drc peer c.xid.toNat out.bytes later
                        else drc, [r.toRpc], [out.bytes]⟩) =
                  ⟨s', match sendable out with
                    | some reply =>
                        if r.cache then drcStore drc peer c.xid.toNat reply later else drc
                    | none => drc, [r.toRpc], (sendable out).toList⟩ := by
                intro out
                cases out with
                | none => rfl
                | some out =>
                    simp only [sendable]
                    split_ifs <;> rfl
              cases res with
              | ok out => exact hend (some out)
              | error exit =>
                  cases exit with
                  | none => exact hend none
                  | some out => exact hend (some out)

/-- The server's dispatcher is `handle_one` on its route table. -/
theorem handleOne_eq_handleDatagram
    (hwords : ∀ r ∈ routes, r.Words) (s : Rpc σ) {dg : Datagram σ}
    (hsize : dg.data.length ≤ rpcBufSize) :
    ∃ e, e = handleDatagram (routes.map Route.toRpc)
        { s.srv with world := dg.outside s.srv.world } s.drc dg.peer dg.now dg.later dg.data ∧
      (handleOne routes s dg).1 = ⟨e.state, e.drc⟩ ∧
      (handleOne routes s dg).2.ran = !e.calls.isEmpty ∧
      (handleOne routes s dg).2.sent = e.sent.head? := by
  refine ⟨_, rfl, ?_⟩
  have hstart := XdrT.parseCall_start hsize
  unfold handleDatagram handleOne
  cases hparse : rpcParseCall dg.data with
  | none =>
      rw [hparse] at hstart
      cases hrun : XdrT.parseCall (XdrT.init dg.data) with
      | fault => exact ⟨rfl, rfl, rfl⟩
      | failed x => exact ⟨rfl, rfl, rfl⟩
      | done c x =>
          rw [hrun] at hstart
          exact hstart.elim
  | some res =>
      obtain ⟨call, args⟩ := res
      rw [hparse] at hstart
      cases hrun : XdrT.parseCall (XdrT.init dg.data) with
      | fault =>
          rw [hrun] at hstart
          exact hstart.elim
      | failed x =>
          rw [hrun] at hstart
          exact hstart.elim
      | done c x =>
          rw [hrun] at hstart
          obtain ⟨rfl, rfl, -⟩ := hstart
          simp only [handleCall_toRpc hwords]
          cases matchRoute routes c.call with
          | none =>
              refine ⟨rfl, rfl, ?_⟩
              simp only
              cases sendable (some (refuse routes c.call (xdrInit rpcBufSize))) <;> rfl
          | some r =>
              simp only
              cases (if r.cache = true then drcLookup s.drc dg.peer c.call.xid dg.now
                else none) with
              | some hit => exact ⟨rfl, rfl, rfl⟩
              | none =>
                  simp only
                  cases sendable (runRoute r c.call x.left
                    { s.srv with world := dg.outside s.srv.world }).1 with
                  | none => exact ⟨rfl, rfl, rfl⟩
                  | some reply =>
                      cases hcache : r.cache with
                      | true => exact ⟨by simp, by simp, by simp⟩
                      | false => exact ⟨by simp, by simp, by simp⟩

end Server

/-- The table of the server. -/
theorem gnRoutes_words (os : Os σ) (ex : Export) : ∀ r ∈ gnRoutes os ex, r.Words := by
  intro r hr
  have hall : (gnRoutes os ex).all
      (fun r => r.prog < 2 ^ 32 ∧ r.vers < 2 ^ 31 ∧ r.proc < 2 ^ 32) = true := rfl
  obtain ⟨hprog, hvers, hproc⟩ := of_decide_eq_true (List.all_eq_true.mp hall r hr)
  exact ⟨hprog, hvers, hproc⟩

/-- Every parsed call: without a route nothing runs and one reply says why;
with routes the last one runs, unless its reply is in the cache. -/
theorem dispatch_classifies
    {routes : List (RpcRoute σ)} (hvers : ∀ r ∈ routes, r.vers.toNat < 2 ^ 31)
    (s : σ) (drc : Drc) (peer : Peer) (now later : ℤ) {dg : Bytes} {c : RpcCallT} {x : XdrT}
    (hparse : XdrT.parseCall (XdrT.init dg) = .done c x) :
    ((∀ r ∈ routes, ¬ r.Serves c) →
      ∃ reply, handleDatagram routes s drc peer now later dg = ⟨s, drc, [], [reply]⟩ ∧
        Unserved routes c reply) ∧
    ∀ before r after, routes = before ++ r :: after → r.Serves c →
      (∀ r' ∈ after, ¬ r'.Serves c) →
      (r.cache = true → (∃ e, Replayed drc peer c.xid now e) →
        ∃ e, Replayed drc peer c.xid now e ∧
          handleDatagram routes s drc peer now later dg = ⟨s, drc, [], [e.reply]⟩) ∧
      (¬ (r.cache = true ∧ ∃ e, Replayed drc peer c.xid now e) →
        (handleDatagram routes s drc peer now later dg).calls = [r] ∧
        (handleDatagram routes s drc peer now later dg).state =
          (r.fn c x.left ⟨acceptedReply c.xid 0 [], rpcBufSize, false⟩ s).2) := by
  have hcall : handleDatagram routes s drc peer now later dg =
      handleCall routes s drc peer now later c x.left := by
    unfold handleDatagram
    rw [hparse]
  rw [hcall]
  refine ⟨fun hnone => handleCall_unserved hvers hnone s drc peer now later x.left, ?_⟩
  rintro before r after rfl hr hlast
  exact handleCall_served hvers hr hlast s drc peer now later x.left

end Dispatch

def echoRoute (vers : UInt32) : RpcRoute ℕ :=
  ⟨100003, vers, 0, fun _ _ out n => (some out, n + 1), false⟩

/-- A call for version 9 of a program with the versions 2 and 4. -/
theorem dispatch_classifies_mismatch :
    (handleDatagram [echoRoute 4, echoRoute 2] 0 Drc.init ⟨1, 1023⟩ 5 5
        ([7, 0, 2, 100003, 9, 0, 0, 0, 0, 0].flatMap be32)).sent =
      [acceptedReply 7 progMismatch [2, 4]] := by
  have hparse : XdrT.parseCall (XdrT.init ([7, 0, 2, 100003, 9, 0, 0, 0, 0, 0].flatMap be32)) =
      .done ⟨7, 100003, 9, 0, noId, noId⟩
        ⟨[7, 0, 2, 100003, 9, 0, 0, 0, 0, 0].flatMap be32, 40, false⟩ := rfl
  have hvers : ∀ r ∈ [echoRoute 4, echoRoute 2], r.vers.toNat < 2 ^ 31 := by decide
  obtain ⟨reply, hrun, hrefused⟩ :=
    (dispatch_classifies hvers 0 Drc.init ⟨1, 1023⟩ 5 5 hparse).1 (by decide)
  obtain ⟨lo, hi, ⟨hlo, hlower⟩, ⟨hhi, hupper⟩, hreply⟩ :=
    hrefused.mismatch (by decide) (by decide)
  have htwo : (2 : ℤ) ∈ versionsOf 100003 [echoRoute 4, echoRoute 2] :=
    ⟨echoRoute 2, by simp, rfl, rfl⟩
  have hfour : (4 : ℤ) ∈ versionsOf 100003 [echoRoute 4, echoRoute 2] :=
    ⟨echoRoute 4, by simp, rfl, rfl⟩
  have hversions : ∀ v ∈ versionsOf 100003 [echoRoute 4, echoRoute 2], v = 4 ∨ v = 2 := by
    rintro v ⟨r, hr, -, rfl⟩
    simp only [List.mem_cons, List.not_mem_nil, or_false] at hr
    rcases hr with rfl | rfl
    · exact Or.inl rfl
    · exact Or.inr rfl
  have hlo2 : lo = 2 := by
    have hle := hlower htwo
    have hcase := hversions lo hlo
    omega
  have hhi4 : hi = 4 := by
    have hle := hupper hfour
    have hcase := hversions hi hhi
    omega
  rw [hrun, hreply, hlo2, hhi4]

end GrandCross
