import GrandCross.HandleRuns
import GrandCross.NfsTriples

/-!
# At most once

A reply of a non-idempotent procedure stays in the ring until 256 further
replies are stored, every older entry with its key has run out, and calls with
its key are answered from the ring and store nothing.  So a retransmission
within the lifetime of the entry gets the same bytes and runs nothing.
-/

namespace GrandCross

open CText EarlyExit

section Dispatch

variable {σ : Type} (routes : List (Route σ))

/-- The transaction id of a datagram that calls a route marked `cache`. -/
def cachedXid (dg : Datagram σ) : Option ℕ :=
  match rpcParseCall dg.data with
  | none => none
  | some (c, _) =>
      match matchRoute routes c with
      | none => none
      | some r => if r.cache then some c.xid else none

/-- The state a datagram finds: other programs have worked on the files. -/
def Rpc.arrive (s : Rpc σ) (dg : Datagram σ) : Rpc σ :=
  { s with srv := { s.srv with world := dg.outside s.srv.world } }

variable {routes}

theorem handleOne_uncached
    {dg : Datagram σ} (hxid : cachedXid routes dg = none) (s : Rpc σ) :
    (handleOne routes s dg).1.drc = s.drc ∧
      (handleOne routes s dg).2.stored = false := by
  unfold cachedXid at hxid
  unfold handleOne
  cases hparse : rpcParseCall dg.data with
  | none => exact ⟨rfl, rfl⟩
  | some p =>
      obtain ⟨c, rest⟩ := p
      simp only [hparse] at hxid
      dsimp only
      cases hroute : matchRoute routes c with
      | none => exact ⟨rfl, rfl⟩
      | some r =>
          simp only [hroute] at hxid
          have hcache : r.cache = false := by
            by_contra h
            simp [h] at hxid
          simp only [hcache, Bool.false_eq_true, if_false]
          cases hsend : sendable (runRoute r c rest (s.arrive dg).srv).1 with
          | none =>
              unfold Rpc.arrive at hsend
              simp only [hsend]
              exact ⟨trivial, trivial⟩
          | some reply =>
              unfold Rpc.arrive at hsend
              simp only [hsend]
              exact ⟨trivial, trivial⟩

theorem cachedXid_eq_some
    {dg : Datagram σ} {xid : ℕ} (hxid : cachedXid routes dg = some xid) :
    ∃ c rest r, rpcParseCall dg.data = some (c, rest) ∧
      matchRoute routes c = some r ∧ r.cache = true ∧ c.xid = xid := by
  unfold cachedXid at hxid
  cases hparse : rpcParseCall dg.data with
  | none => simp [hparse] at hxid
  | some p =>
      obtain ⟨c, rest⟩ := p
      simp only [hparse] at hxid
      cases hroute : matchRoute routes c with
      | none => simp [hroute] at hxid
      | some r =>
          simp only [hroute] at hxid
          by_cases hcache : r.cache = true
          · simp only [hcache, if_true, Option.some.injEq] at hxid
            exact ⟨c, rest, r, rfl, hroute, hcache, hxid⟩
          · simp [hcache] at hxid

theorem cachedXid_of_route
    {dg : Datagram σ} {c : RpcCall} {args : Bytes} {r : Route σ}
    (hparse : rpcParseCall dg.data = some (c, args))
    (hroute : matchRoute routes c = some r) (hcache : r.cache = true) :
    cachedXid routes dg = some c.xid := by
  simp [cachedXid, hparse, hroute, hcache]

/-- A live entry is replayed and nothing else happens. -/
theorem handleOne_hit
    {dg : Datagram σ} {xid : ℕ} (hxid : cachedXid routes dg = some xid)
    {s : Rpc σ} {hit : DrcEnt}
    (hhit : drcLookup s.drc dg.peer xid dg.now = some hit) :
    handleOne routes s dg = (s.arrive dg, ⟨false, false, some hit.reply⟩) := by
  obtain ⟨c, rest, r, hparse, hroute, hcache, rfl⟩ := cachedXid_eq_some hxid
  unfold handleOne
  simp only [hparse, hroute, hcache, if_true, hhit]
  rfl

/-- Without a live entry the procedure runs; a reply that fits is stored. -/
theorem handleOne_miss
    {dg : Datagram σ} {xid : ℕ} (hxid : cachedXid routes dg = some xid)
    {s : Rpc σ} (hmiss : drcLookup s.drc dg.peer xid dg.now = none) :
    ((handleOne routes s dg).2 = ⟨true, false, none⟩ ∧
        (handleOne routes s dg).1.drc = s.drc) ∨
      ∃ reply, (handleOne routes s dg).2 =
          ⟨true, decide (reply.length ≤ drcReplyMax), some reply⟩ ∧
        (handleOne routes s dg).1.drc =
          drcStore s.drc dg.peer xid reply dg.later := by
  obtain ⟨c, rest, r, hparse, hroute, hcache, rfl⟩ := cachedXid_eq_some hxid
  unfold handleOne
  simp only [hparse, hroute, hcache, if_true, hmiss]
  cases hsend : sendable (runRoute r c rest (s.arrive dg).srv).1 with
  | none =>
      left
      unfold Rpc.arrive at hsend
      simp only [hsend]
      exact ⟨trivial, trivial⟩
  | some reply =>
      right
      unfold Rpc.arrive at hsend
      simp only [hsend]
      exact ⟨reply, rfl, rfl⟩

/-- A call the cache does not answer runs the procedure of its route. -/
theorem handleOne_run
    {dg : Datagram σ} {c : RpcCall} {args : Bytes} {r : Route σ}
    (hparse : rpcParseCall dg.data = some (c, args))
    (hroute : matchRoute routes c = some r) {s : Rpc σ}
    (hmiss : r.cache = true → drcLookup s.drc dg.peer c.xid dg.now = none) :
    (handleOne routes s dg).1.srv = (runRoute r c args (s.arrive dg).srv).2 ∧
      (handleOne routes s dg).2.sent =
        sendable (runRoute r c args (s.arrive dg).srv).1 := by
  have hlook : (if r.cache then drcLookup s.drc dg.peer c.xid dg.now else none) = none := by
    split_ifs with hcache
    · exact hmiss hcache
    · rfl
  unfold handleOne Rpc.arrive
  simp only [hparse, hroute, hlook]
  cases hsend : sendable (runRoute r c args
      { s.srv with world := dg.outside s.srv.world }).1 with
  | none => exact ⟨rfl, rfl⟩
  | some reply =>
      dsimp only
      split_ifs
      · exact ⟨rfl, rfl⟩
      · exact ⟨rfl, rfl⟩

variable (routes) in
/-- What a datagram does to the cache: nothing, or one entry for its own key
after a lookup that found none. -/
theorem handleOne_drc (s : Rpc σ) (dg : Datagram σ) :
    ((handleOne routes s dg).2.stored = false ∧
        (handleOne routes s dg).1.drc = s.drc) ∨
      ∃ xid reply, cachedXid routes dg = some xid ∧
        drcLookup s.drc dg.peer xid dg.now = none ∧
        (handleOne routes s dg).2 = ⟨true, true, some reply⟩ ∧
        (handleOne routes s dg).1.drc =
          s.drc.push ⟨true, dg.peer, xid, dg.later, reply⟩ := by
  cases hxid : cachedXid routes dg with
  | none =>
      have h := handleOne_uncached hxid s
      exact Or.inl ⟨h.2, h.1⟩
  | some xid =>
      cases hlook : drcLookup s.drc dg.peer xid dg.now with
      | some hit =>
          rw [handleOne_hit hxid hlook]
          exact Or.inl ⟨rfl, rfl⟩
      | none =>
          rcases handleOne_miss hxid hlook with ⟨hout, hdrc⟩ | ⟨reply, hout, hdrc⟩
          · rw [hout]
            exact Or.inl ⟨rfl, hdrc⟩
          · by_cases hlen : reply.length ≤ drcReplyMax
            · right
              refine ⟨xid, reply, rfl, hlook, ?_, ?_⟩
              · simp [hout, hlen]
              · rw [hdrc, drcStore, if_neg (by omega)]
            · left
              rw [hout, hdrc, drcStore, if_pos (by omega)]
              exact ⟨by simp [hlen], rfl⟩

/-- What holds of every used entry holds of them after a datagram, if it holds
of the reply that is stored under the call's own key. -/
theorem handleOne_entries_hold
    {P : DrcEnt → Prop} {s : Rpc σ} (hdrc : ∀ e ∈ s.drc.slots, e.valid = true → P e)
    {dg : Datagram σ}
    (hnew : ∀ xid reply, cachedXid routes dg = some xid →
      (handleOne routes s dg).2.sent = some reply →
        P ⟨true, dg.peer, xid, dg.later, reply⟩) :
    ∀ e ∈ (handleOne routes s dg).1.drc.slots, e.valid = true → P e := by
  rcases handleOne_drc routes s dg with ⟨-, hsame⟩ | ⟨xid, reply, hxid, -, hout, hpush⟩
  · rw [hsame]
    exact hdrc
  · rw [hpush]
    intro e he hvalid
    rcases SlotRing.mem_push he with h | h
    · exact hdrc e h hvalid
    · rw [h]
      exact hnew xid reply hxid (by rw [hout])

end Dispatch

theorem init_unused {e : DrcEnt} (he : e ∈ Drc.init.slots) : e.valid = false := by
  rw [List.eq_of_mem_replicate he]
  rfl

/-! ## An entry in the ring -/

/-- The entry stands in a slot that `k` stores have followed, and every other
entry with its key had run out at time `since`. -/
def Held (drc : Drc) (e : DrcEnt) (since : ℤ) (k : ℕ) : Prop :=
  ∃ j < drcSlots, drc.slots[j]? = some e ∧ drc.age j = k ∧
    ∀ i old, i ≠ j → drc.slots[i]? = some old →
      old.hasKey e.peer e.xid = true → drcTtl < since - old.stamp

theorem hasKey_self
    {e : DrcEnt} (hvalid : e.valid = true) : e.hasKey e.peer e.xid = true := by
  simp [DrcEnt.hasKey, hvalid]

/-- A lookup that found nothing, then the store. -/
theorem Held.stored
    {drc : Drc} {e : DrcEnt} {since : ℤ}
    (hmiss : drcLookup drc e.peer e.xid since = none) :
    Held (drc.push e) e since 0 := by
  refine ⟨drc.next, drc.next_lt, drc.push_written e, drc.age_push_written e, ?_⟩
  intro i old hi hold hkey
  rw [drc.push_other e hi] at hold
  have hnone := List.find?_eq_none.mp hmiss old (List.mem_of_getElem? hold)
  simp only [hkey, Bool.true_and, decide_eq_true_eq] at hnone
  omega

theorem Held.lookup
    {drc : Drc} {e : DrcEnt} {since now : ℤ} {k : ℕ} (hheld : Held drc e since k)
    (hvalid : e.valid = true) (hafter : since ≤ now)
    (hlive : now - e.stamp ≤ drcTtl) :
    drcLookup drc e.peer e.xid now = some e := by
  obtain ⟨j, -, hget, -, hothers⟩ := hheld
  apply SlotRing.find?_eq hget
  · simp [hasKey_self hvalid, hlive]
  · intro i old hi hold
    by_cases hkey : old.hasKey e.peer e.xid = true
    · have hgone := hothers i old hi hold hkey
      have hlate : ¬ now - old.stamp ≤ drcTtl := by omega
      simp [hlate]
    · simp [hkey]

/-- A store under another key leaves the entry held while it is not the
oldest. -/
theorem Held.push
    {drc : Drc} {e new : DrcEnt} {since : ℤ} {k : ℕ} (hheld : Held drc e since k)
    (hk : k + 1 < drcSlots) (hkey : new.hasKey e.peer e.xid = false) :
    Held (drc.push new) e since (k + 1) := by
  obtain ⟨j, hj, hget, hage, hothers⟩ := hheld
  have hsurvives := drc.push_survives new hj (by omega)
  refine ⟨j, hj, ?_, by rw [hsurvives.2, hage], ?_⟩
  · rw [drc.push_other new hsurvives.1]
    exact hget
  · intro i old hi hold hold'
    by_cases hnext : i = drc.next
    · rw [hnext, drc.push_written, Option.some.injEq] at hold
      subst hold
      rw [hkey] at hold'
      exact absurd hold' Bool.false_ne_true
    · rw [drc.push_other new hnext] at hold
      exact hothers i old hi hold hold'

/-! ## Runs -/

/-- The clock never goes back, within a datagram and from one to the next. -/
def Clocked {σ : Type} (dgs : List (Datagram σ)) : Prop :=
  (∀ dg ∈ dgs, dg.now ≤ dg.later) ∧
    dgs.Pairwise fun earlier dg => earlier.later ≤ dg.now

section Runs

variable {σ : Type} {routes : List (Route σ)}

theorem serve_append (s : Rpc σ) (dgs dgs' : List (Datagram σ)) :
    serve routes s (dgs ++ dgs') = serve routes (serve routes s dgs) dgs' :=
  List.foldl_append

/-- While the entry is live, a datagram leaves it held and adds at most the
one store it reports. -/
theorem Held.step
    {s : Rpc σ} {e : DrcEnt} {since : ℤ} {k : ℕ} (hheld : Held s.drc e since k)
    (hvalid : e.valid = true) {dg : Datagram σ} (hafter : since ≤ dg.now)
    (hlive : dg.now - e.stamp ≤ drcTtl)
    (hk : (k + if (handleOne routes s dg).2.stored then 1 else 0) < drcSlots) :
    Held (handleOne routes s dg).1.drc e since
      (k + if (handleOne routes s dg).2.stored then 1 else 0) := by
  rcases handleOne_drc routes s dg with
    ⟨hstored, hdrc⟩ | ⟨xid, reply, -, hmiss, hout, hdrc⟩
  · simpa [hstored, hdrc] using hheld
  · have hother : ¬ (dg.peer = e.peer ∧ xid = e.xid) := by
      rintro ⟨hpeer, hxid⟩
      rw [hpeer, hxid, hheld.lookup hvalid hafter hlive] at hmiss
      exact absurd hmiss (by simp)
    have hkey : DrcEnt.hasKey e.peer e.xid
        ⟨true, dg.peer, xid, dg.later, reply⟩ = false := by
      simp only [DrcEnt.hasKey, Bool.true_and, Bool.and_eq_false_iff,
        beq_eq_false_iff_ne]
      tauto
    simp only [hout, if_true] at hk ⊢
    rw [hdrc]
    exact hheld.push hk hkey

theorem Held.run
    {s : Rpc σ} {e : DrcEnt} {since : ℤ} {k : ℕ} (hheld : Held s.drc e since k)
    (hvalid : e.valid = true) {dgs : List (Datagram σ)}
    (hafter : ∀ dg ∈ dgs, since ≤ dg.now)
    (hlive : ∀ dg ∈ dgs, dg.now - e.stamp ≤ drcTtl)
    (hk : k + storesOf routes s dgs < drcSlots) :
    Held (serve routes s dgs).drc e since (k + storesOf routes s dgs) := by
  induction dgs generalizing s k with
  | nil => exact hheld
  | cons dg dgs ih =>
      simp only [storesOf] at hk ⊢
      have hstep : Held (handleOne routes s dg).1.drc e since
          (k + if (handleOne routes s dg).2.stored then 1 else 0) :=
        hheld.step hvalid (hafter dg (by simp)) (hlive dg (by simp)) (by omega)
      have hrest := ih hstep (fun d hd => hafter d (by simp [hd]))
        (fun d hd => hlive d (by simp [hd])) (by omega)
      rw [← Nat.add_assoc]
      exact hrest

end Runs

/-! ## The routes of the server -/

section Routes

variable {σ : Type} (os : Os σ) (ex : Export)

theorem tableInv_true : TableInv os ex (fun _ => True) fun _ => True :=
  ⟨trivial, fun _ _ _ _ _ => trivial, fun _ _ _ => trivial,
    fun _ _ _ => ⟨trivial, fun _ _ => trivial⟩, fun _ _ _ _ => trivial⟩

theorem replyHead_fits (xid status : ℕ) :
    Fits 24 (replyHead xid status (xdrInit rpcBufSize)) := by
  have hinit : Fits 0 (xdrInit rpcBufSize) := le_rfl
  exact hinit.words [xid, 1, 0, 0, 0, status]

theorem sendable_runRoute_length
    {r : Route σ} (hr : r ∈ gnRoutes os ex) (hcache : r.cache = true)
    (c : RpcCall) (rest : Bytes) (srv : Srv σ) {reply : Bytes}
    (hsend : sendable (runRoute r c rest srv).1 = some reply) :
    reply.length ≤ drcReplyMax := by
  have hshort := cached_route_short (tableInv_true os ex) r hr hcache rest
    (replyHead c.xid 0 (xdrInit rpcBufSize)) 24 (replyHead_fits _ _) srv trivial
  unfold runRoute at hsend
  cases hexec : exec (r.fn rest (replyHead c.xid 0 (xdrInit rpcBufSize))) srv with
  | mk out srv' =>
      rw [hexec] at hsend hshort
      have hfits : ∀ o : XdrOut, sendable (some o) = some reply →
          Fits (24 + shortBody) o → reply.length ≤ drcReplyMax := by
        intro o hsend hfits
        unfold sendable at hsend
        by_cases herr : o.err = true
        · simp [herr] at hsend
        · simp only [herr, Bool.false_eq_true, if_false, Option.some.injEq] at hsend
          subst hsend
          exact le_trans hfits (by decide)
      cases out with
      | ok out => exact hfits out hsend hshort.2
      | error exit =>
          cases exit with
          | none => simp [sendable] at hsend
          | some out => exact hfits out hsend (hshort.2 out rfl)

/-- Every answered call of a route marked `cache` is stored. -/
theorem answered_is_stored
    {s : Rpc σ} {dg : Datagram σ} {xid : ℕ} {reply : Bytes}
    (hxid : cachedXid (gnRoutes os ex) dg = some xid)
    (hran : (handleOne (gnRoutes os ex) s dg).2.ran = true)
    (hsent : (handleOne (gnRoutes os ex) s dg).2.sent = some reply) :
    drcLookup s.drc dg.peer xid dg.now = none ∧
      (handleOne (gnRoutes os ex) s dg).1.drc =
        s.drc.push ⟨true, dg.peer, xid, dg.later, reply⟩ := by
  obtain ⟨c, rest, r, hparse, hroute, hcache, rfl⟩ := cachedXid_eq_some hxid
  cases hlook : drcLookup s.drc dg.peer c.xid dg.now with
  | some hit =>
      rw [handleOne_hit hxid hlook] at hran
      exact absurd hran Bool.false_ne_true
  | none =>
      refine ⟨rfl, ?_⟩
      unfold handleOne at hsent ⊢
      simp only [hparse, hroute, hcache, if_true, hlook] at hsent ⊢
      cases hsend : sendable (runRoute r c rest (s.arrive dg).srv).1 with
      | none =>
          unfold Rpc.arrive at hsend
          simp [hsend] at hsent
      | some reply' =>
          have hlen := sendable_runRoute_length os ex (matchRoute_mem hroute)
            hcache c rest _ hsend
          unfold Rpc.arrive at hsend
          simp only [hsend, Option.some.injEq] at hsent ⊢
          subst hsent
          rw [drcStore, if_neg (by omega)]

/-- A retransmission within the lifetime of the entry is answered with the
same bytes, runs nothing and stores nothing. -/
theorem drc_at_most_once
    (w : σ) (pre mid : List (Datagram σ)) (first again : Datagram σ)
    (xid : ℕ) (reply : Bytes)
    (hclock : Clocked (pre ++ first :: (mid ++ [again])))
    (hfirst : cachedXid (gnRoutes os ex) first = some xid)
    (hran : (handleOne (gnRoutes os ex)
      (serve (gnRoutes os ex) (Rpc.start w) pre) first).2.ran = true)
    (hsent : (handleOne (gnRoutes os ex)
      (serve (gnRoutes os ex) (Rpc.start w) pre) first).2.sent = some reply)
    (hagain : cachedXid (gnRoutes os ex) again = some xid)
    (hpeer : again.peer = first.peer)
    (httl : again.now - first.later ≤ 30)
    (hstores : storesOf (gnRoutes os ex)
      (serve (gnRoutes os ex) (Rpc.start w) (pre ++ [first])) mid < 256) :
    handleOne (gnRoutes os ex)
        (serve (gnRoutes os ex) (Rpc.start w) (pre ++ first :: mid)) again =
      ((serve (gnRoutes os ex) (Rpc.start w) (pre ++ first :: mid)).arrive again,
        ⟨false, false, some reply⟩) := by
  obtain ⟨hmiss, hpush⟩ := answered_is_stored os ex hfirst hran hsent
  have hheld := Held.stored (e := ⟨true, first.peer, xid, first.later, reply⟩) hmiss
  rw [← hpush] at hheld
  have hpair := (List.pairwise_append.mp hclock.2).2.1
  rw [List.pairwise_cons, List.pairwise_append] at hpair
  have hfirstClock : first.now ≤ first.later := hclock.1 first (by simp)
  have hmidLater : ∀ dg ∈ mid, dg.later ≤ again.now := fun dg hdg =>
    hpair.2.2.2 dg hdg again (by simp)
  have hmidClock : ∀ dg ∈ mid, dg.now ≤ dg.later := fun dg hdg =>
    hclock.1 dg (by simp [hdg])
  have hstart : ∀ dg ∈ mid ++ [again], first.later ≤ dg.now := hpair.1
  have hserve : serve (gnRoutes os ex) (Rpc.start w) (pre ++ [first]) =
      (handleOne (gnRoutes os ex)
        (serve (gnRoutes os ex) (Rpc.start w) pre) first).1 := by
    rw [serve_append]
    rfl
  rw [← hserve] at hheld
  have hafter : ∀ dg ∈ mid, first.now ≤ dg.now := fun dg hdg =>
    le_trans hfirstClock (hstart dg (List.mem_append_left _ hdg))
  have hlive : ∀ dg ∈ mid, dg.now - first.later ≤ drcTtl := by
    intro dg hdg
    have h1 := hmidLater dg hdg
    have h2 := hmidClock dg hdg
    show dg.now - first.later ≤ 30
    omega
  have hrun := hheld.run rfl hafter hlive (by simpa [drcSlots] using hstores)
  rw [← serve_append, List.append_assoc, List.singleton_append] at hrun
  have hlook : drcLookup
      (serve (gnRoutes os ex) (Rpc.start w) (pre ++ first :: mid)).drc again.peer
      xid again.now = some ⟨true, first.peer, xid, first.later, reply⟩ := by
    rw [hpeer]
    exact hrun.lookup rfl (le_trans hfirstClock (hstart again (by simp))) httl
  exact handleOne_hit hagain hlook

end Routes

/-! ## A removal sent twice -/

def plainStat (mode ino : ℕ) : Stat :=
  ⟨mode, 1, 0, 0, 0, 4096, 0, 0, 0, ino, 0, 0, 0, 0, 0, 0⟩

/-- A file system of plain files below `/r`. -/
def flatOs : Os (List Bytes) where
  view w :=
    { noFs with
      lstat := fun path =>
        if path ∈ w then .ok (plainStat 0o100644 1) else .error 2
      stat := fun path =>
        if path = ascii "/r" then .ok (plainStat 0o40755 1) else .error 2 }
  chmod w _ _ := w
  truncate w _ _ := w
  writeAt w _ _ _ := (.error 5, w)
  mkdir w _ _ := (.error 13, w)
  creat w path _ := (.ok (), path :: w)
  unlink w path := if path ∈ w then (.ok (), w.erase path) else (.error 2, w)
  rmdir w _ := (.error 20, w)
  rename w _ _ := (.error 13, w)
  link w _ _ := (.error 13, w)
  symlink w _ _ := (.error 13, w)

def flatExport : Export := ⟨ascii "/r", 2049⟩

/-- The header of a call without credentials. -/
def callHead (xid prog vers proc : ℕ) : Bytes :=
  [xid, 0, 2, prog, vers, proc, 0, 0, 0, 0].flatMap be32

theorem xdrGetBytes_empty (rest : Bytes) : xdrGetBytes (be32 0 ++ rest) = some ([], rest) :=
  xdrGetBytes_counted (p := []) (by norm_num) rest

theorem rpcParseCall_callHead
    {xid prog vers proc : ℕ} (hxid : xid < 2 ^ 32) (hprog : prog < 2 ^ 32)
    (hvers : vers < 2 ^ 32) (hproc : proc < 2 ^ 32) (args : Bytes) :
    rpcParseCall (callHead xid prog vers proc ++ args) =
      some (⟨xid, prog, vers, proc⟩, args) := by
  have hzero : ∀ rest, xdrGetU32 (be32 0 ++ rest) = some (0, rest) :=
    xdrGetU32_word (by norm_num)
  have htwo : ∀ rest, xdrGetU32 (be32 2 ++ rest) = some (2, rest) :=
    xdrGetU32_word (by norm_num)
  simp only [callHead, List.flatMap_cons, List.flatMap_nil, List.append_assoc, List.nil_append]
  unfold rpcParseCall
  simp only [xdrGetU32_word hxid, xdrGetU32_word hprog, xdrGetU32_word hvers,
    xdrGetU32_word hproc, hzero, htwo, xdrGetBytes_empty, Option.bind_eq_bind,
    Option.bind_some, ne_eq, not_true_eq_false, if_false]
  rfl

def mountCall : Datagram (List Bytes) :=
  ⟨⟨1, 1023⟩, callHead 6 mountProg mountVers 1 ++ counted (ascii "/r"), id, 90, 90⟩

def removeCall (now : ℤ) : Datagram (List Bytes) :=
  ⟨⟨1, 1023⟩, callHead 7 nfsProg nfsVers 10 ++
    issue (ascii "/r") Table.empty (ascii "/r") ++ counted (ascii "a"), id, now, now⟩

/-- A new file `a`, which another client asks for. -/
def createCall (now : ℤ) : Datagram (List Bytes) :=
  ⟨⟨2, 1023⟩, callHead 7 nfsProg nfsVers 9 ++
    issue (ascii "/r") Table.empty (ascii "/r") ++ counted (ascii "a") ++
      (List.replicate 8 noValue).flatMap be32, id, now, now⟩

/-- The removal of `b`, which is not there. -/
def removeOther (now : ℤ) : Datagram (List Bytes) :=
  ⟨⟨1, 1023⟩, callHead 8 nfsProg nfsVers 10 ++
    issue (ascii "/r") Table.empty (ascii "/r") ++ counted (ascii "b"), id, now, now⟩

/-- Both are cached as well. -/
def between : List (Datagram (List Bytes)) := [createCall 101, removeOther 102]

/-- The second copy gets the status of the first, and the file that another
client has created in between stays. -/
theorem drc_at_most_once_remove :
    handleOne (gnRoutes flatOs flatExport)
        (serve (gnRoutes flatOs flatExport) (Rpc.start [ascii "/r/a"])
          ([mountCall] ++ removeCall 100 :: between)) (removeCall 105) =
      ((serve (gnRoutes flatOs flatExport) (Rpc.start [ascii "/r/a"])
          ([mountCall] ++ removeCall 100 :: between)).arrive (removeCall 105),
        ⟨false, false, some ([7, 1, 0, 0, 0, 0, nfsOk].flatMap be32)⟩) ∧
      storesOf (gnRoutes flatOs flatExport)
        (serve (gnRoutes flatOs flatExport) (Rpc.start [ascii "/r/a"])
          ([mountCall] ++ [removeCall 100])) between = 2 ∧
      (serve (gnRoutes flatOs flatExport) (Rpc.start [ascii "/r/a"])
        ([mountCall] ++ removeCall 100 :: between)).srv.world = [ascii "/r/a"] := by
  have hstores : storesOf (gnRoutes flatOs flatExport)
      (serve (gnRoutes flatOs flatExport) (Rpc.start [ascii "/r/a"])
        ([mountCall] ++ [removeCall 100])) between = 2 := by
    decide +kernel
  refine ⟨?_, hstores, by decide +kernel⟩
  refine drc_at_most_once flatOs flatExport [ascii "/r/a"] [mountCall] between (removeCall 100)
    (removeCall 105) 7 _ ⟨?_, ?_⟩ (by decide +kernel) (by decide +kernel) (by decide +kernel)
    (by decide +kernel) rfl (by decide) (by rw [hstores]; decide)
  · simp [mountCall, removeCall, between, createCall, removeOther]
  · simp [mountCall, removeCall, between, createCall, removeOther]

end GrandCross
