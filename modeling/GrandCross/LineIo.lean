import GrandCross.Transfer

/-!
# Channels, protocol lines and frames

The transport layer of the daemon and its client: `chan.c` hides TCP and
serial behind loops that move every byte, and `lineio.c` reads LF-terminated
lines one byte at a time and writes lines and length-prefixed frames.
-/

namespace GrandCross

open CText
open Transfer

/-- `GCDSP_LINE_MAX`: the line buffer, the terminating NUL included. -/
def lineMax : ℕ := 1024

def serFrame : ℕ := 256

def jobMax : ℕ := 32767

inductive ChanKind where
  | tcp
  | ser
  deriving DecidableEq, Repr

/-- The sending half of `gcds_chan_t`. -/
structure Chan where
  kind : ChanKind
  out : Sink
  deriving DecidableEq

def Chan.sent (c : Chan) : Bytes := c.out.taken

def Chan.Steady (c : Chan) : Prop := c.out.Steady

instance (c : Chan) : Decidable c.Steady :=
  inferInstanceAs (Decidable c.out.Steady)

def chanWriteAll (c : Chan) (buf : Bytes) : Bool × Chan :=
  ((c.out.writeAll buf).1, { c with out := (c.out.writeAll buf).2 })

def ChanKind.chunk : ChanKind → ℕ
  | .ser => serFrame
  | .tcp => 1024

def chanChunk (c : Chan) : ℕ := c.kind.chunk

def lioPutLine (c : Chan) (line : Bytes) : Bool × Chan :=
  if (chanWriteAll c line).1 then chanWriteAll (chanWriteAll c line).2 [lf]
  else (false, (chanWriteAll c line).2)

def frameHdr (tag : Byte) (len : ℕ) : Bytes :=
  tag :: sp :: decimal len ++ [lf]

def lioPutFrame (frameMax : ℕ) (c : Chan) (tag : Byte) (data : Bytes) :
    Bool × Chan :=
  if data.length < 1 ∨ frameMax < data.length then (false, c)
  else
    if (chanWriteAll c (frameHdr tag data.length)).1 then
      chanWriteAll (chanWriteAll c (frameHdr tag data.length)).2 data
    else (false, (chanWriteAll c (frameHdr tag data.length)).2)

/-! ## Writing on a steady channel -/

/-- `Wrote c r bytes`: the call succeeded, put exactly `bytes` on the wire
and left a steady channel of the same kind. -/
structure Wrote (c : Chan) (result : Bool × Chan) (bytes : Bytes) :
    Prop where
  ok : result.1 = true
  sent : result.2.sent = c.sent ++ bytes
  steady : result.2.Steady
  kind : result.2.kind = c.kind

theorem wrote_chanWriteAll
    {c : Chan} (hc : c.Steady) (buf : Bytes) :
    Wrote c (chanWriteAll c buf) buf := by
  obtain ⟨hok, htaken, hsteady⟩ := Sink.writeAll_steady hc buf
  exact ⟨hok, htaken, hsteady, rfl⟩

theorem wrote_lioPutLine
    {c : Chan} (hc : c.Steady) (line : Bytes) :
    Wrote c (lioPutLine c line) (line ++ [lf]) := by
  have hline := wrote_chanWriteAll hc line
  have hend := wrote_chanWriteAll hline.steady [lf]
  unfold lioPutLine
  rw [if_pos hline.ok]
  refine ⟨hend.ok, ?_, hend.steady, hend.kind.trans hline.kind⟩
  rw [hend.sent, hline.sent, List.append_assoc]

theorem wrote_lioPutFrame
    {c : Chan} (hc : c.Steady) {frameMax : ℕ} (tag : Byte) {data : Bytes}
    (hpos : 1 ≤ data.length) (hmax : data.length ≤ frameMax) :
    Wrote c (lioPutFrame frameMax c tag data)
      (frameHdr tag data.length ++ data) := by
  have hhdr := wrote_chanWriteAll hc (frameHdr tag data.length)
  have hdata := wrote_chanWriteAll hhdr.steady data
  unfold lioPutFrame
  rw [if_neg (by omega), if_pos hhdr.ok]
  refine ⟨hdata.ok, ?_, hdata.steady, hdata.kind.trans hhdr.kind⟩
  rw [hdata.sent, hhdr.sent, List.append_assoc]

theorem lioPutFrame_steady
    {c : Chan} (hc : c.Steady) (frameMax : ℕ) (tag : Byte) (data : Bytes) :
    (lioPutFrame frameMax c tag data).2.Steady := by
  unfold lioPutFrame
  split_ifs
  · exact hc
  · exact (wrote_chanWriteAll (wrote_chanWriteAll hc _).steady data).steady
  · exact (wrote_chanWriteAll hc _).steady

theorem chanWriteAll_part (c : Chan) (buf : Bytes) :
    ∃ part, (chanWriteAll c buf).2.sent = c.sent ++ part ∧ part <+: buf ∧
      ((chanWriteAll c buf).1 = true → part = buf) := by
  obtain ⟨part, rest, hsplit, htaken, hall⟩ :=
    Sink.writeLoop_prefix c.out.plan c.out.taken buf
  refine ⟨part, htaken, ⟨rest, hsplit.symm⟩, ?_⟩
  intro hok
  rw [hsplit, hall hok, List.append_nil]

theorem lioPutLine_part (c : Chan) (line : Bytes) :
    ∃ part, (lioPutLine c line).2.sent = c.sent ++ part ∧
      part <+: line ++ [lf] ∧
      ((lioPutLine c line).1 = true → part = line ++ [lf]) := by
  obtain ⟨part, hsent, hpart, hall⟩ := chanWriteAll_part c line
  obtain ⟨part', hsent', hpart', hall'⟩ :=
    chanWriteAll_part (chanWriteAll c line).2 [lf]
  unfold lioPutLine
  split_ifs with hok
  · have hline := hall hok
    subst hline
    refine ⟨part ++ part', ?_, (List.prefix_append_right_inj part).mpr hpart', ?_⟩
    · rw [hsent', hsent, List.append_assoc]
    · intro hok'
      rw [hall' hok']
  · exact ⟨part, hsent, hpart.trans (List.prefix_append line [lf]), by simp⟩

theorem lioPutFrame_part (frameMax : ℕ) (c : Chan) (tag : Byte) (data : Bytes) :
    ∃ part, (lioPutFrame frameMax c tag data).2.sent = c.sent ++ part ∧
      part <+: frameHdr tag data.length ++ data ∧
      ((lioPutFrame frameMax c tag data).1 = true →
        part = frameHdr tag data.length ++ data) := by
  obtain ⟨hdr, hsent, hpart, hall⟩ := chanWriteAll_part c (frameHdr tag data.length)
  obtain ⟨part, hsent', hpart', hall'⟩ :=
    chanWriteAll_part (chanWriteAll c (frameHdr tag data.length)).2 data
  unfold lioPutFrame
  split_ifs with hsize hok
  · exact ⟨[], by simp, List.nil_prefix, by simp⟩
  · rw [hall hok] at hsent
    refine ⟨frameHdr tag data.length ++ part, by rw [hsent', hsent, List.append_assoc],
      (List.prefix_append_right_inj _).mpr hpart', ?_⟩
    intro hdone
    rw [hall' hdone]
  · exact ⟨hdr, hsent, hpart.trans (List.prefix_append _ _), by simp⟩

@[simp] theorem chanWriteAll_kind (c : Chan) (buf : Bytes) :
    (chanWriteAll c buf).2.kind = c.kind := rfl

@[simp] theorem lioPutLine_kind (c : Chan) (line : Bytes) :
    (lioPutLine c line).2.kind = c.kind := by
  unfold lioPutLine
  split_ifs <;> rfl

@[simp] theorem lioPutFrame_kind
    (frameMax : ℕ) (c : Chan) (tag : Byte) (data : Bytes) :
    (lioPutFrame frameMax c tag data).2.kind = c.kind := by
  unfold lioPutFrame
  split_ifs <;> rfl

/-! ## Reading lines -/

/-- What one received byte does to a line being read. -/
inductive LineStep where
  | more (buf : Bytes)
  | ok (line : Bytes)
  | elong
  deriving DecidableEq

/-- One turn of the loop in `lio_get_line`, with `buf` holding the bytes
stored so far. -/
def lioGetByte (size : ℕ) (buf : Bytes) (ch : Byte) : LineStep :=
  if ch = cr then .more buf
  else if ch = lf then .ok buf
  else if size - 1 ≤ buf.length then .elong
  else .more (buf ++ [ch])

inductive LioResult where
  | ok (line : Bytes)
  | eio
  | elong
  deriving DecidableEq

/-- The loop of `lio_get_line`: every turn is one `chan_read_n` of a single
byte, so it uses up one call of the source's plan. -/
def lioGetLoop (size : ℕ) :
    List (Option ℕ) → Bytes → Bytes → LioResult × Source
  | plan, [], _ => (.eio, ⟨plan, []⟩)
  | plan, ch :: pending, buf =>
      if plan.head? = some none then (.eio, ⟨plan.tail, ch :: pending⟩)
      else
        match lioGetByte size buf ch with
        | .more buf' => lioGetLoop size plan.tail pending buf'
        | .ok line => (.ok line, ⟨plan.tail, pending⟩)
        | .elong => (.elong, ⟨plan.tail, pending⟩)

def lioGetLine (size : ℕ) (s : Source) : LioResult × Source :=
  lioGetLoop size s.plan s.pending []

/-- The bytes a line may hold to come back unchanged: no LF and no CR. -/
def LineClean (line : Bytes) : Prop := lf ∉ line ∧ cr ∉ line

instance (line : Bytes) : Decidable (LineClean line) :=
  inferInstanceAs (Decidable (lf ∉ line ∧ cr ∉ line))

theorem LineClean.append
    {s t : Bytes} (hs : LineClean s) (ht : LineClean t) :
    LineClean (s ++ t) :=
  ⟨by simpa using ⟨hs.1, ht.1⟩, by simpa using ⟨hs.2, ht.2⟩⟩

theorem lineClean_cons
    {b : Byte} {s : Bytes} (hlf : b ≠ lf) (hcr : b ≠ cr)
    (hs : LineClean s) : LineClean (b :: s) := by
  refine ⟨?_, ?_⟩
  · simpa using ⟨fun h => hlf h.symm, hs.1⟩
  · simpa using ⟨fun h => hcr h.symm, hs.2⟩

theorem lineClean_decimal (n : ℕ) : LineClean (decimal n) :=
  ⟨(decimal_clean n).2.1, (decimal_clean n).2.2.1⟩

theorem lioGetByte_clean
    {size : ℕ} {buf : Bytes} {ch : Byte}
    (hcr : ch ≠ cr) (hlf : ch ≠ lf) (hsize : buf.length + 1 < size) :
    lioGetByte size buf ch = .more (buf ++ [ch]) := by
  have hlen : ¬ size - 1 ≤ buf.length := by omega
  simp [lioGetByte, hcr, hlf, hlen]

@[simp] theorem lioGetByte_lf (size : ℕ) (buf : Bytes) :
    lioGetByte size buf lf = .ok buf := by
  have hne : lf ≠ cr := by decide
  simp [lioGetByte, hne]

theorem lioGetLoop_clean
    (size : ℕ) (plan : List (Option ℕ)) (line rest buf : Bytes)
    (hplan : none ∉ plan) (hclean : LineClean line)
    (hsize : buf.length + line.length < size) :
    ∃ plan', none ∉ plan' ∧
      lioGetLoop size plan (line ++ lf :: rest) buf =
        (.ok (buf ++ line), ⟨plan', rest⟩) := by
  have htail : ∀ p : List (Option ℕ), none ∉ p → none ∉ p.tail :=
    fun p hp h => hp (List.mem_of_mem_tail h)
  have hhead : ∀ p : List (Option ℕ), none ∉ p → p.head? ≠ some none :=
    fun p hp h => hp (List.mem_of_mem_head? h)
  induction line generalizing plan buf with
  | nil =>
      refine ⟨plan.tail, htail plan hplan, ?_⟩
      simp [lioGetLoop, hhead plan hplan]
  | cons b line ih =>
      have hb : b ≠ lf ∧ b ≠ cr := by
        refine ⟨fun h => hclean.1 (by simp [h]), fun h => hclean.2 (by simp [h])⟩
      have hline : LineClean line :=
        ⟨fun h => hclean.1 (by simp [h]), fun h => hclean.2 (by simp [h])⟩
      simp only [List.length_cons] at hsize
      obtain ⟨plan', hplan', hloop⟩ :=
        ih plan.tail (buf ++ [b]) (htail plan hplan) hline
          (by simp only [List.length_append, List.length_singleton]; omega)
      refine ⟨plan', hplan', ?_⟩
      rw [List.cons_append, lioGetLoop, if_neg (hhead plan hplan),
        lioGetByte_clean hb.2 hb.1 (by omega)]
      simpa using hloop

/-- A clean line that fits the buffer is read back exactly, and the source
stands behind its LF. -/
theorem lioGetLine_clean
    (size : ℕ) {s : Source} (hs : s.Steady) {line rest : Bytes}
    (hpending : s.pending = line ++ lf :: rest) (hclean : LineClean line)
    (hsize : line.length < size) :
    ∃ s' : Source, s'.Steady ∧ s'.pending = rest ∧
      lioGetLine size s = (.ok line, s') := by
  obtain ⟨plan', hplan', hloop⟩ :=
    lioGetLoop_clean size s.plan line rest [] hs hclean (by simpa using hsize)
  refine ⟨⟨plan', rest⟩, hplan', rfl, ?_⟩
  unfold lioGetLine
  rw [hpending, hloop]
  rfl

theorem lioGetLoop_ok
    {size : ℕ} {plan : List (Option ℕ)} {line rest pending buf got : Bytes} {s : Source}
    (hplan : none ∉ plan) (hclean : LineClean line)
    (hpart : pending <+: line ++ lf :: rest)
    (hok : lioGetLoop size plan pending buf = (.ok got, s)) :
    got = buf ++ line ∧ s.Steady ∧ s.pending <+: rest := by
  have hhead : ∀ plan : List (Option ℕ), none ∉ plan →
      ¬ plan.head? = some none ∧ none ∉ plan.tail := by
    intro plan hplan
    exact ⟨fun h => hplan (List.mem_of_head? h), fun h => hplan (List.mem_of_mem_tail h)⟩
  induction line generalizing plan pending buf with
  | nil =>
      cases pending with
      | nil => simp [lioGetLoop] at hok
      | cons b pending =>
          rw [List.nil_append, List.cons_prefix_cons] at hpart
          rw [lioGetLoop, if_neg (hhead plan hplan).1, hpart.1, lioGetByte_lf] at hok
          simp only [Prod.mk.injEq, LioResult.ok.injEq] at hok
          rw [← hok.1, ← hok.2]
          exact ⟨by simp, (hhead plan hplan).2, hpart.2⟩
  | cons c line ih =>
      cases pending with
      | nil => simp [lioGetLoop] at hok
      | cons b pending =>
          rw [List.cons_append, List.cons_prefix_cons] at hpart
          obtain ⟨rfl, hpart⟩ := hpart
          have hlf : b ≠ lf := fun hb => hclean.1 (by simp [hb])
          have hcr : b ≠ cr := fun hb => hclean.2 (by simp [hb])
          have hline : LineClean line :=
            ⟨fun hb => hclean.1 (by simp [hb]), fun hb => hclean.2 (by simp [hb])⟩
          rw [lioGetLoop, if_neg (hhead plan hplan).1] at hok
          by_cases hlong : size - 1 ≤ buf.length
          · simp [lioGetByte, hcr, hlf, hlong] at hok
          · rw [lioGetByte_clean hcr hlf (by omega)] at hok
            have hrest := ih (hhead plan hplan).2 hline hpart hok
            rw [List.append_assoc] at hrest
            exact hrest

/-- A line that was read is all that stood before the LF, without the CRs. -/
theorem lioGetLoop_split
    {size : ℕ} {plan : List (Option ℕ)} {pending buf line : Bytes} {s : Source}
    (hok : lioGetLoop size plan pending buf = (.ok line, s)) :
    ∃ t, pending = t ++ lf :: s.pending ∧ lf ∉ t ∧ line = buf ++ t.filter (· ≠ cr) := by
  induction pending generalizing plan buf with
  | nil => simp [lioGetLoop] at hok
  | cons b pending ih =>
      rw [lioGetLoop] at hok
      split_ifs at hok with hfail
      · simp at hok
      unfold lioGetByte at hok
      by_cases hcr : b = cr
      · rw [if_pos hcr] at hok
        obtain ⟨t, hpending, hlf, hline⟩ := ih hok
        refine ⟨b :: t, by simp [hpending], ?_, by simpa [hcr] using hline⟩
        rw [hcr]
        simpa [(by decide : lf ≠ cr)] using hlf
      · rw [if_neg hcr] at hok
        split_ifs at hok with hend hlong
        · simp only [Prod.mk.injEq, LioResult.ok.injEq] at hok
          rw [← hok.1, ← hok.2]
          exact ⟨[], by simp [hend], by simp, by simp⟩
        · simp at hok
        · obtain ⟨t, hpending, hlf, hline⟩ := ih hok
          refine ⟨b :: t, by simp [hpending], ?_, by simpa [hcr] using hline⟩
          simpa [Ne.symm hend] using hlf

end GrandCross
