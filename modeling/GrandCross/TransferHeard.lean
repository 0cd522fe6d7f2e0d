import GrandCross.PutWhole
import GrandCross.TransferRun

/-!
# What a client has heard when it reports success

Whatever fails on the way, `xfer_put` returns 0 only behind two lines that
begin with OK, and `xfer_get` only behind OK and a whole stream of D frames.
-/

namespace GrandCross

open CText
open Transfer

/-! ## Lines -/

theorem lioGetLine_split
    {size : ℕ} {inp inp' : Source} {line : Bytes}
    (hok : lioGetLine size inp = (.ok line, inp')) :
    ∃ t, inp.pending = t ++ lf :: inp'.pending ∧ lf ∉ t ∧ cstr line = rawLine t := by
  obtain ⟨t, hpending, hlf, hline⟩ := lioGetLoop_split hok
  exact ⟨t, hpending, hlf, by rw [hline, List.nil_append, rawLine]⟩

/-- The bytes before the first LF are determined. -/
theorem line_unique
    {t t' rest rest' : Bytes} (ht : lf ∉ t) (ht' : lf ∉ t')
    (hpre : t ++ lf :: rest <+: t' ++ lf :: rest') : t = t' ∧ rest <+: rest' := by
  induction t generalizing t' with
  | nil =>
      cases t' with
      | nil => exact ⟨rfl, (List.cons_prefix_cons.mp hpre).2⟩
      | cons b t' =>
          have hb := (List.cons_prefix_cons.mp hpre).1
          exact absurd (by simp [hb]) ht'
  | cons a t ih =>
      cases t' with
      | nil =>
          have ha := (List.cons_prefix_cons.mp hpre).1
          exact absurd (by simp [ha]) ht
      | cons b t' =>
          obtain ⟨rfl, hrest⟩ := List.cons_prefix_cons.mp hpre
          obtain ⟨rfl, hrest'⟩ := ih (fun h => ht (by simp [h])) (fun h => ht' (by simp [h]))
            hrest
          exact ⟨rfl, hrest'⟩

theorem rawLine_cons
    {b : Byte} (hcr : b ≠ cr) (hnul : b ≠ nul) (t : Bytes) :
    rawLine (b :: t) = b :: rawLine t := by
  simp [rawLine, cstr, hcr, hnul]

theorem rawLine_clean
    {t : Bytes} (hcr : cr ∉ t) (hnul : nul ∉ t) : rawLine t = t := by
  have hfilter : t.filter (· ≠ cr) = t := by
    rw [List.filter_eq_self]
    intro b hb
    have hne : b ≠ cr := fun h => hcr (h ▸ hb)
    simpa using hne
  rw [rawLine, hfilter, cstr_eq_self hnul]

/-! ## Uploads -/

theorem Upload.cons
    (frame : DFrame) {s content : Bytes} (h : Upload s content) :
    Upload (frame.encode ++ s) (frame.data ++ content) := by
  obtain ⟨fs, last, num, hlf, hline, hzero, hs, hcontent⟩ := h
  exact ⟨frame :: fs, last, num, hlf, hline, hzero, by simp [hs], by simp [hcontent]⟩

/-- An upload is a frame of length 0, or a frame and an upload. -/
theorem Upload.inv
    {s content : Bytes} (h : Upload s content) :
    (∃ last num, lf ∉ last ∧ rawLine last = 68 :: sp :: num ∧ atol num = 0 ∧
      s = last ++ lf :: [] ∧ content = []) ∨
    ∃ (frame : DFrame) (s' content' : Bytes), Upload s' content' ∧
      s = frame.head ++ lf :: (frame.data ++ s') ∧ content = frame.data ++ content' := by
  obtain ⟨fs, last, num, hlf, hline, hzero, rfl, rfl⟩ := h
  cases fs with
  | nil => exact .inl ⟨last, num, hlf, hline, hzero, rfl, rfl⟩
  | cons frame fs =>
      refine .inr ⟨frame, _, _, ⟨fs, last, num, hlf, hline, hzero, rfl, rfl⟩, ?_, rfl⟩
      simp [DFrame.encode]

/-- A header line read off the front of a stream is its header. -/
theorem header_read
    {t num rest rest' : Bytes} {n : ℕ} (hn : n ≤ wireFrameMax) (hlf : lf ∉ t)
    (htag : rawLine t = 68 :: sp :: num)
    (hpre : t ++ lf :: rest <+: hdrText 68 n ++ lf :: rest') :
    t = hdrText 68 n ∧ atol num = n ∧ rest <+: rest' := by
  have hclean : LineClean (hdrText 68 n) := hdrText_clean (by decide) (by decide) n
  obtain ⟨rfl, hrest⟩ := line_unique hlf hclean.1 hpre
  have hnul : nul ∉ hdrText 68 n := by
    have hdigits := (decimal_clean n).1
    simpa [hdrText, sp, nul] using hdigits
  rw [rawLine_clean hclean.2 hnul] at htag
  simp only [hdrText, List.cons.injEq, true_and] at htag
  refine ⟨rfl, ?_, hrest⟩
  rw [← htag]
  exact atol_decimal (hn.trans (by decide))

/-- Of the stream that a sender makes of these pieces, no proper part is a
transfer, and the whole is one of all of them. -/
theorem upload_putStream
    {reads : List Bytes}
    (hreads : ∀ piece ∈ reads, 1 ≤ piece.length ∧ piece.length ≤ wireFrameMax)
    {s content : Bytes} (hup : Upload s content) (hpre : s <+: putStream reads) :
    s = putStream reads ∧ content = reads.flatten := by
  induction reads generalizing s content with
  | nil =>
      have hstream : putStream [] = hdrText 68 0 ++ lf :: [] := by decide
      rw [hstream] at hpre ⊢
      rcases hup.inv with ⟨last, num, hlf, htag, -, rfl, rfl⟩ | ⟨frame, s', content', -, rfl, -⟩
      · obtain ⟨rfl, -, -⟩ := header_read (Nat.zero_le _) hlf htag hpre
        exact ⟨rfl, rfl⟩
      · obtain ⟨num, htag, hlen⟩ := frame.tag
        obtain ⟨-, hzero, -⟩ := header_read (Nat.zero_le _) frame.noLf htag hpre
        have hpos := List.length_pos_of_ne_nil frame.pos
        omega
  | cons piece reads ih =>
      obtain ⟨hpos, hwire⟩ := hreads piece (by simp)
      have hstream : putStream (piece :: reads) =
          hdrText 68 piece.length ++ lf :: (piece ++ putStream reads) := by
        simp [putStream, encodeData, frameHdr_eq]
      rw [hstream] at hpre ⊢
      rcases hup.inv with ⟨last, num, hlf, htag, hzero, rfl, -⟩ |
        ⟨frame, s', content', hup', rfl, rfl⟩
      · obtain ⟨-, hlen, -⟩ := header_read hwire hlf htag hpre
        omega
      · obtain ⟨num, htag, hlen⟩ := frame.tag
        obtain ⟨hhead, hnum, hrest⟩ := header_read hwire frame.noLf htag hpre
        have hdata : frame.data = piece := by
          have hfront : frame.data <+: piece :=
            List.prefix_of_prefix_length_le ((List.prefix_append _ s').trans hrest)
              (List.prefix_append piece _) (by omega)
          exact hfront.eq_of_length (by omega)
        rw [hdata] at hrest
        obtain ⟨hs, hcontent⟩ := ih (fun p hp => hreads p (by simp [hp])) hup'
          ((List.prefix_append_right_inj piece).mp hrest)
        rw [hhead, hdata, hs, hcontent, List.flatten_cons]
        exact ⟨rfl, rfl⟩

/-! ## Success of a download -/

theorem getFrame_more
    {frameMax : ℕ} {g g' : Get} {line : Bytes}
    (hframe : getFrame frameMax g line = (none, g')) :
    ∃ num data, line = 68 :: sp :: num ∧ atol num = data.length ∧ data ≠ [] ∧
      g.inp.pending = data ++ g'.inp.pending ∧ g'.saved = g.saved ++ data := by
  unfold getFrame at hframe
  split at hframe
  · rename_i num
    dsimp only at hframe
    by_cases hzero : atol num = 0
    · simp [hzero] at hframe
    by_cases hbad : atol num < 0 ∨ (frameMax : ℤ) < atol num
    · rw [if_neg hzero, if_pos hbad] at hframe
      simp at hframe
    rw [if_neg hzero, if_neg hbad] at hframe
    cases hread : g.inp.readN (atol num).toNat with
    | none => simp [hread] at hframe
    | some got =>
        obtain ⟨data, inp⟩ := got
        rw [hread] at hframe
        dsimp only at hframe
        split_ifs at hframe
        · obtain ⟨hfew, hdata, hrest⟩ := Source.readLoop_some hread
          rw [List.nil_append] at hdata
          have hlen : data.length = (atol num).toNat := by
            rw [hdata, List.length_take]
            omega
          simp only [Prod.mk.injEq, true_and] at hframe
          subst hframe
          refine ⟨num, data, rfl, by omega, ?_, ?_, rfl⟩
          · intro hnil
            rw [hnil, List.length_nil] at hlen
            omega
          · rw [hrest, hdata, List.take_append_drop]
        · simp at hframe
  · simp at hframe

theorem getFrame_done
    {frameMax : ℕ} {g g' : Get} {line : Bytes}
    (hframe : getFrame frameMax g line = (some true, g')) :
    g' = g ∧ ∃ num, line = 68 :: sp :: num ∧ atol num = 0 := by
  unfold getFrame at hframe
  split at hframe
  · rename_i num
    dsimp only at hframe
    by_cases hzero : atol num = 0
    · simp only [hzero, if_true, Prod.mk.injEq, true_and] at hframe
      exact ⟨hframe.symm, num, rfl, hzero⟩
    · rw [if_neg hzero] at hframe
      split at hframe
      · simp at hframe
      · split at hframe
        · simp at hframe
        · split at hframe <;> simp at hframe
  · simp at hframe

/-- When the loop ends at a last frame, it has read a whole upload and saved
its content. -/
theorem getLoop_upload
    {frameMax fuel : ℕ} {g g' : Get} (hloop : getLoop frameMax fuel g = (true, g')) :
    ∃ s content, g.inp.pending = s ++ g'.inp.pending ∧ Upload s content ∧
      g'.saved = g.saved ++ content := by
  induction fuel generalizing g with
  | zero => simp [getLoop] at hloop
  | succ fuel ih =>
      rw [getLoop] at hloop
      cases hget : lioGetLine lineMax g.inp with
      | mk result inp =>
          rw [hget] at hloop
          cases result with
          | eio => simp at hloop
          | elong => simp at hloop
          | ok line =>
              obtain ⟨t, hpending, hlf, hline⟩ := lioGetLine_split hget
              dsimp only at hloop
              cases hframe : getFrame frameMax { g with inp := inp } (cstr line) with
              | mk result g₁ =>
                  rw [hframe] at hloop
                  cases result with
                  | some done =>
                      simp only [Prod.mk.injEq] at hloop
                      obtain ⟨rfl, rfl⟩ := hloop
                      obtain ⟨rfl, num, hnum, hzero⟩ := getFrame_done hframe
                      refine ⟨t ++ [lf], [], by simpa using hpending, ?_, by simp⟩
                      exact ⟨[], t, num, hlf, hline.symm.trans hnum, hzero, by simp, rfl⟩
                  | none =>
                      obtain ⟨num, data, hnum, hatol, hpos, hdata, hsaved⟩ :=
                        getFrame_more hframe
                      obtain ⟨s, content, hs, hup, hcontent⟩ := ih hloop
                      let frame : DFrame :=
                        ⟨t, data, hlf, ⟨num, hline.symm.trans hnum, hatol⟩, hpos⟩
                      refine ⟨frame.encode ++ s, data ++ content, ?_, hup.cons frame, ?_⟩
                      · rw [hpending, hdata, hs]
                        simp [frame, DFrame.encode]
                      · rw [hcontent, hsaved, List.append_assoc]

/-! ## Success of a command -/

theorem chanWriteAll_ok
    {c : Chan} {buf : Bytes} (hok : (chanWriteAll c buf).1 = true) :
    (chanWriteAll c buf).2.sent = c.sent ++ buf := by
  obtain ⟨part, hsent, -, hall⟩ := chanWriteAll_part c buf
  rw [hsent, hall hok]

theorem lioPutLine_ok
    {c : Chan} {line : Bytes} (hok : (lioPutLine c line).1 = true) :
    (lioPutLine c line).2.sent = c.sent ++ (line ++ [lf]) := by
  obtain ⟨part, hsent, -, hall⟩ := lioPutLine_part c line
  rw [hsent, hall hok]

theorem rcCmd_ok
    {link link' : Link} {line reply : Bytes} (hcmd : rcCmd link line = (some reply, link')) :
    link'.chan.sent = link.chan.sent ++ (line ++ [lf]) ∧
      link'.chan.kind = link.chan.kind ∧
      ∃ t, link.inp.pending = t ++ lf :: link'.inp.pending ∧ lf ∉ t ∧ rawLine t = reply := by
  unfold rcCmd at hcmd
  dsimp only at hcmd
  split_ifs at hcmd with hsend
  · cases hget : lioGetLine lineMax link.inp with
    | mk result inp =>
        rw [hget] at hcmd
        cases result with
        | eio => simp at hcmd
        | elong => simp at hcmd
        | ok got =>
            simp only [Prod.mk.injEq, Option.some.injEq] at hcmd
            obtain ⟨t, hpending, hlf, hline⟩ := lioGetLine_split hget
            rw [← hcmd.2]
            exact ⟨lioPutLine_ok hsend, lioPutLine_kind _ _, t, hpending, hlf,
              hline.symm.trans hcmd.1⟩
  · simp at hcmd

theorem xferSend_ok
    {reads : List Bytes} {c : Chan} (hok : (xferSend reads c).1 = true) :
    (xferSend reads c).2.sent = c.sent ++ encodeData reads := by
  induction reads generalizing c with
  | nil => simp [xferSend, encodeData]
  | cons piece reads ih =>
      unfold xferSend at hok ⊢
      dsimp only at hok ⊢
      split_ifs at hok with hhdr hdata
      · rw [if_pos hhdr, if_pos hdata, ih hok, chanWriteAll_ok hdata, chanWriteAll_ok hhdr]
        simp [encodeData]

/-- `xfer_put` has sent the whole stream and has read two lines. -/
theorem xferPut_zero
    {link : Link} {plan : List (Option ℕ)} {content rpath : Bytes}
    (hzero : (xferPut link (some (plan, content)) rpath).1 = 0) :
    sentBetween link.chan (xferPut link (some (plan, content)) rpath).2.chan =
        putLine rpath ++ [lf] ++ putStream (freads link.chan.kind.chunk plan content) ∧
      ∃ t t' rest, link.inp.pending = t ++ lf :: (t' ++ lf :: rest) ∧ lf ∉ t ∧
        rawLine t = ascii "OK" ∧ gcdsStarts (rawLine t') (ascii "OK") = true := by
  unfold xferPut at hzero ⊢
  dsimp only at hzero ⊢
  cases hcmd : rcCmd link (putLine rpath) with
  | mk reply link' =>
      rw [hcmd] at hzero
      cases reply with
      | none => simp at hzero
      | some reply =>
          obtain ⟨hsent, hkind, t, hpending, hlf, hreply⟩ := rcCmd_ok hcmd
          obtain ⟨hchunk, -⟩ := chunk_wireFrameMax link'.chan.kind
          dsimp only at hzero ⊢
          by_cases hok : reply = ascii "OK"
          · subst hok
            simp only [ne_eq, not_true_eq_false, if_false, chanChunk, hchunk] at hzero ⊢
            by_cases hall : (xferSend (freads link'.chan.kind.chunk plan content)
                link'.chan).1 = true
            · rw [if_pos hall] at hzero ⊢
              by_cases hlast : (lioPutLine (xferSend (freads link'.chan.kind.chunk plan content)
                  link'.chan).2 (ascii "D 0")).1 = true
              · rw [if_pos hlast] at hzero ⊢
                cases hget : lioGetLine lineMax link'.inp with
                | mk result inp =>
                    rw [hget] at hzero
                    cases result with
                    | eio => simp at hzero
                    | elong => simp at hzero
                    | ok got =>
                        dsimp only at hzero ⊢
                        obtain ⟨t', hpending', -, hline⟩ := lioGetLine_split hget
                        have hbytes := xferSend_ok hall
                        have hend := lioPutLine_ok hlast
                        rw [hbytes, hsent] at hend
                        refine ⟨?_, t, t', inp.pending, ?_, hlf, hreply, ?_⟩
                        · apply sentBetween_of_append
                          rw [hend, hkind]
                          simp [putStream]
                        · rw [hpending, hpending']
                        · rw [← hline]
                          by_contra hnot
                          simp [hnot] at hzero
              · rw [if_neg hlast] at hzero
                simp at hzero
            · rw [if_neg hall] at hzero
              simp at hzero
          · simp [hok] at hzero

/-- `xfer_get` has read OK and a whole upload, and the file holds its content. -/
theorem xferGet_zero
    {frameMax : ℕ} {link : Link} {rpath : Bytes} {file : LocalFile}
    (hzero : (xferGet frameMax link rpath file).1 = 0) :
    sentBetween link.chan (xferGet frameMax link rpath file).2.1.chan =
        getLine rpath ++ [lf] ∧
      ∃ t s content rest, link.inp.pending = t ++ lf :: (s ++ rest) ∧ lf ∉ t ∧
        rawLine t = ascii "OK" ∧ Upload s content ∧
        (xferGet frameMax link rpath file).2.2 = some content := by
  unfold xferGet at hzero ⊢
  dsimp only at hzero ⊢
  cases hcmd : rcCmd link (getLine rpath) with
  | mk reply link' =>
      rw [hcmd] at hzero
      cases reply with
      | none => simp at hzero
      | some reply =>
          obtain ⟨hsent, -, t, hpending, hlf, hreply⟩ := rcCmd_ok hcmd
          dsimp only at hzero ⊢
          by_cases hok : reply = ascii "OK"
          · subst hok
            simp only [ne_eq, not_true_eq_false, if_false] at hzero ⊢
            by_cases hcreate : file.create = true
            · rw [if_pos hcreate] at hzero ⊢
              dsimp only at hzero ⊢
              cases hloop : getLoop frameMax (link'.inp.pending.length + 1)
                  ⟨link'.inp, file.fwrite, []⟩ with
              | mk done g =>
                  rw [hloop] at hzero
                  cases done with
                  | false => simp at hzero
                  | true =>
                      obtain ⟨s, content, hs, hup, hsaved⟩ := getLoop_upload hloop
                      refine ⟨sentBetween_of_append hsent, t, s, content, g.inp.pending, ?_,
                        hlf, hreply, hup, ?_⟩
                      · rw [hpending, ← hs]
                      · simpa using hsaved
            · rw [if_neg hcreate] at hzero
              simp at hzero
          · simp [hok] at hzero

/-! ## Refusals -/

/-- A part of the line OK, then nothing, or an error or a greeting. -/
def Denied (x : Bytes) : Prop :=
  ∃ part y, part <+: ascii "OK" ++ [lf] ∧ x = part ++ y ∧
    ∀ b ∈ y.head?, b = 69 ∨ b = 71

/-- A line that begins in `part` goes on into the bytes behind it. -/
theorem line_over
    {part y t rest : Bytes} (hpart : lf ∉ part) (hy : ∀ b ∈ y.head?, b ≠ lf)
    (hpre : t ++ lf :: rest <+: part ++ y) :
    ∃ b t', b ∈ y.head? ∧ t = part ++ b :: t' := by
  induction part generalizing t with
  | nil =>
      rw [List.nil_append] at hpre
      cases y with
      | nil => simp at hpre
      | cons b y =>
          cases t with
          | nil =>
              have hlf := (List.cons_prefix_cons.mp hpre).1
              exact absurd hlf.symm (hy b rfl)
          | cons a t =>
              have hab := (List.cons_prefix_cons.mp hpre).1
              exact ⟨b, t, rfl, by rw [hab, List.nil_append]⟩
  | cons a part ih =>
      cases t with
      | nil =>
          have hlf := (List.cons_prefix_cons.mp hpre).1
          exact absurd (by simp [hlf]) hpart
      | cons a' t =>
          obtain ⟨rfl, hrest⟩ := List.cons_prefix_cons.mp hpre
          obtain ⟨b, t', hb, rfl⟩ := ih (fun h => hpart (by simp [h])) hrest
          exact ⟨b, t', hb, rfl⟩

/-- Behind a line OK that is heard of such bytes there is no other such line
and no frame. -/
theorem Denied.next
    {x t rest : Bytes} (hx : Denied x) (hpre : t ++ lf :: rest <+: x) (hlf : lf ∉ t)
    (hok : rawLine t = ascii "OK") : ∀ b ∈ rest.head?, b = 69 ∨ b = 71 := by
  obtain ⟨part, y, hpart, rfl, hy⟩ := hx
  have hbyte : ∀ b ∈ y.head?, b ≠ cr ∧ b ≠ nul ∧ b ≠ lf ∧ b ≠ 79 ∧ b ≠ 75 := by
    intro b hb
    rcases hy b hb with rfl | rfl <;> decide
  have hword : ascii "OK" ++ [lf] = [79, 75, lf] := rfl
  have hends : ascii "OK" = [79, 75] := rfl
  -- a part without the LF would be followed by the next byte in the same line
  have hshort : part ∈ [([] : Bytes), [79], [79, 75]] → False := by
    intro hmem
    have hclean : lf ∉ part := by
      simp only [List.mem_cons, List.not_mem_nil, or_false] at hmem
      rcases hmem with rfl | rfl | rfl <;> decide
    obtain ⟨b, t', hb, rfl⟩ := line_over hclean (fun b hb => (hbyte b hb).2.2.1) hpre
    obtain ⟨hcr, hnul, -, h79, h75⟩ := hbyte b hb
    rw [hends] at hok
    simp only [List.mem_cons, List.not_mem_nil, or_false] at hmem
    rcases hmem with rfl | rfl | rfl
    · rw [List.nil_append, rawLine_cons hcr hnul] at hok
      exact h79 (List.cons.inj hok).1
    · rw [List.cons_append, List.nil_append, rawLine_cons (by decide) (by decide),
        rawLine_cons hcr hnul] at hok
      exact h75 (List.cons.inj (List.cons.inj hok).2).1
    · rw [List.cons_append, List.cons_append, List.nil_append,
        rawLine_cons (by decide) (by decide), rawLine_cons (by decide) (by decide),
        rawLine_cons hcr hnul] at hok
      simp at hok
  rw [hword] at hpart
  rcases part with _ | ⟨a, _ | ⟨b, _ | ⟨c, part⟩⟩⟩
  · exact (hshort (by simp)).elim
  · have ha := (List.cons_prefix_cons.mp hpart).1
    exact (hshort (by simp [ha])).elim
  · obtain ⟨ha, htail⟩ := List.cons_prefix_cons.mp hpart
    have hb := (List.cons_prefix_cons.mp htail).1
    exact (hshort (by simp [ha, hb])).elim
  · obtain ⟨rfl, htail⟩ := List.cons_prefix_cons.mp hpart
    obtain ⟨rfl, hlast⟩ := List.cons_prefix_cons.mp htail
    obtain ⟨rfl, hnil⟩ := List.cons_prefix_cons.mp hlast
    rw [List.prefix_nil] at hnil
    subst hnil
    have hsplit : [79, 75, lf] ++ y = [79, 75] ++ lf :: y := rfl
    rw [hsplit] at hpre
    obtain ⟨-, hrest⟩ := line_unique hlf (by decide) hpre
    intro b hb
    apply hy b
    cases rest with
    | nil => simp at hb
    | cons b' rest =>
        obtain ⟨tail, htail⟩ := hrest
        rw [← htail]
        exact hb

theorem rawLine_head
    {b : Byte} (hb : b = 69 ∨ b = 71) (t : Bytes) : rawLine (b :: t) = b :: rawLine t := by
  rcases hb with rfl | rfl <;> exact rawLine_cons (by decide) (by decide) t

theorem Denied.put
    {x t t' rest : Bytes} (hx : Denied x) (hpre : t ++ lf :: (t' ++ lf :: rest) <+: x)
    (hlf : lf ∉ t) (hok : rawLine t = ascii "OK") :
    gcdsStarts (rawLine t') (ascii "OK") = false := by
  have hnext := hx.next hpre hlf hok
  cases t' with
  | nil => rfl
  | cons b t' =>
      have hb := hnext b rfl
      rw [rawLine_head hb]
      rcases hb with rfl | rfl <;> rfl

theorem Denied.get
    {x t s content rest : Bytes} (hx : Denied x) (hpre : t ++ lf :: (s ++ rest) <+: x)
    (hlf : lf ∉ t) (hok : rawLine t = ascii "OK") : ¬ Upload s content := by
  have hnext := hx.next hpre hlf hok
  -- the first line of an upload begins with D
  have hline : ∀ line num tail, s = line ++ lf :: tail → rawLine line ≠ 68 :: sp :: num := by
    intro line num tail hs hraw
    cases line with
    | nil => simp [rawLine] at hraw
    | cons b line =>
        have hb := hnext b (by rw [hs]; rfl)
        rw [rawLine_head hb] at hraw
        have h68 := (List.cons.inj hraw).1
        rcases hb with rfl | rfl <;> exact absurd h68 (by decide)
  rintro ⟨fs, last, num, -, htag, -, hs, -⟩
  cases fs with
  | nil => exact hline last num [] (by simpa using hs) htag
  | cons f fs =>
      obtain ⟨num', hnum, -⟩ := f.tag
      refine hline f.head num' (f.data ++ (fs.flatMap DFrame.encode ++ (last ++ [lf]))) ?_ hnum
      rw [hs]
      simp [DFrame.encode]

end GrandCross
