import GrandCross.IxClient
import GrandCross.RuniStdin
import GrandCross.ReplyGrammar

/-!
# From the keyboard to the command

The frames of `ix_client` end by themselves, so the daemon takes them apart as
they were sent.  What it writes to the stdin of the command is then a part of
what has been typed, and never anything typed behind an interrupt.
-/

namespace GrandCross

open CText
open Transfer
open Codes

/-! ## Frames in the byte stream -/

theorem ClientFrame.head_terminated (f : ClientFrame) :
    f.head ++ [lf] ∈ terminated lf := ⟨f.head, f.head_clean.1, rfl⟩

theorem ClientFrame.body_of_head
    {f g : ClientFrame} (h : f.head = g.head) : f.body.length = g.body.length := by
  cases f with
  | kill =>
      cases g with
      | kill => rfl
      | input data => simp [head, hdrText, ascii] at h
  | input data =>
      cases g with
      | kill => simp [head, hdrText, ascii] at h
      | input data' =>
          simp only [head, hdrText, List.cons.injEq, true_and] at h
          exact decimal_injective h

theorem ClientFrame.eq_of_parts
    {f g : ClientFrame} (hhead : f.head = g.head) (hbody : f.body = g.body) : f = g := by
  cases f with
  | kill =>
      cases g with
      | kill => rfl
      | input data => simp [head, hdrText, ascii] at hhead
  | input data =>
      cases g with
      | kill => simp [head, hdrText, ascii] at hhead
      | input data' => exact congrArg _ hbody

theorem ClientFrame.encode_parts
    {f g : ClientFrame} {s t : Bytes} (h : f.encode ++ s = g.encode ++ t) : f = g := by
  have hparts : f.head ++ [lf] ++ (f.body ++ s) = g.head ++ [lf] ++ (g.body ++ t) := by
    rw [← List.append_assoc, ← List.append_assoc, ← encode_eq, ← encode_eq, h]
  obtain ⟨hline, hrest⟩ := (prefixFree_terminated lf).rest f.head_terminated
    g.head_terminated hparts
  have hhead : f.head = g.head := List.append_cancel_right hline
  exact eq_of_parts hhead (List.append_inj_left hrest (body_of_head hhead))

theorem clientFrames_prefix
    {fs gs : List ClientFrame}
    (h : fs.flatMap ClientFrame.encode <+: gs.flatMap ClientFrame.encode) : fs <+: gs := by
  have hfree : PrefixFree (Set.range ClientFrame.encode) := by
    intro u v s t hu hv heq
    obtain ⟨f, rfl⟩ := hu
    obtain ⟨g, rfl⟩ := hv
    rw [ClientFrame.encode_parts heq]
  have hinj : Function.Injective ClientFrame.encode := fun f g heq =>
    ClientFrame.encode_parts (s := []) (t := []) (by rw [heq])
  refine hfree.flatMap_prefix hinj (fun f hnil => ?_) h
  rw [ClientFrame.encode_eq] at hnil
  simp at hnil

/-! ## What is typed -/

theorem takeWhile_of_prefix
    {α : Type*} (p : α → Bool) {l l' : List α} (h : l <+: l') :
    l.takeWhile p <+: l'.takeWhile p := by
  obtain ⟨t, rfl⟩ := h
  rw [List.takeWhile_append]
  split_ifs with hall
  · rw [(List.takeWhile_prefix p).eq_of_length hall]
    exact List.prefix_append _ _
  · exact List.prefix_refl _

def StdinRead.bytes : StdinRead → Bytes
  | .ended => []
  | .data bytes _ _ => bytes

/-- What is typed before the first interrupt and the first end. -/
def typedBytes (turns : List IxTurn) : Bytes :=
  (stdinReads (turns.takeWhile IxTurn.quiet)).flatMap StdinRead.bytes

/-- A frame that the daemon delivers. -/
def ClientFrame.carries (f : ClientFrame) : Bool := !f.stops

theorem stdinReads_append (turns turns' : List IxTurn) :
    stdinReads turns <+: stdinReads (turns ++ turns') := by
  unfold stdinReads
  rw [List.flatMap_append, upToEnd_append]
  exact List.prefix_append _ _

theorem typedBytes_append (turns turns' : List IxTurn) :
    typedBytes turns <+: typedBytes (turns ++ turns') := by
  have hquiet := takeWhile_of_prefix IxTurn.quiet (List.prefix_append turns turns')
  obtain ⟨more, hmore⟩ := hquiet
  obtain ⟨reads, hreads⟩ := stdinReads_append (turns.takeWhile IxTurn.quiet) more
  unfold typedBytes
  rw [← hmore, ← hreads, List.flatMap_append]
  exact List.prefix_append _ _

/-- Reads up to the first end: all of them but the end are delivered. -/
theorem carried_reads (rs : List StdinRead) :
    (((upToEnd rs).map StdinRead.frame).takeWhile ClientFrame.carries).flatMap ClientFrame.body =
      (upToEnd rs).flatMap StdinRead.bytes := by
  induction rs with
  | nil => rfl
  | cons r rs ih =>
      cases r with
      | ended => rfl
      | data bytes hne hfits =>
          have hcarries : (ClientFrame.input bytes).carries = true := by
            simpa [ClientFrame.carries, ClientFrame.stops] using hne
          simp only [upToEnd, StdinRead.isEnd, Bool.false_eq_true, if_false, List.map_cons,
            StdinRead.frame, List.takeWhile_cons, hcarries, if_true, List.flatMap_cons, ih]
          rfl

theorem carried_typedFrames (turns : List IxTurn) :
    ((typedFrames turns).takeWhile ClientFrame.carries).flatMap ClientFrame.body =
      typedBytes turns := by
  unfold typedFrames typedBytes
  dsimp only
  cases hint : interrupted turns with
  | false =>
      have hall : turns.takeWhile IxTurn.quiet = turns := by
        rw [List.takeWhile_eq_self_iff]
        intro t ht
        have hnone := List.any_eq_false.mp hint t ht
        simp only [IxTurn.quiet, Bool.not_eq_true', Bool.not_eq_true] at hnone ⊢
        exact hnone
      rw [hall, if_neg Bool.false_ne_true]
      exact carried_reads _
  | true =>
      obtain ⟨later, hlater⟩ := stdinReads_append (turns.takeWhile IxTurn.quiet)
        (turns.dropWhile IxTurn.quiet)
      rw [List.takeWhile_append_dropWhile] at hlater
      have hearly : ((stdinReads turns).map StdinRead.frame).take
          (stdinReads (turns.takeWhile IxTurn.quiet)).length =
            (stdinReads (turns.takeWhile IxTurn.quiet)).map StdinRead.frame := by
        rw [← List.map_take, ← hlater, List.take_left]
      rw [if_pos rfl, hearly, List.takeWhile_append]
      have hkill : ClientFrame.kill.carries = false := rfl
      split_ifs with hall
      · have hself := (List.takeWhile_prefix ClientFrame.carries).eq_of_length hall
        rw [List.takeWhile_cons_of_neg (by rw [hkill]; exact Bool.false_ne_true),
          List.append_nil]
        conv_lhs => rw [← hself]
        exact carried_reads _
      · exact carried_reads _

/-! ## Both ends -/

theorem runiFrames_front (cfg : Cfg) (d : Daemon) (turns : List Turn) :
    (runiFrames cfg d turns).map Taken.frame <+: turns.filterMap Turn.frame := by
  induction turns generalizing d with
  | nil => exact List.nil_prefix
  | cons t turns ih =>
      unfold runiFrames
      split
      · rename_i hnone hlive
        rw [List.filterMap_cons_none hnone]
        exact ih _
      · rename_i f _ _ _ hsome hlive
        rw [List.filterMap_cons_some hsome, List.map_cons]
        exact List.cons_prefix_cons.mpr ⟨rfl, ih _⟩
      · exact List.nil_prefix

theorem payloads_prefix (taken : List Taken) :
    (payloads taken).flatten <+:
      ((taken.map Taken.frame).takeWhile ClientFrame.carries).flatMap ClientFrame.body := by
  rw [List.takeWhile_map, List.flatMap_map, payloads, ← List.flatMap_def]
  have hboth : taken.takeWhile (fun h => !(h.capped || h.frame.stops)) =
      (taken.takeWhile (ClientFrame.carries ∘ Taken.frame)).takeWhile
        fun h => !h.capped := by
    rw [List.takeWhile_takeWhile]
    congr 1
    funext h
    simp [ClientFrame.carries]
  obtain ⟨more, hmore⟩ := List.takeWhile_prefix (fun h : Taken => !h.capped)
    (l := taken.takeWhile (ClientFrame.carries ∘ Taken.frame))
  rw [hboth]
  conv_rhs => rw [← hmore, List.flatMap_append]
  exact List.prefix_append _ _

theorem payloads_uncapped {taken : List Taken} (h : ∀ t ∈ taken, t.capped = false) :
    (payloads taken).flatten =
      ((taken.map Taken.frame).takeWhile ClientFrame.carries).flatMap ClientFrame.body := by
  rw [List.takeWhile_map, List.flatMap_map, payloads, ← List.flatMap_def]
  congr 1
  induction taken with
  | nil => rfl
  | cons t taken ih =>
      have hrest := ih fun u hu => h u (List.mem_cons_of_mem t hu)
      rw [List.takeWhile_cons, List.takeWhile_cons, hrest, h t List.mem_cons_self]
      rfl

theorem writeMany_prefix (s : Sink) (bufs : List Bytes) :
    (s.writeMany bufs).2.taken <+: s.taken ++ bufs.flatten := by
  cases hok : (s.writeMany bufs).1 with
  | true => rw [Sink.writeMany_ok hok]
  | false =>
      obtain ⟨before, buf, after, done, rest, hbufs, hbuf, -, hend⟩ := Sink.writeMany_failed hok
      rw [hend, hbufs, hbuf, List.prefix_append_right_inj]
      exact ⟨rest ++ after.flatten, by simp⟩

theorem writeMany_steady {s : Sink} (hs : s.Steady) (bufs : List Bytes) :
    (s.writeMany bufs).1 = true := by
  induction bufs generalizing s with
  | nil => rfl
  | cons buf bufs ih =>
      obtain ⟨hok, -, hsteady⟩ := Sink.writeAll_steady hs buf
      rw [Sink.writeMany, if_pos hok]
      exact ih hsteady

/-- A command that is served frames the user has typed. -/
theorem typed_frames
    {cfg : Cfg} {d : Daemon} {env : List EnvEntry} {jobid : ℕ} {child : Child}
    (hctl : d.ctl = .live (Live.start .runi env jobid child)) (hquiet : d.job.pending = false)
    {turns : List Turn} {played : List IxTurn}
    (hframes : turns.filterMap Turn.frame <+: typedFrames played) :
    let taken := runiFrames cfg d turns
    let written := taken.flatMap (Taken.writes cfg)
    written <+: typedBytes played ∧
      (taken.map Taken.frame = typedFrames played → (∀ h ∈ taken, h.capped = false) →
        none ∉ child.stdin → written = typedBytes played) := by
  intro taken written
  have hclient := typedFrames_fromClient played
  have hturns : ∀ t ∈ turns, ∀ f ∈ t.frame, f.Ok cfg := by
    intro t ht f hf
    have hmem : f ∈ turns.filterMap Turn.frame := List.mem_filterMap.mpr ⟨t, ht, hf⟩
    exact ClientFrame.fromClient_ok (hclient f (hframes.subset hmem))
  have hfeeds : (Live.start .runi env jobid child).Feeds ⟨child.stdin, []⟩ := .inl ⟨rfl, rfl⟩
  have hwritten : written = ((⟨child.stdin, []⟩ : Sink).writeMany (payloads taken)).2.taken :=
    runi_writes hturns hctl hquiet rfl hfeeds
  have htaken : taken.map Taken.frame <+: typedFrames played :=
    (runiFrames_front cfg _ turns).trans hframes
  constructor
  · obtain ⟨more, hmore⟩ := takeWhile_of_prefix ClientFrame.carries htaken
    calc written <+: (payloads taken).flatten := by
          rw [hwritten]
          exact writeMany_prefix _ _
      _ <+: ((taken.map Taken.frame).takeWhile ClientFrame.carries).flatMap
          ClientFrame.body := payloads_prefix taken
      _ <+: ((typedFrames played).takeWhile ClientFrame.carries).flatMap
          ClientFrame.body := by
          rw [← hmore, List.flatMap_append]
          exact List.prefix_append _ _
      _ <+: typedBytes played := by rw [carried_typedFrames]
  · intro hall huncapped hpipe
    have hok := writeMany_steady (s := ⟨child.stdin, []⟩) hpipe (payloads taken)
    rw [hwritten, Sink.writeMany_ok hok, List.nil_append,
      payloads_uncapped huncapped, hall, carried_typedFrames]

/-- However the daemon serves the session, the command is given a part of what
has been typed before the first interrupt and the first end; it is given all of
that when everything sent is read, the pipe does not fail and the output is not
capped. -/
theorem typed_reaches_stdin
    {c : Chan} (hc : c.Steady) {rc : Rc} (hrc : rc.Steady) {fs : List Frame} {code : ℕ}
    {later : Bytes} (hpending : rc.inp.pending = encodeStream fs code ++ later)
    (cmd : Bytes) (locals : List IxTurn)
    (cfg : Cfg) (plan : List (Option ℕ)) (cwd : Bytes) (files : Bytes → Option Bytes)
    (evs : List Ev) {env : List EnvEntry} {jobid : ℕ} {child : Child}
    (hctl : (run cfg (Daemon.init cfg plan cwd files) evs).ctl =
      .live (Live.start .runi env jobid child))
    (turns : List Turn)
    (hfifo : c.sent ++ (requestLine (ascii "RUNI ") cmd ++ [lf]) ++
        (turns.filterMap Turn.frame).flatMap ClientFrame.encode <+:
      (ixClient c rc cmd locals).2.chan.sent) :
    let taken := runiFrames cfg (run cfg (Daemon.init cfg plan cwd files) evs) turns
    let written := taken.flatMap (Taken.writes cfg)
    written <+: typedBytes locals ∧
      ∃ played unplayed, locals = played ++ unplayed ∧
        (ixClient c rc cmd locals).2.chan.sent =
          c.sent ++ (requestLine (ascii "RUNI ") cmd ++ [lf]) ++
            (typedFrames played).flatMap ClientFrame.encode ∧
        (taken.map Taken.frame = typedFrames played → (∀ h ∈ taken, h.capped = false) →
          none ∉ child.stdin → written = typedBytes played) := by
  intro taken written
  obtain ⟨st, hstart, hloop⟩ := ixClient_start hc hrc hpending cmd
  obtain ⟨played, unplayed, hsplit, hend⟩ := hstart.loop locals
  rw [hloop] at hfifo ⊢
  have hsent := hend.sent
  rw [List.nil_append] at hsent
  rw [hsent, List.prefix_append_right_inj] at hfifo
  have hquiet := (inv_reachable cfg plan cwd files evs).inside.pending
  have hframes := clientFrames_prefix hfifo
  obtain ⟨hpart, hall⟩ := typed_frames hctl hquiet hframes
  refine ⟨hpart.trans ?_, played, unplayed, hsplit, hsent, hall⟩
  rw [hsplit]
  exact typedBytes_append played unplayed

/-- The byte and the interrupt behind it have reached the daemon. -/
def impatientTurns : List Turn :=
  [frameTurn none (.input (ascii "a")), frameTurn none .kill]

theorem typed_reaches_stdin_interrupted :
    (runiFrames stdinCfg (run stdinCfg (Daemon.init stdinCfg [] [] fun _ => none) (stdinEvs []))
      impatientTurns).flatMap (Taken.writes stdinCfg) <+: typedBytes impatient := by
  have hc : Chan.Steady ⟨.tcp, ⟨[], []⟩⟩ := by decide
  have hrc : ixSession.Steady := ⟨by decide, by decide, by decide⟩
  have hpending : ixSession.inp.pending = encodeStream lastWords 3 ++ [] :=
    (List.append_nil _).symm
  have hctl : (run stdinCfg (Daemon.init stdinCfg [] [] fun _ => none) (stdinEvs [])).ctl =
      .live (Live.start .runi [] 0 (stdinChild [])) := by
    decide +kernel
  have hfifo : [] ++ (requestLine (ascii "RUNI ") (ascii "c") ++ [lf]) ++
      (impatientTurns.filterMap Turn.frame).flatMap ClientFrame.encode <+:
        (ixClient ⟨.tcp, ⟨[], []⟩⟩ ixSession (ascii "c") impatient).2.chan.sent := by
    decide +kernel
  exact (typed_reaches_stdin hc hrc hpending (ascii "c") impatient stdinCfg [] []
    (fun _ => none) (stdinEvs []) hctl impatientTurns hfifo).1

end GrandCross
