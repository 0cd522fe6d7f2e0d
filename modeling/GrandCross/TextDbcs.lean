import GrandCross.HoldBack
import GrandCross.TextConv

/-!
# Text conversion on Windows

`common/textcv.c` converts the output of a command from the codepage of the
console.  `MultiByteToWideChar` and `WideCharToMultiByte` belong to the
system; what the code does between them is to find the characters.  A lead
byte takes the byte behind it whatever that is, so only a scan from the start
of the stream knows where a character ends.
-/

namespace GrandCross.Win32

open CText

/-- The system's part: `IsDBCSLeadByteEx` for the codepage `g_cp`, and the two
conversions into a buffer of the given size.  No result stands for 0. -/
structure Codepage where
  isLead : Byte → Bool
  toWide : Bytes → ℕ → List UInt16
  toMulti : List UInt16 → ℕ → Bytes

def wbufMax : ℕ := 4096

/-! ## The code -/

/-- `dbcs_complete`: `i` is in front of the next character and `last` behind
the last whole one. -/
def dbcsScan (isLead : Byte → Bool) (buf : Bytes) : ℕ → ℕ → ℕ → ℕ
  | 0, _, last => last
  | fuel + 1, i, last =>
      match buf[i]? with
      | none => last
      | some b =>
          if isLead b then
            if buf.length ≤ i + 1 then last
            else dbcsScan isLead buf fuel (i + 2) (i + 2)
          else dbcsScan isLead buf fuel (i + 1) (i + 1)

def dbcsComplete (isLead : Byte → Bool) (buf : Bytes) : ℕ :=
  dbcsScan isLead buf buf.length 0 0

/-- The codepage to UTF-8, through `g_wbuf`. -/
def Codepage.convert (cp : Codepage) (src : Bytes) (omax : ℕ) : Option Bytes :=
  let wide := cp.toWide src wbufMax
  if wide = [] then none
  else
    let out := cp.toMulti wide omax
    if out = [] then none else some out

/-- What `txt_out` passes to the system, what it writes, and the stream
after it. -/
structure Converted where
  passed : List Bytes
  result : Option Bytes
  after : TxtStream

def txtOut (cp : Codepage) (s : TxtStream) (input : Bytes) (omax : ℕ) : Converted :=
  let src := splice s input
  let take := dbcsComplete cp.isLead src
  if take = 0 then ⟨[], some [], hold (src.drop take)⟩
  else ⟨[src.take take], cp.convert (src.take take) omax, hold (src.drop take)⟩

/-- A failed conversion of what is held writes nothing. -/
def txtFlush (cp : Codepage) (s : TxtStream) (omax : ℕ) : Bytes × TxtStream :=
  if s.pend = [] then ([], s)
  else ((cp.convert s.pend omax).getD [], TxtStream.init)

structure Run where
  passed : List Bytes
  results : List (Option Bytes)
  last : TxtStream

def txtRun (cp : Codepage) (omax : ℕ) : TxtStream → List Bytes → Run
  | s, [] => ⟨[], [], s⟩
  | s, c :: cs =>
      let t := txtOut cp s c omax
      let rest := txtRun cp omax t.after cs
      ⟨t.passed ++ rest.passed, t.result :: rest.results, rest.last⟩

/-! ## The characters of a stream -/

/-- The whole characters from the left, and the lead byte behind them that
has no trail byte. -/
def characters (isLead : Byte → Bool) : Bytes → List Bytes × Bytes
  | [] => ([], [])
  | [b] => if isLead b then ([], [b]) else ([[b]], [])
  | b :: c :: rest =>
      if isLead b then
        ([b, c] :: (characters isLead rest).1, (characters isLead rest).2)
      else
        ([b] :: (characters isLead (c :: rest)).1, (characters isLead (c :: rest)).2)

def Whole (isLead : Byte → Bool) (x : Bytes) : Prop :=
  (characters isLead x).2 = []

variable {isLead : Byte → Bool}

theorem characters_cons {b : Byte} (hb : isLead b = false) (x : Bytes) :
    characters isLead (b :: x) =
      ([b] :: (characters isLead x).1, (characters isLead x).2) := by
  cases x with
  | nil => simp [characters, hb]
  | cons c x => simp [characters, hb]

theorem characters_lead {b : Byte} (hb : isLead b = true) (c : Byte) (x : Bytes) :
    characters isLead (b :: c :: x) =
      ([b, c] :: (characters isLead x).1, (characters isLead x).2) := by
  simp [characters, hb]

variable (isLead)

theorem characters_flatten (x : Bytes) :
    (characters isLead x).1.flatten ++ (characters isLead x).2 = x := by
  induction x using characters.induct isLead with
  | case1 => rfl
  | case2 b hb => simp [characters, hb]
  | case3 b hb => simp [characters, hb]
  | case4 b c rest hb ih =>
      rw [characters_lead hb]
      simpa using ih
  | case5 b c rest hb ih =>
      rw [characters_cons (by simpa using hb)]
      simpa using ih

/-- At most one byte is left over, and it is a lead byte. -/
theorem characters_rest (x : Bytes) :
    (characters isLead x).2 = [] ∨
      ∃ b, isLead b = true ∧ (characters isLead x).2 = [b] := by
  induction x using characters.induct isLead with
  | case1 => exact Or.inl rfl
  | case2 b hb => exact Or.inr ⟨b, hb, by simp [characters, hb]⟩
  | case3 b hb => exact Or.inl (by simp [characters, hb])
  | case4 b c rest hb ih => rwa [characters_lead hb]
  | case5 b c rest hb ih => rwa [characters_cons (by simpa using hb)]

/-- The scan goes on from the byte that is left over. -/
theorem characters_append (x y : Bytes) :
    characters isLead (x ++ y) =
      ((characters isLead x).1 ++
          (characters isLead ((characters isLead x).2 ++ y)).1,
        (characters isLead ((characters isLead x).2 ++ y)).2) := by
  induction x using characters.induct isLead with
  | case1 => rfl
  | case2 b hb => simp [characters, hb]
  | case3 b hb =>
      rw [List.singleton_append, characters_cons (by simpa using hb)]
      simp [characters, hb]
  | case4 b c rest hb ih =>
      rw [List.cons_append, List.cons_append, characters_lead hb, characters_lead hb, ih]
      rfl
  | case5 b c rest hb ih =>
      have hb' : isLead b = false := by simpa using hb
      rw [List.cons_append, characters_cons hb', characters_cons hb', ih]
      rfl

/-- The whole characters of a stream are all there is in front of the rest. -/
theorem characters_whole (x : Bytes) :
    characters isLead (characters isLead x).1.flatten = ((characters isLead x).1, []) := by
  induction x using characters.induct isLead with
  | case1 => rfl
  | case2 b hb => simp [characters, hb]
  | case3 b hb => simp [characters, hb]
  | case4 b c rest hb ih =>
      rw [characters_lead hb]
      simp only [List.flatten_cons, List.cons_append, List.nil_append]
      rw [characters_lead hb, ih]
  | case5 b c rest hb ih =>
      have hb' : isLead b = false := by simpa using hb
      rw [characters_cons hb']
      simp only [List.flatten_cons, List.cons_append, List.nil_append]
      rw [characters_cons hb', ih]

/-! ## What is found complete -/

theorem dbcsScan_eq
    (fuel : ℕ) (before rest : Bytes) (hfuel : rest.length ≤ fuel) :
    dbcsScan isLead (before ++ rest) fuel before.length before.length =
      before.length + (characters isLead rest).1.flatten.length := by
  induction fuel generalizing before rest with
  | zero =>
      have hrest : rest = [] := List.length_eq_zero_iff.mp (by omega)
      simp [hrest, dbcsScan, characters]
  | succ fuel ih =>
      cases rest with
      | nil => simp [dbcsScan, characters]
      | cons b rest =>
          have hget : (before ++ b :: rest)[before.length]? = some b := by simp
          rw [List.length_cons] at hfuel
          rw [dbcsScan, hget]
          cases hb : isLead b with
          | false =>
              have hnext := ih (before ++ [b]) rest (by omega)
              rw [List.length_append, List.length_singleton, List.append_assoc,
                List.singleton_append] at hnext
              rw [characters_cons hb]
              simp only [hb, Bool.false_eq_true, if_false, hnext]
              simp only [List.flatten_cons, List.length_append, List.length_singleton]
              omega
          | true =>
              cases rest with
              | nil => simp [hb, characters]
              | cons c rest =>
                  have hnext := ih (before ++ [b, c]) rest
                    (by rw [List.length_cons] at hfuel; omega)
                  rw [List.length_append, List.append_assoc] at hnext
                  simp only [List.length_cons, List.length_nil, List.cons_append,
                    List.nil_append, zero_add, one_add_one_eq_two] at hnext
                  rw [characters_lead hb]
                  simp only [hb, if_true, hnext]
                  rw [if_neg (by simp)]
                  simp only [List.flatten_cons, List.length_append, List.length_cons,
                    List.length_nil]
                  omega

theorem dbcsComplete_eq (buf : Bytes) :
    dbcsComplete isLead buf = (characters isLead buf).1.flatten.length := by
  have hscan := dbcsScan_eq isLead buf.length [] buf le_rfl
  rw [List.nil_append, List.length_nil, Nat.zero_add] at hscan
  exact hscan

theorem take_complete (buf : Bytes) :
    buf.take (dbcsComplete isLead buf) = (characters isLead buf).1.flatten := by
  rw [dbcsComplete_eq]
  nth_rewrite 2 [← characters_flatten isLead buf]
  exact List.take_left

theorem drop_complete (buf : Bytes) :
    buf.drop (dbcsComplete isLead buf) = (characters isLead buf).2 := by
  rw [dbcsComplete_eq]
  nth_rewrite 2 [← characters_flatten isLead buf]
  exact List.drop_left

theorem characters_left (x : Bytes) :
    characters isLead (characters isLead x).2 = ([], (characters isLead x).2) := by
  rcases characters_rest isLead x with hnil | ⟨b, hb, hone⟩
  · rw [hnil]
    rfl
  · rw [hone]
    simp [characters, hb]

theorem characters_left_length (x : Bytes) : (characters isLead x).2.length ≤ 1 := by
  rcases characters_rest isLead x with hnil | ⟨b, -, hone⟩
  · simp [hnil]
  · simp [hone]

/-! ## Chunks -/

variable {isLead} {cp : Codepage} {omax : ℕ}

theorem splice_short
    {s : TxtStream} {input : Bytes} (hheld : s.pend ≠ [])
    (hlong : joinMax ≤ input.length) :
    (splice s input).length < (s.pend ++ input).length := by
  have hfits := s.fits
  have hpos := List.length_pos_of_ne_nil hheld
  unfold splice
  rw [if_neg hheld, List.length_append, List.length_append, List.length_take]
  unfold pendMax joinMax at *
  omega

variable (cp omax)

theorem txtOut_after (s : TxtStream) (input : Bytes) :
    (txtOut cp s input omax).after.pend = (characters cp.isLead (splice s input)).2 := by
  have hheld : (txtOut cp s input omax).after =
      hold ((splice s input).drop (dbcsComplete cp.isLead (splice s input))) := by
    simp only [txtOut]
    split_ifs <;> rfl
  have hone := characters_left_length cp.isLead (splice s input)
  rw [hheld, drop_complete]
  exact List.take_of_length_le (hone.trans (by decide))

/-- One call passes the whole characters there are, if any. -/
theorem txtOut_passed (s : TxtStream) (input : Bytes) :
    ∃ groups : List (List Bytes),
      (txtOut cp s input omax).passed = groups.map List.flatten ∧
        groups.flatten = (characters cp.isLead (splice s input)).1 := by
  simp only [txtOut]
  split_ifs with hnone
  · refine ⟨[], rfl, ?_⟩
    rw [dbcsComplete_eq, List.length_eq_zero_iff] at hnone
    have hwhole := characters_whole cp.isLead (splice s input)
    rw [hnone] at hwhole
    exact congrArg Prod.fst hwhole
  · refine ⟨[(characters cp.isLead (splice s input)).1], ?_, ?_⟩
    · rw [take_complete]
      rfl
    · simp

/-- One call passes on or keeps all that `splice` gives it. -/
theorem txtOut_splice (s : TxtStream) (input : Bytes) :
    (txtOut cp s input omax).passed.flatten ++ (txtOut cp s input omax).after.pend =
      splice s input := by
  obtain ⟨groups, hpassed, hgroups⟩ := txtOut_passed cp omax s input
  rw [hpassed, txtOut_after, ← List.flatten_flatten, hgroups]
  exact characters_flatten cp.isLead (splice s input)

/-- No chunk that fills the join buffer comes while a byte is held; `held` is
what is in front of the chunks. -/
def Room (isLead : Byte → Bool) (held : Bytes) (chunks : List Bytes) : Prop :=
  ∀ done c later, chunks = done ++ c :: later →
    ¬ Whole isLead (held ++ done.flatten) → c.length < joinMax

def Held (isLead : Byte → Bool) (held : Bytes) : Prop :=
  characters isLead held = ([], held)

theorem Held.length_le {held : Bytes} (h : Held isLead held) : held.length ≤ 1 := by
  have hlen := characters_left_length isLead held
  rwa [h] at hlen

theorem held_nil : Held isLead [] := rfl

theorem Room.splice
    {s : TxtStream} {c : Bytes} {cs : List Bytes} (hroom : Room isLead s.pend (c :: cs))
    (hheld : Held isLead s.pend) : splice s c = s.pend ++ c := by
  apply splice_append
  intro hne
  have hopen : ¬ Whole isLead (s.pend ++ [].flatten) := by
    rw [List.flatten_nil, List.append_nil, Whole, hheld]
    exact hne
  have hlen := hroom [] c cs rfl hopen
  have hone := hheld.length_le
  omega

theorem Room.tail
    {held c : Bytes} {cs : List Bytes} (hroom : Room isLead held (c :: cs)) :
    Room isLead (characters isLead (held ++ c)).2 cs := by
  intro done d later hcs hopen
  refine hroom (c :: done) d later (by rw [hcs, List.cons_append]) ?_
  rwa [List.flatten_cons, ← List.append_assoc, Whole, characters_append]

/-- Behind a chunk the stream holds what is left over of both, and there is
room for the next chunks. -/
theorem Room.after
    {s : TxtStream} {c : Bytes} {cs : List Bytes} (hroom : Room cp.isLead s.pend (c :: cs))
    (hheld : Held cp.isLead s.pend) :
    (txtOut cp s c omax).after.pend = (characters cp.isLead (s.pend ++ c)).2 ∧
      Held cp.isLead (txtOut cp s c omax).after.pend ∧
      Room cp.isLead (txtOut cp s c omax).after.pend cs := by
  have hafter := txtOut_after cp omax s c
  rw [hroom.splice hheld] at hafter
  rw [hafter]
  exact ⟨rfl, characters_left cp.isLead _, hroom.tail⟩

/-- From a held byte on, the run passes the characters of what is held and of
the chunks behind it, and holds what is left over. -/
theorem txtRun_characters
    (chunks : List Bytes) (s : TxtStream) (hheld : Held cp.isLead s.pend)
    (hroom : Room cp.isLead s.pend chunks) :
    (∃ groups : List (List Bytes),
      (txtRun cp omax s chunks).passed = groups.map List.flatten ∧
        groups.flatten = (characters cp.isLead (s.pend ++ chunks.flatten)).1) ∧
      (txtRun cp omax s chunks).last.pend =
        (characters cp.isLead (s.pend ++ chunks.flatten)).2 := by
  induction chunks generalizing s with
  | nil =>
      rw [List.flatten_nil, List.append_nil, hheld]
      exact ⟨⟨[], rfl, rfl⟩, rfl⟩
  | cons c chunks ih =>
      obtain ⟨hafter, hheld', hroom'⟩ := hroom.after cp omax hheld
      obtain ⟨now, hnow, hchars⟩ := txtOut_passed cp omax s c
      rw [hroom.splice hheld] at hchars
      obtain ⟨⟨later, hlater, hrest⟩, hlast⟩ :=
        ih (txtOut cp s c omax).after hheld' hroom'
      rw [hafter] at hrest hlast
      rw [List.flatten_cons, ← List.append_assoc, characters_append, ← hchars]
      refine ⟨⟨now ++ later, ?_, ?_⟩, hlast⟩
      · simp only [txtRun, hnow, hlater, List.map_append]
      · rw [List.flatten_append, hrest]

theorem txtRun_held (chunks : List Bytes) (s : TxtStream) (hone : s.pend.length ≤ 1) :
    (txtRun cp omax s chunks).last.pend.length ≤ 1 := by
  induction chunks generalizing s with
  | nil => exact hone
  | cons c chunks ih =>
      refine ih _ ?_
      rw [txtOut_after]
      exact characters_left_length _ _

/-! ## The conversion of a stream -/

variable {cp omax}

/-- The two conversions without a limit on their buffers; where a character
ends, both may be cut. -/
structure Conversion (cp : Codepage) where
  units : Bytes → List UInt16
  utf8 : List UInt16 → Bytes
  units_append : ∀ x y, Whole cp.isLead x → units (x ++ y) = units x ++ units y
  utf8_append : ∀ x y, Whole cp.isLead x →
    utf8 (units x ++ units y) = utf8 (units x) ++ utf8 (units y)

def Conversion.text (conv : Conversion cp) (x : Bytes) : Bytes :=
  conv.utf8 (conv.units x)

structure Conversion.Succeeds (conv : Conversion cp) (omax : ℕ) (x : Bytes) : Prop where
  wide : cp.toWide x wbufMax = conv.units x
  some_units : conv.units x ≠ []
  multi : cp.toMulti (conv.units x) omax = conv.text x
  some_text : conv.text x ≠ []

variable {conv : Conversion cp}

theorem Conversion.text_append
    (conv : Conversion cp) {x : Bytes} (hwhole : Whole cp.isLead x) (y : Bytes) :
    conv.text (x ++ y) = conv.text x ++ conv.text y := by
  unfold Conversion.text
  rw [conv.units_append x y hwhole, conv.utf8_append x y hwhole]

theorem Conversion.text_nil (conv : Conversion cp) : conv.text [] = [] := by
  have hwhole : Whole cp.isLead [] := rfl
  have htwice := conv.text_append hwhole []
  rw [List.append_nil] at htwice
  exact List.self_eq_append_right.mp htwice

theorem convert_eq {x : Bytes} (hsucc : conv.Succeeds omax x) :
    cp.convert x omax = some (conv.text x) := by
  simp only [Codepage.convert]
  rw [hsucc.wide, if_neg hsucc.some_units, hsucc.multi, if_neg hsucc.some_text]

theorem text_safe (conv : Conversion cp) :
    HoldBack.SafeCut conv.text (dbcsComplete cp.isLead) := by
  intro x y
  have hwhole : Whole cp.isLead (x.take (dbcsComplete cp.isLead x)) := by
    rw [take_complete, Whole, characters_whole]
  rw [← conv.text_append hwhole, ← List.append_assoc, List.take_append_drop]

theorem txtOut_result
    (conv : Conversion cp) (s : TxtStream) (input : Bytes)
    (hsucc : ∀ x ∈ (txtOut cp s input omax).passed, conv.Succeeds omax x) :
    (txtOut cp s input omax).result =
      some (conv.text ((splice s input).take
        (dbcsComplete cp.isLead (splice s input)))) := by
  simp only [txtOut] at hsucc ⊢
  split_ifs at hsucc ⊢ with hnone
  · rw [hnone, List.take_zero, conv.text_nil]
  · exact convert_eq (hsucc _ (List.mem_singleton_self _))

theorem txtFlush_result
    {s : TxtStream} (hsucc : s.pend ≠ [] → conv.Succeeds omax s.pend) :
    (txtFlush cp s omax).1 = conv.text s.pend := by
  unfold txtFlush
  split_ifs with hnil
  · rw [hnil, conv.text_nil]
  · rw [convert_eq (hsucc hnil)]
    rfl

/-- The results of a run and its flush are those of the conversion with
hold-back. -/
theorem txtRun_results
    (conv : Conversion cp) (chunks : List Bytes) (s : TxtStream)
    (hheld : Held cp.isLead s.pend) (hroom : Room cp.isLead s.pend chunks)
    (hsucc : ∀ x ∈ (txtRun cp omax s chunks).passed, conv.Succeeds omax x)
    (hflush : (txtRun cp omax s chunks).last.pend ≠ [] →
      conv.Succeeds omax (txtRun cp omax s chunks).last.pend) :
    ∃ outs : List Bytes, (txtRun cp omax s chunks).results = outs.map some ∧
      HoldBack.feed conv.text (dbcsComplete cp.isLead) s.pend chunks =
        outs ++ [(txtFlush cp (txtRun cp omax s chunks).last omax).1] := by
  induction chunks generalizing s with
  | nil =>
      refine ⟨[], rfl, ?_⟩
      rw [List.nil_append, HoldBack.feed, txtFlush_result hflush]
      rfl
  | cons c chunks ih =>
      obtain ⟨hafter, hheld', hroom'⟩ := hroom.after cp omax hheld
      have hresult := txtOut_result conv s c
        fun x hx => hsucc x (List.mem_append_left _ hx)
      rw [hroom.splice hheld] at hresult
      obtain ⟨outs, houts, hfeed⟩ := ih (txtOut cp s c omax).after hheld' hroom'
        (fun x hx => hsucc x (List.mem_append_right _ hx)) hflush
      rw [hafter, ← drop_complete] at hfeed
      refine ⟨conv.text ((s.pend ++ c).take (dbcsComplete cp.isLead (s.pend ++ c))) :: outs,
        ?_, ?_⟩
      · simp only [txtRun, hresult, houts, List.map_cons]
      · rw [HoldBack.feed, hfeed]
        rfl

/-- Unless a chunk that fills the join buffer comes while a byte is held, the
chunks do not matter: whole characters of the stream are converted, in their
order, at most one byte is held, and with conversions that succeed and may be
cut between characters the results and the flush are the conversion of the
stream. -/
theorem dbcs_chunking
    (cp : Codepage) (omax : ℕ) (chunks : List Bytes)
    (hroom : Room cp.isLead [] chunks) :
    (∃ groups : List (List Bytes),
      (txtRun cp omax TxtStream.init chunks).passed = groups.map List.flatten ∧
        groups.flatten = (characters cp.isLead chunks.flatten).1) ∧
      (txtRun cp omax TxtStream.init chunks).passed.flatten ++
        (txtRun cp omax TxtStream.init chunks).last.pend = chunks.flatten ∧
      (∀ done later, chunks = done ++ later →
        (txtRun cp omax TxtStream.init done).last.pend.length ≤ 1) ∧
      ∀ conv : Conversion cp,
        (∀ x ∈ (txtRun cp omax TxtStream.init chunks).passed, conv.Succeeds omax x) →
        ((txtRun cp omax TxtStream.init chunks).last.pend ≠ [] →
          conv.Succeeds omax (txtRun cp omax TxtStream.init chunks).last.pend) →
        ∃ outs : List Bytes,
          (txtRun cp omax TxtStream.init chunks).results = outs.map some ∧
          outs.flatten ++
              (txtFlush cp (txtRun cp omax TxtStream.init chunks).last omax).1 =
            conv.text chunks.flatten := by
  obtain ⟨⟨groups, hpassed, (hgroups : _ = (characters cp.isLead chunks.flatten).1)⟩,
    (hlast : _ = (characters cp.isLead chunks.flatten).2)⟩ := txtRun_characters cp omax
    chunks TxtStream.init held_nil hroom
  refine ⟨⟨groups, hpassed, hgroups⟩, ?_, ?_, ?_⟩
  · have hstream := characters_flatten cp.isLead chunks.flatten
    rw [← hgroups, ← hlast] at hstream
    rw [hpassed, ← List.flatten_flatten]
    exact hstream
  · intro done later _
    exact txtRun_held cp omax done TxtStream.init (by decide)
  · intro conv hsucc hflush
    obtain ⟨outs, houts, hfeed⟩ := txtRun_results conv chunks
      TxtStream.init held_nil hroom hsucc hflush
    refine ⟨outs, houts, ?_⟩
    have hwhole := HoldBack.feed_flatten (text_safe conv) TxtStream.init.pend chunks
    rw [hfeed, List.flatten_append, List.flatten_singleton] at hwhole
    exact hwhole

/-! ## A Korean codepage -/

def koreanLead (b : Byte) : Bool := 0x81 ≤ b.toNat ∧ b.toNat ≤ 0xFE

/-- ASCII and the first syllable of the table; no other character has a code
here. -/
def koreanUnit (x : Bytes) : UInt16 :=
  match x with
  | [b] => b.toUInt16
  | _ => if x = [0xB0, 0xA1] then 0xAC00 else 0x3F

def koreanUnits (x : Bytes) : List UInt16 :=
  (characters koreanLead x).1.map koreanUnit

def unitsUtf8 (units : List UInt16) : Bytes :=
  units.flatMap fun u => u8enc u.toNat

def korean : Codepage where
  isLead := koreanLead
  toWide x size := if (koreanUnits x).length ≤ size then koreanUnits x else []
  toMulti units size := if (unitsUtf8 units).length ≤ size then unitsUtf8 units else []

def koreanText : Conversion korean where
  units := koreanUnits
  utf8 := unitsUtf8
  units_append := by
    intro x y hwhole
    have hx : (characters koreanLead x).2 = [] := hwhole
    unfold koreanUnits
    rw [characters_append, hx, List.nil_append, List.map_append]
  utf8_append := by
    intro x y _
    exact List.flatMap_append

theorem dbcs_chunking_syllable :
    ∃ outs : List Bytes,
      (txtRun korean 8192 TxtStream.init [[0xB0], [0xA1, 0x41]]).results =
          outs.map some ∧
        outs.flatten ++ (txtFlush korean
          (txtRun korean 8192 TxtStream.init [[0xB0], [0xA1, 0x41]]).last 8192).1 =
          [0xEA, 0xB0, 0x80, 0x41] := by
  have hroom : Room korean.isLead [] [[0xB0], [0xA1, 0x41]] := by
    intro done c later hchunks _
    have hshort : ∀ d ∈ ([[0xB0], [0xA1, 0x41]] : List Bytes), d.length < joinMax := by
      decide
    exact hshort c (by simp [hchunks])
  have hpassed : (txtRun korean 8192 TxtStream.init [[0xB0], [0xA1, 0x41]]).passed =
      [[0xB0, 0xA1, 0x41]] := by decide +kernel
  refine (dbcs_chunking korean 8192 [[0xB0], [0xA1, 0x41]] hroom).2.2.2 koreanText ?_ ?_
  · rw [hpassed]
    intro x hx
    rw [List.mem_singleton.mp hx]
    exact ⟨by decide +kernel, by decide +kernel, by decide +kernel, by decide +kernel⟩
  · intro hheld
    exact absurd (by decide +kernel) hheld

/-- A chunk as long as the join buffer behind a held lead byte loses bytes. -/
theorem korean_clamped {c : Bytes} (hlong : joinMax ≤ c.length) :
    (txtRun korean 8192 TxtStream.init [[0xB0], c]).passed.flatten ++
        (txtRun korean 8192 TxtStream.init [[0xB0], c]).last.pend ≠
      [[0xB0], c].flatten := by
  have hfirst : (txtOut korean TxtStream.init [0xB0] 8192).passed = [] ∧
      (txtOut korean TxtStream.init [0xB0] 8192).after.pend = [0xB0] := by
    decide +kernel
  have hsecond := txtOut_splice korean 8192
    (txtOut korean TxtStream.init [0xB0] 8192).after c
  have hshort := splice_short (s := (txtOut korean TxtStream.init [0xB0] 8192).after)
    (by rw [hfirst.2]; exact List.cons_ne_nil _ _) hlong
  intro hall
  simp only [txtRun, hfirst.1, List.nil_append, List.append_nil] at hall
  rw [hsecond] at hall
  rw [hall, hfirst.2] at hshort
  simp at hshort

theorem dbcs_chunk_clamped :
    ¬ (txtRun korean 8192 TxtStream.init [[0xB0], List.replicate 8192 0x41]).passed.flatten ++
        (txtRun korean 8192 TxtStream.init
          [[0xB0], List.replicate 8192 0x41]).last.pend =
      [[0xB0], List.replicate 8192 0x41].flatten :=
  korean_clamped (by rw [List.length_replicate, joinMax])

end GrandCross.Win32
