import GrandCross.CText

/-!
# Partial transfers

An operating system may take or deliver fewer bytes than a call asks for.
A `Sink` or a `Source` carries a plan that says what each coming call does:
`none` makes it fail, `some k` makes it move at most `k + 1` bytes.  Once
the plan is used up every call moves all it can.  The loops below repeat the
call until everything is moved, and the lemmas say that the split does not
show in the result.
-/

namespace Transfer

open CText

structure Sink where
  plan : List (Option ℕ)
  taken : Bytes
  deriving DecidableEq

def Sink.Steady (s : Sink) : Prop := none ∉ s.plan

instance (s : Sink) : Decidable s.Steady :=
  inferInstanceAs (Decidable (none ∉ s.plan))

def Sink.writeLoop : List (Option ℕ) → Bytes → Bytes → Bool × Sink
  | plan, taken, [] => (true, ⟨plan, taken⟩)
  | [], taken, b :: buf => (true, ⟨[], taken ++ b :: buf⟩)
  | none :: plan, taken, _ :: _ => (false, ⟨plan, taken⟩)
  | some k :: plan, taken, b :: buf =>
      Sink.writeLoop plan (taken ++ (b :: buf).take (k + 1))
        ((b :: buf).drop (k + 1))

def Sink.writeAll (s : Sink) (buf : Bytes) : Bool × Sink :=
  Sink.writeLoop s.plan s.taken buf

theorem Sink.writeLoop_steady
    (plan : List (Option ℕ)) (taken buf : Bytes) (hplan : none ∉ plan) :
    (Sink.writeLoop plan taken buf).1 = true ∧
      (Sink.writeLoop plan taken buf).2.taken = taken ++ buf ∧
      (Sink.writeLoop plan taken buf).2.Steady := by
  induction plan generalizing taken buf with
  | nil => cases buf <;> simp [Sink.writeLoop, Sink.Steady]
  | cons call plan ih =>
      cases buf with
      | nil =>
          refine ⟨rfl, by simp [Sink.writeLoop], ?_⟩
          simpa [Sink.writeLoop, Sink.Steady] using hplan
      | cons b buf =>
          cases call with
          | none => simp at hplan
          | some k =>
              have hrest : none ∉ plan := fun h => hplan (by simp [h])
              obtain ⟨hok, htaken, hsteady⟩ :=
                ih (taken ++ (b :: buf).take (k + 1))
                  ((b :: buf).drop (k + 1)) hrest
              refine ⟨hok, ?_, hsteady⟩
              rw [Sink.writeLoop, htaken, List.append_assoc,
                List.take_append_drop]

/-- Whatever the plan, what arrives is a prefix of the buffer, and all of it
when the loop reports success. -/
theorem Sink.writeLoop_prefix
    (plan : List (Option ℕ)) (taken buf : Bytes) :
    ∃ done rest, buf = done ++ rest ∧
      (Sink.writeLoop plan taken buf).2.taken = taken ++ done ∧
      ((Sink.writeLoop plan taken buf).1 = true → rest = []) := by
  induction plan generalizing taken buf with
  | nil =>
      cases buf with
      | nil => exact ⟨[], [], by simp [Sink.writeLoop]⟩
      | cons b buf => exact ⟨b :: buf, [], by simp [Sink.writeLoop]⟩
  | cons call plan ih =>
      cases buf with
      | nil => exact ⟨[], [], by simp [Sink.writeLoop]⟩
      | cons b buf =>
          cases call with
          | none => exact ⟨[], b :: buf, by simp [Sink.writeLoop]⟩
          | some k =>
              obtain ⟨done, rest, hsplit, htaken, hall⟩ :=
                ih (taken ++ (b :: buf).take (k + 1))
                  ((b :: buf).drop (k + 1))
              refine ⟨(b :: buf).take (k + 1) ++ done, rest, ?_, ?_, hall⟩
              · rw [List.append_assoc, ← hsplit, List.take_append_drop]
              · rw [Sink.writeLoop, htaken, List.append_assoc]

theorem Sink.writeAll_steady
    {s : Sink} (hs : s.Steady) (buf : Bytes) :
    (s.writeAll buf).1 = true ∧ (s.writeAll buf).2.taken = s.taken ++ buf ∧
      (s.writeAll buf).2.Steady :=
  Sink.writeLoop_steady s.plan s.taken buf hs

/-- Buffers written one after the other, up to a failed write. -/
def Sink.writeMany (s : Sink) : List Bytes → Bool × Sink
  | [] => (true, s)
  | buf :: bufs =>
      let w := s.writeAll buf
      if w.1 then w.2.writeMany bufs else (false, w.2)

/-- A loop that fails has moved less than the buffer. -/
theorem Sink.writeLoop_failed
    {plan : List (Option ℕ)} {taken buf : Bytes}
    (hfail : (Sink.writeLoop plan taken buf).1 = false) :
    ∃ done rest, buf = done ++ rest ∧ rest ≠ [] ∧
      (Sink.writeLoop plan taken buf).2.taken = taken ++ done := by
  induction plan generalizing taken buf with
  | nil => cases buf <;> simp [Sink.writeLoop] at hfail
  | cons call plan ih =>
      cases buf with
      | nil => simp [Sink.writeLoop] at hfail
      | cons b buf =>
          cases call with
          | none => exact ⟨[], b :: buf, rfl, by simp, by simp [Sink.writeLoop]⟩
          | some k =>
              obtain ⟨done, rest, hsplit, hrest, htaken⟩ := ih hfail
              refine ⟨(b :: buf).take (k + 1) ++ done, rest, ?_, hrest, ?_⟩
              · rw [List.append_assoc, ← hsplit, List.take_append_drop]
              · rw [Sink.writeLoop, htaken, List.append_assoc]

theorem Sink.writeMany_ok
    {s : Sink} {bufs : List Bytes} (hok : (s.writeMany bufs).1 = true) :
    (s.writeMany bufs).2.taken = s.taken ++ bufs.flatten := by
  induction bufs generalizing s with
  | nil => simp [Sink.writeMany]
  | cons buf bufs ih =>
      obtain ⟨done, rest, hsplit, htaken, hall⟩ := Sink.writeLoop_prefix s.plan s.taken buf
      simp only [Sink.writeMany] at hok ⊢
      split_ifs at hok ⊢ with hfirst
      have hrest : rest = [] := hall hfirst
      rw [ih hok, Sink.writeAll, htaken, List.flatten_cons, hsplit, hrest]
      simp

/-- The first failed write is somewhere inside a buffer. -/
theorem Sink.writeMany_failed
    {s : Sink} {bufs : List Bytes} (hfail : (s.writeMany bufs).1 = false) :
    ∃ before buf after done rest, bufs = before ++ buf :: after ∧ buf = done ++ rest ∧
      rest ≠ [] ∧ (s.writeMany bufs).2.taken = s.taken ++ (before.flatten ++ done) := by
  induction bufs generalizing s with
  | nil => simp [Sink.writeMany] at hfail
  | cons buf bufs ih =>
      simp only [Sink.writeMany] at hfail ⊢
      split_ifs at hfail ⊢ with hfirst
      · obtain ⟨whole, left, hsplit, htaken, hall⟩ :=
          Sink.writeLoop_prefix s.plan s.taken buf
        obtain ⟨before, buf', after, done, rest, hbufs, hbuf, hrest, hend⟩ := ih hfail
        refine ⟨buf :: before, buf', after, done, rest, by rw [hbufs]; rfl, hbuf, hrest, ?_⟩
        rw [hend, Sink.writeAll, htaken, hsplit, hall hfirst]
        simp
      · obtain ⟨done, rest, hsplit, hrest, htaken⟩ :=
          Sink.writeLoop_failed (by simpa [Sink.writeAll] using hfirst)
        exact ⟨[], buf, bufs, done, rest, rfl, hsplit, hrest, by simpa [Sink.writeAll] using htaken⟩

structure Source where
  plan : List (Option ℕ)
  pending : Bytes
  deriving DecidableEq

def Source.Steady (s : Source) : Prop := none ∉ s.plan

instance (s : Source) : Decidable s.Steady :=
  inferInstanceAs (Decidable (none ∉ s.plan))

/-- Read exactly `n` bytes behind the ones already got.  A source with
nothing pending has ended. -/
def Source.readLoop :
    List (Option ℕ) → Bytes → ℕ → Bytes → Option (Bytes × Source)
  | plan, pending, 0, got => some (got, ⟨plan, pending⟩)
  | _, [], _ + 1, _ => none
  | [], b :: pending, n + 1, got =>
      if n + 1 ≤ (b :: pending).length then
        some (got ++ (b :: pending).take (n + 1),
          ⟨[], (b :: pending).drop (n + 1)⟩)
      else none
  | none :: _, _ :: _, _ + 1, _ => none
  | some k :: plan, b :: pending, n + 1, got =>
      let m := min (min (k + 1) (n + 1)) (b :: pending).length
      Source.readLoop plan ((b :: pending).drop m) (n + 1 - m)
        (got ++ (b :: pending).take m)

def Source.readN (s : Source) (n : ℕ) : Option (Bytes × Source) :=
  Source.readLoop s.plan s.pending n []

/-- However the calls split, the loop delivers the first `n` bytes. -/
theorem Source.readLoop_steady
    (plan : List (Option ℕ)) (pending : Bytes) (n : ℕ) (got : Bytes)
    (hplan : none ∉ plan) (hn : n ≤ pending.length) :
    ∃ plan', none ∉ plan' ∧
      Source.readLoop plan pending n got =
        some (got ++ pending.take n, ⟨plan', pending.drop n⟩) := by
  induction plan generalizing pending n got with
  | nil =>
      cases n with
      | zero => exact ⟨[], by simp, by simp [Source.readLoop]⟩
      | succ n =>
          cases pending with
          | nil => simp at hn
          | cons b pending =>
              exact ⟨[], by simp, by simp [Source.readLoop] at hn ⊢; omega⟩
  | cons call plan ih =>
      cases n with
      | zero => exact ⟨call :: plan, hplan, by simp [Source.readLoop]⟩
      | succ n =>
          cases pending with
          | nil => simp at hn
          | cons b pending =>
              cases call with
              | none => simp at hplan
              | some k =>
                  have hrest : none ∉ plan := fun h => hplan (by simp [h])
                  have hm : min (min (k + 1) (n + 1)) (b :: pending).length ≤
                      n + 1 := by omega
                  generalize hmdef :
                    min (min (k + 1) (n + 1)) (b :: pending).length = m at hm
                  obtain ⟨plan', hplan', hloop⟩ :=
                    ih ((b :: pending).drop m) (n + 1 - m)
                      (got ++ (b :: pending).take m) hrest
                      (by rw [List.length_drop]; omega)
                  refine ⟨plan', hplan', ?_⟩
                  have htake : (b :: pending).take m ++
                      ((b :: pending).drop m).take (n + 1 - m) =
                        (b :: pending).take (n + 1) := by
                    have hsum : n + 1 = m + (n + 1 - m) := by omega
                    conv_rhs => rw [hsum, List.take_add]
                  have hdrop : ((b :: pending).drop m).drop (n + 1 - m) =
                      (b :: pending).drop (n + 1) := by
                    rw [List.drop_drop]
                    congr 1
                    omega
                  simp only [Source.readLoop, hmdef]
                  rw [hloop, List.append_assoc, htake, hdrop]

theorem Source.readLoop_short
    (plan : List (Option ℕ)) (pending : Bytes) (n : ℕ) (got : Bytes)
    (hn : pending.length < n) :
    Source.readLoop plan pending n got = none := by
  induction plan generalizing pending n got with
  | nil =>
      cases n with
      | zero => omega
      | succ n =>
          cases pending with
          | nil => rfl
          | cons b pending => simp [Source.readLoop] at hn ⊢; omega
  | cons call plan ih =>
      cases n with
      | zero => omega
      | succ n =>
          cases pending with
          | nil => cases call <;> rfl
          | cons b pending =>
              cases call with
              | none => rfl
              | some k =>
                  simp only [Source.readLoop]
                  apply ih
                  rw [List.length_drop]
                  omega

/-- A loop that succeeds has delivered the first `n` bytes. -/
theorem Source.readLoop_some
    {plan : List (Option ℕ)} {pending : Bytes} {n : ℕ} {got data : Bytes} {s : Source}
    (hread : Source.readLoop plan pending n got = some (data, s)) :
    n ≤ pending.length ∧ data = got ++ pending.take n ∧ s.pending = pending.drop n := by
  have hfew : n ≤ pending.length := by
    by_contra hmore
    rw [Source.readLoop_short plan pending n got (by omega)] at hread
    cases hread
  refine ⟨hfew, ?_⟩
  induction plan generalizing pending n got with
  | nil =>
      cases n with
      | zero =>
          simp only [readLoop, Option.some.injEq, Prod.mk.injEq] at hread
          rw [← hread.1, ← hread.2]
          simp
      | succ n =>
          cases pending with
          | nil => simp at hfew
          | cons b pending =>
              rw [readLoop, if_pos hfew, Option.some.injEq, Prod.mk.injEq] at hread
              rw [← hread.1, ← hread.2]
              exact ⟨rfl, rfl⟩
  | cons call plan ih =>
      cases n with
      | zero =>
          simp only [readLoop, Option.some.injEq, Prod.mk.injEq] at hread
          rw [← hread.1, ← hread.2]
          simp
      | succ n =>
          cases pending with
          | nil => simp at hfew
          | cons b pending =>
              cases call with
              | none => cases hread
              | some k =>
                  generalize hm : min (min (k + 1) (n + 1)) (b :: pending).length = m
                  have hle : m ≤ n + 1 := by omega
                  rw [readLoop, hm] at hread
                  obtain ⟨hdata, hrest⟩ := ih hread (by
                    rw [List.length_drop]
                    omega)
                  have hsum : n + 1 = m + (n + 1 - m) := by omega
                  constructor
                  · rw [hdata, List.append_assoc]
                    conv_rhs => rw [hsum, List.take_add]
                  · rw [hrest, List.drop_drop]
                    congr 1
                    omega

theorem Source.readN_steady
    {s : Source} (hs : s.Steady) {n : ℕ} (hn : n ≤ s.pending.length) :
    ∃ s' : Source, s'.Steady ∧ s'.pending = s.pending.drop n ∧
      s.readN n = some (s.pending.take n, s') := by
  obtain ⟨plan', hplan', hloop⟩ :=
    Source.readLoop_steady s.plan s.pending n [] hs hn
  exact ⟨⟨plan', s.pending.drop n⟩, hplan', rfl, by
    simpa [Source.readN] using hloop⟩

/-! ## Reading a whole file in pieces -/

/-- The results of repeated `fread` calls of `size` bytes, up to the empty
one. -/
def piecesLoop (size : ℕ) : ℕ → Bytes → List Bytes
  | 0, _ => []
  | _ + 1, [] => []
  | fuel + 1, b :: rest =>
      (b :: rest).take size :: piecesLoop size fuel ((b :: rest).drop size)

def pieces (size : ℕ) (content : Bytes) : List Bytes :=
  piecesLoop size content.length content

theorem piecesLoop_flatten
    {size : ℕ} (hsize : 1 ≤ size) (fuel : ℕ) (content : Bytes)
    (hfuel : content.length ≤ fuel) :
    (piecesLoop size fuel content).flatten = content := by
  induction fuel generalizing content with
  | zero =>
      have hnil : content = [] := List.length_eq_zero_iff.mp (by omega)
      simp [hnil, piecesLoop]
  | succ fuel ih =>
      cases content with
      | nil => rfl
      | cons b rest =>
          simp only [piecesLoop, List.flatten_cons]
          rw [ih _ (by simp at hfuel ⊢; omega), List.take_append_drop]

theorem piecesLoop_length
    {size : ℕ} (hsize : 1 ≤ size) (fuel : ℕ) (content : Bytes) :
    ∀ piece ∈ piecesLoop size fuel content,
      1 ≤ piece.length ∧ piece.length ≤ size := by
  induction fuel generalizing content with
  | zero => simp [piecesLoop]
  | succ fuel ih =>
      cases content with
      | nil => simp [piecesLoop]
      | cons b rest =>
          intro piece hpiece
          simp only [piecesLoop, List.mem_cons] at hpiece
          rcases hpiece with rfl | htail
          · simp only [List.length_take, List.length_cons]
            omega
          · exact ih _ piece htail

@[simp] theorem pieces_flatten
    {size : ℕ} (hsize : 1 ≤ size) (content : Bytes) :
    (pieces size content).flatten = content :=
  piecesLoop_flatten hsize content.length content le_rfl

theorem pieces_length
    {size : ℕ} (hsize : 1 ≤ size) (content : Bytes) :
    ∀ piece ∈ pieces size content,
      1 ≤ piece.length ∧ piece.length ≤ size :=
  piecesLoop_length hsize content.length content

/-- The results of the `fread` calls up to the first one that reads nothing,
where the plan lets calls come short or fail. -/
def freads (size : ℕ) : List (Option ℕ) → Bytes → List Bytes
  | [], content => pieces size content
  | none :: _, _ => []
  | some k :: plan, content =>
      if content = [] then []
      else
        content.take (min (k + 1) size) ::
          freads size plan (content.drop (min (k + 1) size))

/-- No call fails before the end of the file. -/
def ReadsWhole (size : ℕ) : List (Option ℕ) → Bytes → Prop
  | [], _ => True
  | none :: _, content => content = []
  | some k :: plan, content =>
      content = [] ∨ ReadsWhole size plan (content.drop (min (k + 1) size))

theorem freads_length
    {size : ℕ} (hsize : 1 ≤ size) (plan : List (Option ℕ)) (content : Bytes) :
    ∀ piece ∈ freads size plan content, 1 ≤ piece.length ∧ piece.length ≤ size := by
  induction plan generalizing content with
  | nil => exact pieces_length hsize content
  | cons call plan ih =>
      cases call with
      | none => simp [freads]
      | some k =>
          rw [freads]
          split_ifs with hnil
          · simp
          · intro piece hpiece
            rcases List.mem_cons.mp hpiece with rfl | htail
            · have hpos := List.length_pos_of_ne_nil hnil
              rw [List.length_take]
              omega
            · exact ih _ piece htail

theorem freads_flatten_le
    {size : ℕ} (hsize : 1 ≤ size) (plan : List (Option ℕ)) (content : Bytes) :
    (freads size plan content).flatten <+: content := by
  induction plan generalizing content with
  | nil => rw [freads, pieces_flatten hsize]
  | cons call plan ih =>
      cases call with
      | none => simp [freads]
      | some k =>
          rw [freads]
          split_ifs with hnil
          · simp
          · rw [List.flatten_cons]
            conv_rhs => rw [← List.take_append_drop (min (k + 1) size) content]
            exact (List.prefix_append_right_inj _).mpr (ih _)

/-- The whole file arrives exactly when no call fails before its end. -/
theorem freads_flatten_iff
    {size : ℕ} (hsize : 1 ≤ size) (plan : List (Option ℕ)) (content : Bytes) :
    (freads size plan content).flatten = content ↔ ReadsWhole size plan content := by
  induction plan generalizing content with
  | nil => simp [freads, ReadsWhole, pieces_flatten hsize]
  | cons call plan ih =>
      cases call with
      | none => simp [freads, ReadsWhole, eq_comm]
      | some k =>
          rw [freads, ReadsWhole]
          split_ifs with hnil
          · simp [hnil]
          · have hsplit := List.take_append_drop (min (k + 1) size) content
            rw [List.flatten_cons, ← ih, or_iff_right hnil]
            constructor
            · intro h
              exact List.append_cancel_left (h.trans hsplit.symm)
            · intro h
              rw [h, hsplit]

end Transfer
