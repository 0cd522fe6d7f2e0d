import GrandCross.Codes
import GrandCross.Replies

/-!
# The grammar of replies

What a client may expect behind each command: a line, a stream of O and E
frames, a download, or the two lines of an upload; and an ERR line in place
of each.  Every one of these is recognised by its own bytes, so a sequence
of replies comes apart in one way only.
-/

namespace GrandCross

open CText
open Codes

inductive Shape where
  | line
  | stream
  | download
  | upload
  deriving DecidableEq, Repr

def Verb.shape : Verb → Shape
  | .run => .stream
  | .runi => .stream
  | .result => .stream
  | .get => .download
  | .put => .upload
  | _ => .line

def linesFrom (start : Bytes) : Set Bytes :=
  {w | ∃ text, LineClean text ∧ w = start ++ text ++ [lf]}

def okLines : Set Bytes := linesFrom (ascii "OK")

def errLines : Set Bytes := linesFrom (ascii "ERR ")

def frameWords (tags : Set Byte) : Set Bytes :=
  {w | ∃ tag ∈ tags, ∃ data : Bytes, 1 ≤ data.length ∧
    w = frameHdr tag data.length ++ data}

def exitWords : Set Bytes := {w | ∃ code, w = exitLine code ++ [lf]}

/-- The bytes of a complete reply. -/
def replyWords : Shape → Set Bytes
  | .line => okLines ∪ errLines
  | .stream => blocks (frameWords {Stream.out.tag, Stream.err.tag}) exitWords ∪ errLines
  | .download =>
      followed {ascii "OK" ++ [lf]}
        (blocks (frameWords {68}) {ascii "D 0" ++ [lf]}) ∪ errLines
  | .upload =>
      followed {ascii "OK" ++ [lf]}
        {w | ∃ total, w = ascii "OK " ++ decimal total ++ [lf]} ∪ errLines

/-! ## Every reply ends by itself -/

theorem linesFrom_terminated
    {start : Bytes} (hstart : lf ∉ start) : linesFrom start ⊆ terminated lf := by
  rintro _ ⟨text, hclean, rfl⟩
  refine ⟨start ++ text, ?_, rfl⟩
  simp only [List.mem_append, not_or]
  exact ⟨hstart, hclean.1⟩

theorem prefixFree_okLines : PrefixFree okLines :=
  (prefixFree_terminated lf).subset (linesFrom_terminated (by decide))

theorem prefixFree_errLines : PrefixFree errLines :=
  (prefixFree_terminated lf).subset (linesFrom_terminated (by decide))

theorem frameHdr_terminated {tag : Byte} (htag : tag ≠ lf) (len : ℕ) :
    frameHdr tag len ∈ terminated lf := by
  refine ⟨hdrText tag len, ?_, frameHdr_eq tag len⟩
  simp only [hdrText, List.mem_cons, not_or]
  exact ⟨htag.symm, by decide, (decimal_clean len).2.1⟩

theorem frameHdr_inj
    {tag tag' : Byte} {len len' : ℕ} (h : frameHdr tag len = frameHdr tag' len') :
    tag = tag' ∧ len = len' := by
  rw [frameHdr_eq, frameHdr_eq, List.append_cancel_right_eq] at h
  simp only [hdrText, List.cons.injEq, true_and] at h
  exact ⟨h.1, decimal_injective h.2⟩

theorem prefixFree_frameWords
    {tags : Set Byte} (htags : lf ∉ tags) : PrefixFree (frameWords tags) := by
  rintro _ _ s t ⟨tag, htag, data, _, rfl⟩ ⟨tag', htag', data', _, rfl⟩ h
  have hne : tag ≠ lf := fun heq => htags (heq ▸ htag)
  have hne' : tag' ≠ lf := fun heq => htags (heq ▸ htag')
  rw [List.append_assoc, List.append_assoc] at h
  obtain ⟨hhdr, hrest⟩ := (prefixFree_terminated lf).rest
    (frameHdr_terminated hne _) (frameHdr_terminated hne' _) h
  have hlen := (frameHdr_inj hhdr).2
  rw [hhdr, List.append_inj_left hrest hlen]

theorem prefixFree_singleton (w : Bytes) : PrefixFree {w} := by
  intro u v s t hu hv _
  rw [Set.mem_singleton_iff.mp hu, Set.mem_singleton_iff.mp hv]

theorem prefixFree_exitWords : PrefixFree exitWords := by
  refine (prefixFree_terminated lf).subset ?_
  rintro _ ⟨code, rfl⟩
  exact ⟨exitLine code, (exitLine_clean code).1, rfl⟩

theorem unlike_of_head
    {L M : Set Bytes} (h : ∀ u ∈ L, ∀ v ∈ M, u.head?.isSome ∧ v.head?.isSome ∧
      u.head? ≠ v.head?) : Unlike L M := by
  intro u v s t hu hv heq
  obtain ⟨hsome, hsome', hne⟩ := h u hu v hv
  cases u with
  | nil => simp at hsome
  | cons a u =>
      cases v with
      | nil => simp at hsome'
      | cons b v =>
          simp only [List.cons_append, List.cons.injEq] at heq
          exact hne (by simp [heq.1])

theorem errLines_head {w : Bytes} (hw : w ∈ errLines) : w.head? = some 69 := by
  obtain ⟨text, _, rfl⟩ := hw
  rfl

theorem okLines_head {w : Bytes} (hw : w ∈ okLines) : w.head? = some 79 := by
  obtain ⟨text, _, rfl⟩ := hw
  rfl

theorem prefixFree_streamWords :
    PrefixFree (blocks (frameWords {Stream.out.tag, Stream.err.tag}) exitWords) := by
  refine (prefixFree_frameWords (by decide)).blocks prefixFree_exitWords ?_
  apply unlike_of_head
  rintro _ ⟨tag, htag, data, _, rfl⟩ _ ⟨code, rfl⟩
  simp only [exitLine_eq, hdrText, frameHdr, List.cons_append, List.head?_cons,
    Option.isSome_some, true_and, ne_eq, Option.some.injEq]
  rcases htag with rfl | rfl <;> decide

theorem unlike_stream_errLines :
    Unlike (blocks (frameWords {Stream.out.tag, Stream.err.tag}) exitWords)
      errLines := by
  rintro _ _ s t ⟨fs, hfs, x, ⟨code, rfl⟩, rfl⟩ ⟨text, _, rfl⟩ h
  have herr : ascii "ERR " = [69, 82, 82, 32] := by decide
  rw [herr] at h
  cases fs with
  | nil => simp [exitLine_eq, hdrText] at h
  | cons f fs =>
      obtain ⟨tag, _, data, _, rfl⟩ := hfs f (by simp)
      simp [frameHdr, sp] at h

theorem prefixFree_downloadWords :
    PrefixFree (blocks (frameWords {68}) {ascii "D 0" ++ [lf]}) := by
  refine (prefixFree_frameWords (by decide)).blocks (prefixFree_singleton _) ?_
  rintro _ _ s t ⟨tag, rfl, data, hpos, rfl⟩ rfl h
  have hlast : ascii "D 0" ++ [lf] = frameHdr 68 0 := by decide
  rw [hlast, List.append_assoc] at h
  have hhdr := prefixFree_terminated lf (frameHdr_terminated (by decide) _)
    (frameHdr_terminated (by decide) _) h
  have hzero := (frameHdr_inj hhdr).2
  omega

theorem unlike_ok_errLines
    {M : Set Bytes} : Unlike (followed {ascii "OK" ++ [lf]} M) errLines := by
  apply unlike_of_head
  rintro _ ⟨u, rfl, v, _, rfl⟩ w hw
  have hok : (ascii "OK" ++ [lf] ++ v).head? = some 79 := rfl
  simp only [errLines_head hw, hok]
  decide

theorem prefixFree_replyWords (shape : Shape) : PrefixFree (replyWords shape) := by
  cases shape with
  | line =>
      refine prefixFree_okLines.union prefixFree_errLines ?_
      apply unlike_of_head
      intro u hu v hv
      simp only [okLines_head hu, errLines_head hv]
      decide
  | stream =>
      exact prefixFree_streamWords.union prefixFree_errLines unlike_stream_errLines
  | download =>
      exact ((prefixFree_singleton _).followed prefixFree_downloadWords).union
        prefixFree_errLines unlike_ok_errLines
  | upload =>
      refine ((prefixFree_singleton _).followed ?_).union prefixFree_errLines
        unlike_ok_errLines
      refine (prefixFree_terminated lf).subset ?_
      rintro _ ⟨total, rfl⟩
      refine ⟨ascii "OK " ++ decimal total, ?_, rfl⟩
      simp only [List.mem_append, not_or]
      exact ⟨by decide, (decimal_clean total).2.1⟩

/-! ## The replies of the daemon -/

theorem mem_errLines (shape : Shape) {text : Bytes} (hclean : LineClean text) :
    ascii "ERR " ++ text ++ [lf] ∈ replyWords shape := by
  have hline : ascii "ERR " ++ text ++ [lf] ∈ errLines := ⟨text, hclean, rfl⟩
  cases shape <;> exact .inr hline

theorem mem_okLines {text : Bytes} (hclean : LineClean text) :
    ascii "OK" ++ text ++ [lf] ∈ replyWords .line :=
  .inl ⟨text, hclean, rfl⟩

theorem encodeStream_mem (fs : List Frame) (code : ℕ) :
    encodeStream fs code ∈ replyWords .stream := by
  refine .inl ⟨fs.map Frame.encode, ?_, _, ⟨code, rfl⟩, ?_⟩
  · intro w hw
    obtain ⟨f, _, rfl⟩ := List.mem_map.mp hw
    refine ⟨f.stream.tag, ?_, f.data, f.pos, rfl⟩
    cases f.stream <;> simp
  · rw [encodeStream, encodeFrames, List.flatMap_def]

theorem encodeData_mem
    {reads : List Bytes} (hreads : ∀ piece ∈ reads, 1 ≤ piece.length) :
    ascii "OK" ++ [lf] ++ (encodeData reads ++ (ascii "D 0" ++ [lf])) ∈
      replyWords .download := by
  refine .inl ⟨_, rfl, encodeData reads ++ (ascii "D 0" ++ [lf]),
    ⟨reads.map fun piece => frameHdr 68 piece.length ++ piece, ?_, _, rfl, ?_⟩, rfl⟩
  · intro w hw
    obtain ⟨piece, hpiece, rfl⟩ := List.mem_map.mp hw
    exact ⟨68, rfl, piece, hreads piece hpiece, rfl⟩
  · rw [encodeData, List.flatMap_def]

theorem total_mem (total : ℕ) :
    ascii "OK" ++ [lf] ++ (ascii "OK " ++ decimal total ++ [lf]) ∈
      replyWords .upload :=
  .inl ⟨_, rfl, _, ⟨total, rfl⟩, rfl⟩

end GrandCross
