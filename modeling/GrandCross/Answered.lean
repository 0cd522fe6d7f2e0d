import GrandCross.DupCache
import GrandCross.ReadDir

/-!
# Which calls are answered

A handler that cannot read an argument returns -1, and `handle_one` then sends
nothing.  A handler's arguments are described by a list; a handle that does
not resolve ends the reading with a stale status, any other failed read drops
the call.  Behind its arguments every handler answers, and every answer fits
the buffer and carries the transaction id of the call.
-/

namespace GrandCross

open CText EarlyExit

/-! ## Answers that fit the buffer -/

/-- The room behind the header of a reply. -/
def bodyMax : ℕ := 65512

/-- The encoder holds the header and a body of at most `n` bytes. -/
def Carries (xid n : ℕ) (out : XdrOut) : Prop :=
  ∃ body : Bytes, out = ⟨headBytes xid ++ body, rpcBufSize, false⟩ ∧ body.length ≤ n

section Carries

variable {xid n k : ℕ} {out : XdrOut}

theorem Carries.start (xid : ℕ) :
    Carries xid 0 (replyHead xid 0 (xdrInit rpcBufSize)) :=
  ⟨[], by rw [replyHead_eq, List.append_nil], le_rfl⟩

theorem Carries.put
    (hout : Carries xid n out) {data : Bytes} (hdata : data.length ≤ k)
    (hroom : n + k ≤ bodyMax) : Carries xid (n + k) (out.put data) := by
  obtain ⟨body, rfl, hbody⟩ := hout
  have hhead : (headBytes xid).length = 24 := rfl
  have hbuf : rpcBufSize = bodyMax + 24 := rfl
  refine ⟨body ++ data, ?_, ?_⟩
  · rw [XdrOut.put_ok, List.append_assoc]
    rw [List.length_append]
    omega
  · rw [List.length_append]
    omega

theorem Carries.mono
    (hout : Carries xid n out) (hle : n ≤ k) : Carries xid k out := by
  obtain ⟨body, hbody, hlen⟩ := hout
  exact ⟨body, hbody, le_trans hlen hle⟩

theorem Carries.putU32
    (hout : Carries xid n out) (v : ℕ) (hroom : n + 4 ≤ bodyMax) :
    Carries xid (n + 4) (xdrPutU32 out v) :=
  hout.put le_rfl hroom

theorem Carries.words
    (hout : Carries xid n out) (words : List ℕ)
    (hroom : n + 4 * words.length ≤ bodyMax) :
    Carries xid (n + 4 * words.length) (words.foldl xdrPutU32 out) := by
  induction words generalizing n out with
  | nil => exact hout
  | cons v words ih =>
      simp only [List.length_cons] at hroom ⊢
      apply (ih (hout.putU32 v (by omega)) (by omega)).mono
      omega

theorem Carries.fattr
    (hout : Carries xid n out) (st : Stat) (hroom : n + 68 ≤ bodyMax) :
    Carries xid (n + 68) (putFattr out st) :=
  hout.words (fattrWords st) hroom

theorem Carries.handle
    (hout : Carries xid n out) {fh : Bytes} (hfh : fh.length = 32)
    (hroom : n + 32 ≤ bodyMax) : Carries xid (n + 32) (xdrPutFixed out fh) := by
  apply hout.put _ hroom
  rw [List.length_append, List.length_replicate, hfh]
  decide

theorem Carries.bytes
    (hout : Carries xid n out) {p : Bytes} (hp : p.length ≤ k)
    (hroom : n + (k + 7) ≤ bodyMax) : Carries xid (n + (k + 7)) (xdrPutBytes out p) := by
  have hpad : padOf p.length < 4 := Nat.mod_lt _ (by norm_num)
  have hword := hout.putU32 p.length (by omega)
  apply (hword.put (k := k + 3) _ (by omega)).mono (by omega)
  rw [List.length_append, List.length_replicate]
  omega

end Carries

/-- An answer to the call with this transaction id. -/
def Answer (xid : ℕ) (out : XdrOut) : Prop := Carries xid bodyMax out

/-- An exit with an answer. -/
def ExitAnswer (xid : ℕ) (exit : Option XdrOut) : Prop :=
  ∃ out, exit = some out ∧ Answer xid out

/-- Everything a procedure sends answers the call. -/
def AlwaysAnswers {σ : Type} (xid : ℕ) (m : NfsM σ XdrOut) : Prop :=
  Keeps (fun _ => True) m (Answer xid) (ExitAnswer xid)

section Always

variable {σ : Type} {os : Os σ} {ex : Export} {xid n : ℕ} {out : XdrOut}

theorem finishStatus_answers
    {α : Type} {R : α → Prop} (hout : Carries xid 0 out) (status : ℕ) :
    Keeps (fun _ => True) (finishStatus out status : NfsM σ α) R (ExitAnswer xid) := by
  apply Keeps.throw
  exact ⟨_, rfl, (hout.putU32 status (by decide)).mono (by decide)⟩

theorem okOr_answers
    {α : Type} {R : α → Prop} (hout : Carries xid 0 out) (r : Except ℕ α)
    (hr : ∀ a, r = .ok a → R a) :
    Keeps (fun _ => True) (okOr out r : NfsM σ α) R (ExitAnswer xid) := by
  cases r with
  | ok a => exact Keeps.pure (hr a rfl)
  | error e => exact finishStatus_answers hout _

theorem look_answers
    {α : Type} {m : α → NfsM σ XdrOut} (f : FsView → α)
    (hm : ∀ a, AlwaysAnswers xid (m a)) : AlwaysAnswers xid (look os f >>= m) :=
  Keeps.bind (R := fun _ => True) (Keeps.act fun _ _ => ⟨trivial, trivial⟩)
    fun a _ => hm a

theorem change_answers
    {α : Type} {m : α → NfsM σ XdrOut} (f : σ → α × σ)
    (hm : ∀ a, AlwaysAnswers xid (m a)) : AlwaysAnswers xid (change f >>= m) :=
  Keeps.bind (R := fun _ => True) (Keeps.act fun _ _ => ⟨trivial, trivial⟩)
    fun a _ => hm a

theorem makeFh_answers
    {m : Bytes → NfsM σ XdrOut} (path : Bytes)
    (hm : ∀ fh, fh.length = 32 → AlwaysAnswers xid (m fh)) :
    AlwaysAnswers xid (makeFh ex path >>= m) :=
  Keeps.bind (R := fun fh => fh.length = 32) (Keeps.act fun _ _ => ⟨trivial, rfl⟩) hm

/-- A status, and behind `NFS_OK` the attributes. -/
theorem replyStatFattr_answers (hout : Carries xid 0 out) (path : Bytes) :
    AlwaysAnswers xid (replyStatFattr os out path) := by
  unfold replyStatFattr
  apply look_answers
  intro r
  apply Keeps.bind (okOr_answers (R := fun _ => True) hout r fun _ _ => trivial)
  intro st _
  apply Keeps.pure
  exact ((hout.putU32 nfsOk (by decide)).fattr st (by decide)).mono (by decide)

theorem putResult_answer (hout : Carries xid 0 out) (rc : Except ℕ Unit) :
    Answer xid (putResult out rc) := by
  cases rc with
  | ok u => exact (hout.putU32 nfsOk (by decide)).mono (by decide)
  | error e => exact (hout.putU32 (errnoToNfs e) (by decide)).mono (by decide)

/-- A status, and behind `NFS_OK` a handle and the attributes. -/
theorem handleFattr_answers
    (hout : Carries xid 0 out) (path : Bytes) (st : Stat) :
    AlwaysAnswers xid (makeFh ex path >>= fun fh =>
      (pure (putFattr (xdrPutFixed (xdrPutU32 out nfsOk) fh) st) : NfsM σ XdrOut)) := by
  apply makeFh_answers
  intro fh hfh
  apply Keeps.pure
  exact (((hout.putU32 nfsOk (by decide)).handle hfh (by decide)).fattr st
    (by decide)).mono (by decide)

end Always

/-! ## Arguments -/

/-- What a handler reads: a handle with `arg_fh`, the second handle of
`RENAME` and `LINK`, words, a string into a buffer, or counted data. -/
inductive Arg where
  | fh
  | toFh
  | words (n : ℕ)
  | text (max : ℕ)
  | data
  deriving DecidableEq

/-- The reads of a handler go through, or end at a handle that is too short
for `arg_fh` or does not resolve. -/
def readable (fs : FsView) (root : Bytes) : List Arg → Bytes → Table → Bool
  | [], _, _ => true
  | .fh :: args, input, t =>
      match xdrGetFixed fhSize input with
      | none => true
      | some (fh, rest) =>
          match fhToPath fs root t fh with
          | (none, _) => true
          | (some _, t) => readable fs root args rest t
  | .toFh :: args, input, t =>
      match xdrGetFixed fhSize input with
      | none => false
      | some (fh, rest) =>
          match fhToPath fs root t fh with
          | (none, _) => true
          | (some _, t) => readable fs root args rest t
  | .words n :: args, input, t =>
      match getWords n input with
      | none => false
      | some (_, rest) => readable fs root args rest t
  | .text max :: args, input, t =>
      match xdrGetString max input with
      | none => false
      | some (_, rest) => readable fs root args rest t
  | .data :: args, input, t =>
      match xdrGetBytes input with
      | none => false
      | some (_, rest) => readable fs root args rest t

def nfsArgs : ℕ → List Arg
  | 1 => [.fh]
  | 2 => [.fh, .words 8]
  | 4 => [.fh, .text 256]
  | 5 => [.fh]
  | 6 => [.fh, .words 3]
  | 8 => [.fh, .words 3, .data]
  | 9 => [.fh, .text 256, .words 8]
  | 10 => [.fh, .text 256]
  | 11 => [.fh, .text 256, .toFh, .text 256]
  | 12 => [.fh, .toFh, .text 256]
  | 13 => [.fh, .text 256, .text 1024, .words 8]
  | 14 => [.fh, .text 256, .words 8]
  | 15 => [.fh, .text 256]
  | 16 => [.fh, .words 2]
  | 17 => [.fh]
  | _ => []

/-- The arguments of the procedures the server has. -/
def argsOf (prog proc : ℕ) : List Arg :=
  if prog = nfsProg then nfsArgs proc
  else if prog = mountProg ∧ proc = 1 then [.text 1024]
  else if prog = pmapProg ∧ proc = 3 then [.words 4]
  else []

section Args

variable {σ : Type} (os : Os σ) (ex : Export)

/-- The outcome of a handler that answers. -/
def Replied (xid : ℕ) : Except (Option XdrOut) XdrOut → Prop
  | .ok out => Answer xid out
  | .error exit => ExitAnswer xid exit

/-- The procedure answers the call if its arguments can be read, and drops it
otherwise, with nothing done. -/
def AnswersCall (xid : ℕ) (args : List Arg) (input : Bytes) (m : NfsM σ XdrOut) : Prop :=
  ∀ s : Srv σ,
    if readable (os.view s.world) ex.root args input s.table then Replied xid (exec m s).1
    else (exec m s).1 = .error none ∧ (exec m s).2.world = s.world

variable {os ex} {xid : ℕ} {args : List Arg} {input : Bytes} {out : XdrOut}

theorem AlwaysAnswers.answers
    {m : NfsM σ XdrOut} (hm : AlwaysAnswers xid m) : AnswersCall os ex xid [] input m := by
  intro s
  have hsends := (hm s trivial).2
  rw [readable, if_pos rfl]
  cases hexec : (exec m s).1 with
  | ok out =>
      rw [hexec] at hsends
      exact hsends
  | error exit =>
      rw [hexec] at hsends
      exact hsends

/-- A read that drops the call when it fails. -/
theorem orDrop_reads
    {α : Type} {a : Arg} {get : Option (α × Bytes)} {f : α × Bytes → NfsM σ XdrOut}
    (hnone : get = none → ∀ fs t, readable fs ex.root (a :: args) input t = false)
    (hsome : ∀ v rest, get = some (v, rest) → ∀ fs t,
      readable fs ex.root (a :: args) input t = readable fs ex.root args rest t)
    (hf : ∀ v rest, AnswersCall os ex xid args rest (f (v, rest))) :
    AnswersCall os ex xid (a :: args) input (orDrop get >>= f) := by
  intro s
  cases get with
  | none =>
      rw [hnone rfl, if_neg Bool.false_ne_true]
      exact ⟨rfl, rfl⟩
  | some p =>
      rw [hsome p.1 p.2 rfl]
      exact hf p.1 p.2 s

theorem words_reads
    {n : ℕ} {f : List ℕ × Bytes → NfsM σ XdrOut}
    (hf : ∀ v rest, AnswersCall os ex xid args rest (f (v, rest))) :
    AnswersCall os ex xid (.words n :: args) input (orDrop (getWords n input) >>= f) :=
  orDrop_reads (fun h _ _ => by simp [readable, h])
    (fun _ _ h _ _ => by simp [readable, h]) hf

theorem text_reads
    {max : ℕ} {f : Bytes × Bytes → NfsM σ XdrOut}
    (hf : ∀ v rest, AnswersCall os ex xid args rest (f (v, rest))) :
    AnswersCall os ex xid (.text max :: args) input (orDrop (xdrGetString max input) >>= f) :=
  orDrop_reads (fun h _ _ => by simp [readable, h])
    (fun _ _ h _ _ => by simp [readable, h]) hf

theorem data_reads
    {f : Bytes × Bytes → NfsM σ XdrOut}
    (hf : ∀ v rest, AnswersCall os ex xid args rest (f (v, rest))) :
    AnswersCall os ex xid (.data :: args) input (orDrop (xdrGetBytes input) >>= f) :=
  orDrop_reads (fun h _ _ => by simp [readable, h])
    (fun _ _ h _ _ => by simp [readable, h]) hf

/-- What both handle reads do with the 32 bytes. -/
theorem resolveFh_reads
    {fh rest : Bytes} {f : Option Bytes → NfsM σ XdrOut} {s : Srv σ}
    (hnone : ∀ s, (exec (f none) s).1 = .error (some (xdrPutU32 out nfsErrStale)))
    (hout : Carries xid 0 out)
    (hsome : ∀ path, AnswersCall os ex xid args rest (f (some path))) :
    if (match fhToPath (os.view s.world) ex.root s.table fh with
        | (none, _) => true
        | (some _, t) => readable (os.view s.world) ex.root args rest t) then
      Replied xid (exec (resolveFh os ex fh >>= f) s).1
    else (exec (resolveFh os ex fh >>= f) s).1 = .error none ∧
      (exec (resolveFh os ex fh >>= f) s).2.world = s.world := by
  rw [exec_bind, resolveFh, exec_act]
  dsimp only
  cases hres : fhToPath (os.view s.world) ex.root s.table fh with
  | mk r t =>
      cases r with
      | none =>
          dsimp only
          rw [if_pos rfl, hnone]
          exact ⟨_, rfl, (hout.putU32 nfsErrStale (by decide)).mono (by decide)⟩
      | some path => exact hsome path { s with table := t }

theorem argFh_reads
    {f : Bytes × Bytes → NfsM σ XdrOut} (hout : Carries xid 0 out)
    (hf : ∀ path rest, AnswersCall os ex xid args rest (f (path, rest))) :
    AnswersCall os ex xid (.fh :: args) input (argFh os ex input out >>= f) := by
  intro s
  unfold argFh readable
  cases xdrGetFixed fhSize input with
  | none => exact ⟨_, rfl, (hout.putU32 nfsErrStale (by decide)).mono (by decide)⟩
  | some p =>
      dsimp only
      rw [bind_assoc]
      exact resolveFh_reads (fun _ => rfl) hout fun path => hf path p.2

theorem argToDir_reads
    {f : Bytes × Bytes → NfsM σ XdrOut} (hout : Carries xid 0 out)
    (hf : ∀ path rest, AnswersCall os ex xid args rest (f (path, rest))) :
    AnswersCall os ex xid (.toFh :: args) input (argToDir os ex input out >>= f) := by
  intro s
  unfold argToDir readable
  cases xdrGetFixed fhSize input with
  | none => exact ⟨rfl, rfl⟩
  | some p =>
      have hpure : (orDrop (some p) : NfsM σ (Bytes × Bytes)) = pure p := rfl
      rw [hpure, pure_bind, bind_assoc]
      exact resolveFh_reads (fun _ => rfl) hout fun path => hf path p.2

end Args

/-! ## The handlers -/

section Handlers

variable {σ : Type} {os : Os σ} {ex : Export} {xid : ℕ} {out : XdrOut}

theorem pure_answers
    (hout : Answer xid out) (input : Bytes) :
    AnswersCall os ex xid [] input (pure out) :=
  AlwaysAnswers.answers (Keeps.pure hout)

theorem pmapGetport_answers (hout : Carries xid 0 out) (input : Bytes) :
    AnswersCall os ex xid [.words 4] input (pmapGetport ex input out) := by
  apply words_reads
  intro words rest
  apply pure_answers
  exact (hout.putU32 _ (by decide)).mono (by decide)

theorem mntMnt_answers (hout : Carries xid 0 out) (input : Bytes) :
    AnswersCall os ex xid [.text 1024] input (mntMnt os ex input out) := by
  apply text_reads
  intro dir rest
  apply AlwaysAnswers.answers
  apply Keeps.ite
  · intro _
    exact finishStatus_answers hout _
  · intro _
    apply look_answers
    intro st
    cases st with
    | error e => exact finishStatus_answers hout _
    | ok st =>
        apply Keeps.ite
        · intro _
          apply makeFh_answers
          intro fh hfh
          apply Keeps.pure
          exact ((hout.putU32 0 (by decide)).handle hfh (by decide)).mono (by decide)
        · intro _
          exact finishStatus_answers hout _

theorem mntExport_answers
    (hroot : ex.root.length ≤ 1023) (hout : Carries xid 0 out) (input : Bytes) :
    AnswersCall os ex xid [] input (mntExport ex input out) := by
  apply pure_answers
  have hlist := (hout.putU32 1 (by decide)).bytes hroot (by decide)
  exact ((hlist.putU32 0 (by decide)).putU32 0 (by decide)).mono (by decide)

theorem nfsGetattr_answers (hout : Carries xid 0 out) (input : Bytes) :
    AnswersCall os ex xid [.fh] input (nfsGetattr os ex input out) := by
  apply argFh_reads hout
  intro path rest
  exact (replyStatFattr_answers hout path).answers

theorem nfsSetattr_answers (hout : Carries xid 0 out) (input : Bytes) :
    AnswersCall os ex xid [.fh, .words 8] input (nfsSetattr os ex input out) := by
  apply argFh_reads hout
  intro path rest
  apply words_reads
  intro words rest
  apply AlwaysAnswers.answers
  apply change_answers
  intro _
  apply change_answers
  intro _
  exact replyStatFattr_answers hout path

theorem nfsLookup_answers (hout : Carries xid 0 out) (input : Bytes) :
    AnswersCall os ex xid [.fh, .text 256] input (nfsLookup os ex input out) := by
  apply argFh_reads hout
  intro dir rest
  apply text_reads
  intro name rest
  apply AlwaysAnswers.answers
  dsimp only
  cases joinChild ex.root dir name pathMax with
  | none => exact finishStatus_answers hout _
  | some child =>
      apply look_answers
      intro r
      apply Keeps.bind (okOr_answers (R := fun _ => True) hout r fun _ _ => trivial)
      intro st _
      exact handleFattr_answers hout child st

theorem nfsRead_answers (hout : Carries xid 0 out) (input : Bytes) :
    AnswersCall os ex xid [.fh, .words 3] input (nfsRead os ex input out) := by
  apply argFh_reads hout
  intro path rest
  apply words_reads
  intro words rest
  apply AlwaysAnswers.answers
  apply look_answers
  intro r
  apply Keeps.bind (okOr_answers (R := fun _ => True) hout r fun _ _ => trivial)
  rintro ⟨data, st⟩ _
  apply Keeps.pure
  have hattrs := (hout.putU32 nfsOk (by decide)).fattr st (by decide)
  apply (hattrs.bytes (k := 8192) _ (by decide)).mono (by decide)
  rw [List.length_take]
  omega

theorem nfsWrite_answers (hout : Carries xid 0 out) (input : Bytes) :
    AnswersCall os ex xid [.fh, .words 3, .data] input (nfsWrite os ex input out) := by
  apply argFh_reads hout
  intro path rest
  apply words_reads
  intro words rest
  apply data_reads
  intro data rest
  apply AlwaysAnswers.answers
  apply change_answers
  intro r
  apply Keeps.bind (okOr_answers (R := fun _ => True) hout r fun _ _ => trivial)
  intro st _
  apply Keeps.pure
  exact ((hout.putU32 nfsOk (by decide)).fattr st (by decide)).mono (by decide)

theorem createCommon_answers
    (dirMode : Bool) (hout : Carries xid 0 out) (input : Bytes) :
    AnswersCall os ex xid [.fh, .text 256, .words 8] input
      (createCommon os ex dirMode input out) := by
  apply argFh_reads hout
  intro dir rest
  apply text_reads
  intro name rest
  apply words_reads
  intro words rest
  apply AlwaysAnswers.answers
  dsimp only
  cases joinChild ex.root dir name pathMax with
  | none => exact finishStatus_answers hout _
  | some child =>
      apply change_answers
      intro r
      apply Keeps.bind (okOr_answers (R := fun _ => True) hout r fun _ _ => trivial)
      intro _ _
      apply look_answers
      intro st
      cases st with
      | error e => exact finishStatus_answers hout _
      | ok st => exact handleFattr_answers hout child st

/-- What `REMOVE`, `RMDIR`, `RENAME`, `LINK` and `SYMLINK` end with. -/
theorem changeResult_answers
    (hout : Carries xid 0 out) (f : σ → Except ℕ Unit × σ) :
    AlwaysAnswers xid (change f >>= fun rc => (pure (putResult out rc) : NfsM σ XdrOut)) := by
  apply change_answers
  intro rc
  exact Keeps.pure (putResult_answer hout rc)

theorem removeCommon_answers
    (isDir : Bool) (hout : Carries xid 0 out) (input : Bytes) :
    AnswersCall os ex xid [.fh, .text 256] input (removeCommon os ex isDir input out) := by
  apply argFh_reads hout
  intro dir rest
  apply text_reads
  intro name rest
  apply AlwaysAnswers.answers
  dsimp only
  cases joinChild ex.root dir name pathMax with
  | none => exact finishStatus_answers hout _
  | some child => exact changeResult_answers hout _

theorem nfsRename_answers (hout : Carries xid 0 out) (input : Bytes) :
    AnswersCall os ex xid [.fh, .text 256, .toFh, .text 256] input
      (nfsRename os ex input out) := by
  apply argFh_reads hout
  intro fromdir rest
  apply text_reads
  intro fname rest
  apply argToDir_reads hout
  intro todir rest
  apply text_reads
  intro tname rest
  apply AlwaysAnswers.answers
  dsimp only
  cases joinChild ex.root fromdir fname pathMax with
  | none => exact finishStatus_answers hout _
  | some fpath =>
      cases joinChild ex.root todir tname pathMax with
      | none => exact finishStatus_answers hout _
      | some tpath => exact changeResult_answers hout _

theorem nfsLink_answers (hout : Carries xid 0 out) (input : Bytes) :
    AnswersCall os ex xid [.fh, .toFh, .text 256] input (nfsLink os ex input out) := by
  apply argFh_reads hout
  intro path rest
  apply argToDir_reads hout
  intro todir rest
  apply text_reads
  intro tname rest
  apply AlwaysAnswers.answers
  dsimp only
  cases joinChild ex.root todir tname pathMax with
  | none => exact finishStatus_answers hout _
  | some tpath => exact changeResult_answers hout _

theorem nfsReadlink_answers (hout : Carries xid 0 out) (input : Bytes) :
    AnswersCall os ex xid [.fh] input (nfsReadlink os ex input out) := by
  apply argFh_reads hout
  intro path rest
  apply AlwaysAnswers.answers
  apply look_answers
  intro r
  apply Keeps.bind (okOr_answers (R := fun _ => True) hout r fun _ _ => trivial)
  intro target _
  apply Keeps.pure
  apply ((hout.putU32 nfsOk (by decide)).bytes (k := 1023) _ (by decide)).mono (by decide)
  exact List.length_take_le _ _

theorem nfsSymlink_answers (hout : Carries xid 0 out) (input : Bytes) :
    AnswersCall os ex xid [.fh, .text 256, .text 1024, .words 8] input
      (nfsSymlink os ex input out) := by
  apply argFh_reads hout
  intro dir rest
  apply text_reads
  intro name rest
  apply text_reads
  intro target rest
  apply words_reads
  intro words rest
  apply AlwaysAnswers.answers
  cases joinChild ex.root dir name pathMax with
  | none => exact finishStatus_answers hout _
  | some child => exact changeResult_answers hout _

theorem nfsReaddir_answers (input : Bytes) :
    AnswersCall os ex xid [.fh, .words 2] input
      (nfsReaddir os ex input (replyHead xid 0 (xdrInit rpcBufSize))) := by
  apply argFh_reads (Carries.start xid)
  intro path rest
  apply words_reads
  intro words rest
  apply AlwaysAnswers.answers
  apply look_answers
  intro r
  apply Keeps.bind
    (okOr_answers (R := fun _ => True) (Carries.start xid) r fun _ _ => trivial)
  intro stream _
  apply Keeps.act
  intro s _
  refine ⟨trivial, ?_⟩
  have hsmall := encodeEntries_small (os.view s.world) ex.root path (words.getD 0 0)
    (words.getD 1 0) stream
  have hmax : bodyMax = 65512 := rfl
  dsimp only
  rw [replyHead_eq, readdirReply_eq]
  refine ⟨_, rfl, ?_⟩
  simp only [List.length_append, be32_length]
  omega

theorem nfsStatfs_answers (hout : Carries xid 0 out) (input : Bytes) :
    AnswersCall os ex xid [.fh] input (nfsStatfs os ex input out) := by
  apply argFh_reads hout
  intro path rest
  apply AlwaysAnswers.answers
  apply look_answers
  intro r
  apply Keeps.bind (okOr_answers (R := fun _ => True) hout r fun _ _ => trivial)
  rintro ⟨bsize, blocks, bfree, bavail⟩ _
  apply Keeps.pure
  exact (hout.words _ (by simp [bodyMax])).mono (by simp [bodyMax])

/-- The reply to a call without arguments may hold the root. -/
theorem route_answers (xid : ℕ) (input : Bytes) :
    ∀ r ∈ gnRoutes os ex, (argsOf r.prog r.proc = [] → ex.root.length ≤ 1023) →
      AnswersCall os ex xid (argsOf r.prog r.proc) input
        (r.fn input (replyHead xid 0 (xdrInit rpcBufSize))) := by
  have hstart := Carries.start xid
  have hnull : AnswersCall os ex xid [] input (pure (replyHead xid 0 (xdrInit rpcBufSize))) :=
    pure_answers (hstart.mono (Nat.zero_le _)) input
  unfold gnRoutes
  simp only [List.forall_mem_cons]
  exact ⟨fun _ => hnull, fun _ => pmapGetport_answers hstart input, fun _ => hnull,
    fun _ => mntMnt_answers hstart input, fun _ => hnull,
    fun hroot => mntExport_answers (hroot rfl) hstart input, fun _ => hnull,
    fun _ => nfsGetattr_answers hstart input, fun _ => nfsSetattr_answers hstart input,
    fun _ => nfsLookup_answers hstart input, fun _ => nfsReadlink_answers hstart input,
    fun _ => nfsRead_answers hstart input, fun _ => nfsWrite_answers hstart input,
    fun _ => createCommon_answers false hstart input,
    fun _ => removeCommon_answers false hstart input,
    fun _ => nfsRename_answers hstart input, fun _ => nfsLink_answers hstart input,
    fun _ => nfsSymlink_answers hstart input, fun _ => createCommon_answers true hstart input,
    fun _ => removeCommon_answers true hstart input, fun _ => nfsReaddir_answers input,
    fun _ => nfsStatfs_answers hstart input, fun _ h => absurd h List.not_mem_nil⟩

end Handlers

/-! ## Datagrams -/

section Datagrams

variable {σ : Type} {os : Os σ} {ex : Export}

theorem Answer.sendable
    {xid : ℕ} {out : XdrOut} (hout : Answer xid out) :
    ∃ reply, sendable (some out) = some reply ∧ be32 xid <+: reply := by
  obtain ⟨body, rfl, -⟩ := hout
  refine ⟨headBytes xid ++ body, rfl, ?_⟩
  exact ⟨[1, 0, 0, 0, 0].flatMap be32 ++ body, by simp [headBytes]⟩

theorem refuse_sendable (routes : List (Route σ)) (c : RpcCall) :
    ∃ reply, sendable (some (refuse routes c (xdrInit rpcBufSize))) = some reply ∧
      be32 c.xid <+: reply := by
  have hhead : ∀ stat, replyHead c.xid stat (xdrInit rpcBufSize) =
      ⟨be32 c.xid ++ [1, 0, 0, 0, stat].flatMap be32, rpcBufSize, false⟩ := fun stat =>
    xdrPutWords_ok [c.xid, 1, 0, 0, 0, stat] (by simp [rpcBufSize])
  unfold refuse
  dsimp only
  rw [hhead, hhead, hhead]
  split_ifs
  · exact ⟨_, rfl, List.prefix_append _ _⟩
  · exact ⟨_, rfl, List.prefix_append _ _⟩
  · rw [xdrPutU32_ok, xdrPutU32_ok]
    · refine ⟨_, rfl, ?_⟩
      rw [List.append_assoc, List.append_assoc]
      exact List.prefix_append _ _
    · simp [rpcBufSize]
    · simp [rpcBufSize]

/-- The procedure of a route sends a reply with the call's transaction id if
its arguments can be read, and nothing otherwise. -/
theorem runRoute_answers
    (hroot : ex.root.length ≤ 1023) {c : RpcCall} {r : Route σ}
    (hroute : matchRoute (gnRoutes os ex) c = some r) (rest : Bytes) (srv : Srv σ) :
    if readable (os.view srv.world) ex.root (argsOf c.prog c.proc) rest srv.table then
      ∃ reply, sendable (runRoute r c rest srv).1 = some reply ∧ be32 c.xid <+: reply
    else sendable (runRoute r c rest srv).1 = none := by
  have hanswers := route_answers c.xid rest r (matchRoute_mem hroute) (fun _ => hroot) srv
  obtain ⟨hprog, hproc⟩ := matchRoute_spec hroute
  rw [hprog, hproc] at hanswers
  unfold runRoute
  cases hexec : exec (r.fn rest (replyHead c.xid 0 (xdrInit rpcBufSize))) srv with
  | mk res srv' =>
      rw [hexec] at hanswers
      split_ifs at hanswers ⊢ with hread
      · cases res with
        | ok out => exact Answer.sendable hanswers
        | error exit =>
            obtain ⟨out, rfl, hout⟩ := hanswers
            exact hout.sendable
      · dsimp only at hanswers ⊢
        rw [hanswers.1]
        rfl

/-- A procedure whose arguments cannot be read does nothing. -/
theorem runRoute_unread
    {c : RpcCall} {r : Route σ} (hroute : matchRoute (gnRoutes os ex) c = some r)
    {rest : Bytes} {srv : Srv σ}
    (hread : readable (os.view srv.world) ex.root (argsOf c.prog c.proc) rest srv.table ≠ true) :
    (runRoute r c rest srv).2.world = srv.world := by
  obtain ⟨hprog, hproc⟩ := matchRoute_spec hroute
  rw [← hprog, ← hproc] at hread
  have hsome : argsOf r.prog r.proc = [] → ex.root.length ≤ 1023 := by
    intro hnone
    rw [hnone] at hread
    exact absurd rfl hread
  have hanswers := route_answers c.xid rest r (matchRoute_mem hroute) hsome srv
  rw [if_neg hread] at hanswers
  obtain ⟨-, hworld⟩ := hanswers
  unfold runRoute
  cases hexec : exec (r.fn rest (replyHead c.xid 0 (xdrInit rpcBufSize))) srv with
  | mk res srv' =>
      rw [hexec] at hworld
      cases res with
      | ok out => exact hworld
      | error exit => exact hworld

/-- Every live entry replays a reply to the call it is kept for. -/
def Replays (drc : Drc) : Prop :=
  ∀ e ∈ drc.slots, e.valid = true → be32 e.xid <+: e.reply

theorem Replays.init : Replays Drc.init :=
  fun _ he hvalid => absurd hvalid (by simp [init_unused he])

theorem Replays.lookup
    {drc : Drc} (hdrc : Replays drc) {peer : Peer} {xid : ℕ} {now : ℤ} {hit : DrcEnt}
    (hhit : drcLookup drc peer xid now = some hit) : be32 xid <+: hit.reply := by
  have hmem := hdrc hit (List.mem_of_find?_eq_some hhit)
  have hkey := List.find?_some hhit
  simp only [DrcEnt.hasKey, Bool.and_eq_true, beq_iff_eq] at hkey
  rw [← hkey.1.1.2]
  exact hmem hkey.1.1.1

variable (os ex) in
/-- The call is for a procedure the server does not have, or is a
retransmission the cache answers, or its arguments can be read. -/
def Heard (s : Rpc σ) (dg : Datagram σ) (c : RpcCall) (args : Bytes) : Prop :=
  match matchRoute (gnRoutes os ex) c with
  | none => True
  | some r =>
      (r.cache = true ∧ drcLookup s.drc dg.peer c.xid dg.now ≠ none) ∨
        readable (os.view (dg.outside s.srv.world)) ex.root (argsOf c.prog c.proc)
          args s.srv.table = true

theorem handleOne_sent
    (hroot : ex.root.length ≤ 1023) {s : Rpc σ} (hdrc : Replays s.drc) {dg : Datagram σ}
    {c : RpcCall} {args : Bytes} (hparse : rpcParseCall dg.data = some (c, args)) :
    (Heard os ex s dg c args ∧ ∃ reply,
        (handleOne (gnRoutes os ex) s dg).2.sent = some reply ∧ be32 c.xid <+: reply) ∨
      (¬ Heard os ex s dg c args ∧ (handleOne (gnRoutes os ex) s dg).2.sent = none) := by
  unfold Heard handleOne
  rw [hparse]
  dsimp only
  cases hroute : matchRoute (gnRoutes os ex) c with
  | none => exact Or.inl ⟨trivial, refuse_sendable _ c⟩
  | some r =>
      dsimp only
      cases hhit : if r.cache then drcLookup s.drc dg.peer c.xid dg.now else none with
      | some hit =>
          have hcache : r.cache = true := by
            by_contra h
            rw [if_neg h] at hhit
            exact absurd hhit (by simp)
          rw [if_pos hcache] at hhit
          left
          refine ⟨Or.inl ⟨hcache, by simp [hhit]⟩, hit.reply, rfl, hdrc.lookup hhit⟩
      | none =>
          have hmiss : ¬ (r.cache = true ∧ drcLookup s.drc dg.peer c.xid dg.now ≠ none) := by
            rintro ⟨hcache, hlook⟩
            rw [if_pos hcache] at hhit
            exact hlook hhit
          have hrun := runRoute_answers hroot hroute args
            { s.srv with world := dg.outside s.srv.world }
          dsimp only at hrun ⊢
          split_ifs at hrun with hread
          · obtain ⟨reply, hsend, hxid⟩ := hrun
            left
            refine ⟨Or.inr hread, reply, ?_, hxid⟩
            rw [hsend]
            dsimp only
            split_ifs
            · rfl
            · rfl
          · right
            refine ⟨not_or.mpr ⟨hmiss, hread⟩, ?_⟩
            rw [hrun]

variable (os ex) in
/-- The call is performed: the server has its procedure, no earlier reply is
sent in its place, and its arguments can be read. -/
def Performed (s : Rpc σ) (dg : Datagram σ) (c : RpcCall) (args : Bytes) : Prop :=
  ∃ r, matchRoute (gnRoutes os ex) c = some r ∧
    (r.cache = true → drcLookup s.drc dg.peer c.xid dg.now = none) ∧
    readable (os.view (dg.outside s.srv.world)) ex.root (argsOf c.prog c.proc) args
      s.srv.table = true

theorem handleOne_unperformed
    {s : Rpc σ} {dg : Datagram σ} {c : RpcCall} {args : Bytes}
    (hparse : rpcParseCall dg.data = some (c, args)) (hnot : ¬ Performed os ex s dg c args) :
    (handleOne (gnRoutes os ex) s dg).1.srv.world = dg.outside s.srv.world := by
  cases hroute : matchRoute (gnRoutes os ex) c with
  | none =>
      unfold handleOne
      simp only [hparse, hroute]
  | some r =>
      by_cases hhit : r.cache = true ∧ drcLookup s.drc dg.peer c.xid dg.now ≠ none
      · obtain ⟨hcache, hlook⟩ := hhit
        obtain ⟨hit, hhit⟩ := Option.ne_none_iff_exists'.mp hlook
        rw [handleOne_hit (cachedXid_of_route hparse hroute hcache) hhit]
        rfl
      · have hmiss : r.cache = true → drcLookup s.drc dg.peer c.xid dg.now = none := by
          intro hcache
          by_contra hlook
          exact hhit ⟨hcache, hlook⟩
        rw [(handleOne_run hparse hroute hmiss).1]
        exact runRoute_unread hroute fun hread => hnot ⟨r, hroute, hmiss, hread⟩

theorem handleOne_replays
    (hroot : ex.root.length ≤ 1023) {s : Rpc σ} (hdrc : Replays s.drc) (dg : Datagram σ) :
    Replays (handleOne (gnRoutes os ex) s dg).1.drc := by
  apply handleOne_entries_hold hdrc
  intro xid reply hxid hsent
  obtain ⟨c, args, r, hparse, -, -, rfl⟩ := cachedXid_eq_some hxid
  rcases handleOne_sent hroot hdrc hparse with ⟨-, sent, hsent', hprefix⟩ | ⟨-, hsent'⟩
  · rw [hsent] at hsent'
    rw [Option.some.inj hsent']
    exact hprefix
  · rw [hsent] at hsent'
    exact absurd hsent' (by simp)

theorem serve_replays
    (hroot : ex.root.length ≤ 1023) {s : Rpc σ} (hdrc : Replays s.drc)
    (dgs : List (Datagram σ)) : Replays (serve (gnRoutes os ex) s dgs).drc := by
  induction dgs generalizing s with
  | nil => exact hdrc
  | cons dg dgs ih => exact ih (handleOne_replays hroot hdrc dg)

end Datagrams

theorem fhSetRoot_length (abs : Bytes) : (fhSetRoot abs).length ≤ 1023 := by
  have hroot := (trimSlashes_suffix (abs.take 1023).reverse).length_le
  rw [List.length_reverse, List.length_take] at hroot
  unfold fhSetRoot
  rw [List.length_reverse]
  omega

/-- Whatever the server has been through: a call it can parse is answered,
with its own transaction id, exactly when it asks for a procedure the server
does not have, or the cache answers it, or its arguments can be read; nothing
is sent otherwise. -/
theorem call_answered_iff
    {σ : Type} (os : Os σ) (port : ℕ) (abs : Bytes) (w : σ) (dgs : List (Datagram σ))
    (dg : Datagram σ) (c : RpcCall) (args : Bytes)
    (hparse : rpcParseCall dg.data = some (c, args)) :
    ((∃ reply, (handleOne (gnRoutes os ⟨fhSetRoot abs, port⟩)
        (serve (gnRoutes os ⟨fhSetRoot abs, port⟩) (Rpc.start w) dgs) dg).2.sent =
          some reply ∧ be32 c.xid <+: reply) ↔
      Heard os ⟨fhSetRoot abs, port⟩
        (serve (gnRoutes os ⟨fhSetRoot abs, port⟩) (Rpc.start w) dgs) dg c args) ∧
    (¬ Heard os ⟨fhSetRoot abs, port⟩
        (serve (gnRoutes os ⟨fhSetRoot abs, port⟩) (Rpc.start w) dgs) dg c args →
      (handleOne (gnRoutes os ⟨fhSetRoot abs, port⟩)
        (serve (gnRoutes os ⟨fhSetRoot abs, port⟩) (Rpc.start w) dgs) dg).2.sent = none) := by
  have hroot : (⟨fhSetRoot abs, port⟩ : Export).root.length ≤ 1023 := fhSetRoot_length abs
  have hdrc : Replays (serve (gnRoutes os ⟨fhSetRoot abs, port⟩) (Rpc.start w) dgs).drc :=
    serve_replays hroot Replays.init dgs
  rcases handleOne_sent hroot hdrc hparse with ⟨hheard, hsent⟩ | ⟨hheard, hsent⟩
  · exact ⟨⟨fun _ => hheard, fun _ => hsent⟩, fun h => absurd hheard h⟩
  · refine ⟨⟨?_, fun h => absurd h hheard⟩, fun _ => hsent⟩
    rintro ⟨reply, hreply, -⟩
    rw [hsent] at hreply
    exact absurd hreply (by simp)

/-- The removal of a file below the root, from a mounted client. -/
theorem call_answered_remove :
    ∃ reply, (handleOne (gnRoutes flatOs ⟨fhSetRoot (ascii "/r"), 2049⟩)
      (serve (gnRoutes flatOs ⟨fhSetRoot (ascii "/r"), 2049⟩) (Rpc.start [ascii "/r/a"])
        [mountCall]) (removeCall 100)).2.sent = some reply ∧ be32 7 <+: reply := by
  apply (call_answered_iff flatOs 2049 (ascii "/r") [ascii "/r/a"] [mountCall]
    (removeCall 100) ⟨7, nfsProg, nfsVers, 10⟩
    (issue (ascii "/r") Table.empty (ascii "/r") ++ counted (ascii "a"))
    (by decide +kernel)).1.mpr
  have hread : readable (flatOs.view [ascii "/r/a"]) (ascii "/r") [.fh, .text 256]
      (issue (ascii "/r") Table.empty (ascii "/r") ++ counted (ascii "a"))
      (serve (gnRoutes flatOs ⟨fhSetRoot (ascii "/r"), 2049⟩) (Rpc.start [ascii "/r/a"])
        [mountCall]).srv.table = true := by
    decide +kernel
  exact Or.inr hread

/-- A lookup of a name one byte longer than a name may be. -/
def longLookup : Datagram (List Bytes) :=
  ⟨⟨1, 1023⟩, callHead 9 nfsProg nfsVers 4 ++
    issue (ascii "/r") Table.empty (ascii "/r") ++ counted (List.replicate 256 97), id,
    91, 91⟩

/-- The server accepts the header of the call and sends nothing. -/
theorem long_name_unanswered :
    (rpcParseCall longLookup.data).map Prod.fst = some ⟨9, nfsProg, nfsVers, 4⟩ ∧
      (handleOne (gnRoutes flatOs ⟨fhSetRoot (ascii "/r"), 2049⟩)
        (serve (gnRoutes flatOs ⟨fhSetRoot (ascii "/r"), 2049⟩) (Rpc.start [])
          [mountCall]) longLookup).2.sent = none := by
  refine ⟨?_, ?_⟩
  · decide +kernel
  · decide +kernel

end GrandCross
