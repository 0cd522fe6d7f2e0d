import GrandCross.HandleRuns
import GrandCross.NfsTriples

/-!
# READDIR paging

A READDIR reply is a page of directory entries.  The page is computed without
the encoder first; the loop of `nfs_readdir` writes exactly its encoding, and
a client reads it back.  Over an unchanged directory the pages of a scan are
the listable entries, each once and in order.
-/

namespace GrandCross

open CText EarlyExit

structure DirEntry where
  fileid : ℕ
  name : Bytes
  cookie : ℕ
  deriving DecidableEq

/-- Value-follows, file id, name and cookie. -/
def encodeEntry (e : DirEntry) : Bytes :=
  be32 1 ++ (be32 e.fileid ++ (counted e.name ++ be32 e.cookie))

def encodeEntries (es : List DirEntry) : Bytes := es.flatMap encodeEntry

/-! ## Pages -/

section Pages

variable (fs : FsView) (root path : Bytes)

/-- The entry a name is answered with, if it can be joined and `lstat`
finds it. -/
def entryFor (name : Bytes) (idx : ℕ) : Option DirEntry :=
  match joinChild root path name pathMax with
  | none => none
  | some child =>
      match fs.lstat child with
      | .error _ => none
      | .ok st => some ⟨st.ino % 2 ^ 32, name, idx % 2 ^ 32⟩

/-- The listable entries of the names behind the first `idx`. -/
def listed : ℕ → List Bytes → List DirEntry
  | _, [] => []
  | idx, name :: names =>
      (entryFor fs root path name (idx + 1)).toList ++ listed (idx + 1) names

/-- The entries of one reply, and whether the directory was read to its
end. -/
def pageOf (cookie cap : ℕ) : List Bytes → ℕ → ℕ → List DirEntry × Bool
  | [], _, _ => ([], true)
  | name :: names, idx, dirbytes =>
      if (idx + 1) % 2 ^ 32 ≤ cookie then pageOf cookie cap names (idx + 1) dirbytes
      else if 0 < dirbytes ∧ cap < dirbytes + entryBytes name then ([], false)
      else
        match entryFor fs root path name (idx + 1) with
        | none => pageOf cookie cap names (idx + 1) dirbytes
        | some e =>
            let r := pageOf cookie cap names (idx + 1) (dirbytes + entryBytes name)
            (e :: r.1, r.2)

variable {fs root path}

theorem entryFor_name
    {name : Bytes} {idx : ℕ} {e : DirEntry}
    (h : entryFor fs root path name idx = some e) :
    e.name = name ∧ e.cookie = idx % 2 ^ 32 := by
  unfold entryFor at h
  cases hjoin : joinChild root path name pathMax with
  | none => simp [hjoin] at h
  | some child =>
      cases hstat : fs.lstat child with
      | error n => simp [hjoin, hstat] at h
      | ok st =>
          simp only [hjoin, hstat, Option.some.injEq] at h
          subst h
          exact ⟨rfl, rfl⟩

theorem entryBytes_eq (name : Bytes) :
    entryBytes name = 16 + name.length + padOf name.length := by
  unfold entryBytes padOf
  omega

theorem encodeEntry_length (e : DirEntry) :
    (encodeEntry e).length = entryBytes e.name := by
  rw [entryBytes_eq]
  simp only [encodeEntry, List.length_append, be32_length, counted_length]
  omega

theorem encodeEntries_cons (e : DirEntry) (es : List DirEntry) :
    encodeEntries (e :: es) = encodeEntry e ++ encodeEntries es := rfl

variable (fs root path) in
/-- The directory data of a page stays within the cap, counted from what is
there already; only a page of one entry may be larger. -/
theorem pageOf_size
    (cookie cap : ℕ) (names : List Bytes) (idx dirbytes : ℕ) :
    dirbytes + (encodeEntries (pageOf fs root path cookie cap names idx
        dirbytes).1).length ≤ max cap dirbytes ∨
      (dirbytes = 0 ∧
        (pageOf fs root path cookie cap names idx dirbytes).1.length = 1) := by
  induction names generalizing idx dirbytes with
  | nil =>
      left
      simp [pageOf, encodeEntries]
  | cons name names ih =>
      unfold pageOf
      split_ifs with hskip hfull
      · exact ih _ _
      · left
        simp [encodeEntries]
      · cases he : entryFor fs root path name (idx + 1) with
        | none => exact ih _ _
        | some e =>
            have hname := (entryFor_name he).1
            have hpos : 0 < entryBytes name := by
              unfold entryBytes
              omega
            have hrest := ih (idx + 1) (dirbytes + entryBytes name)
            simp only [encodeEntries_cons, List.length_append, encodeEntry_length,
              hname, List.length_cons]
            rcases hrest with hrest | ⟨hzero, -⟩
            · by_cases hcap : dirbytes + entryBytes name ≤ cap
              · left
                omega
              · have hdb : dirbytes = 0 := by omega
                right
                refine ⟨hdb, ?_⟩
                have hnil : (encodeEntries (pageOf fs root path cookie cap names
                    (idx + 1) (dirbytes + entryBytes name)).1).length = 0 := by
                  omega
                cases hpage : (pageOf fs root path cookie cap names (idx + 1)
                    (dirbytes + entryBytes name)).1 with
                | nil => rfl
                | cons f fs =>
                    have hf : 16 ≤ (encodeEntry f).length := by
                      rw [encodeEntry_length, entryBytes_eq]
                      omega
                    rw [hpage, encodeEntries_cons, List.length_append] at hnil
                    omega
            · omega

/-! ## The loop writes the page -/

theorem putEntry_ok
    {bytes : Bytes} {cap : ℕ} (st : Stat) {name : Bytes} (idx : ℕ)
    (hroom : bytes.length + entryBytes name ≤ cap) :
    putEntry ⟨bytes, cap, false⟩ st name idx =
      ⟨bytes ++ encodeEntry ⟨st.ino % 2 ^ 32, name, idx % 2 ^ 32⟩, cap, false⟩ := by
  rw [entryBytes_eq] at hroom
  have hcounted := counted_length name
  unfold putEntry
  rw [xdrPutU32_ok, xdrPutU32_ok, xdrPutBytes_ok, xdrPutU32_ok]
  · simp only [encodeEntry, be32_mod, List.append_assoc]
  · simp only [List.length_append, be32_length]
    omega
  · simp only [List.length_append, be32_length]
    omega
  · simp only [List.length_append, be32_length]
    omega
  · omega

theorem readdirLoop_eq
    (cookie cap : ℕ) (names : List Bytes) (idx dirbytes : ℕ) {bytes : Bytes}
    {size : ℕ}
    (hroom : bytes.length + (encodeEntries (pageOf fs root path cookie cap
      names idx dirbytes).1).length ≤ size) :
    readdirLoop fs root path cookie cap names idx dirbytes ⟨bytes, size, false⟩ =
      (⟨bytes ++ encodeEntries (pageOf fs root path cookie cap names idx
          dirbytes).1, size, false⟩,
        (pageOf fs root path cookie cap names idx dirbytes).2) := by
  induction names generalizing idx dirbytes bytes with
  | nil => simp [readdirLoop, pageOf, encodeEntries]
  | cons name names ih =>
      unfold readdirLoop
      unfold pageOf at hroom ⊢
      split_ifs at hroom ⊢ with hskip hfull
      · exact ih _ _ hroom
      · simp [encodeEntries]
      · unfold entryFor at hroom ⊢
        cases hjoin : joinChild root path name pathMax with
        | none =>
            simp only [hjoin] at hroom ⊢
            exact ih _ _ hroom
        | some child =>
            simp only [hjoin] at hroom ⊢
            cases hstat : fs.lstat child with
            | error e =>
                simp only [hstat] at hroom ⊢
                exact ih _ _ hroom
            | ok st =>
                simp only [hstat, encodeEntries_cons, List.length_append,
                  encodeEntry_length] at hroom ⊢
                rw [putEntry_ok st (idx + 1) (by omega), ih]
                · simp
                · simp only [List.length_append, encodeEntry_length]
                  omega

/-! ## What a page leaves for the next one -/

/-- The cookie a client passes on: that of the last entry it received. -/
def lastCookie (cookie : ℕ) (es : List DirEntry) : ℕ :=
  es.foldl (fun _ e => e.cookie) cookie

theorem lastCookie_of_ne_nil
    {es : List DirEntry} (hne : es ≠ []) (c d : ℕ) :
    lastCookie c es = lastCookie d es := by
  cases es with
  | nil => exact absurd rfl hne
  | cons e es => rfl

/-- The names up to the cookie are passed over. -/
theorem pageOf_skip
    (cookie cap : ℕ) (names : List Bytes) (idx dirbytes : ℕ)
    (hidx : idx ≤ cookie) (hcookie : cookie < 2 ^ 32) :
    pageOf fs root path cookie cap names idx dirbytes =
      pageOf fs root path cookie cap (names.drop (cookie - idx)) cookie
        dirbytes := by
  induction names generalizing idx with
  | nil => simp [pageOf]
  | cons name names ih =>
      by_cases heq : idx = cookie
      · subst heq
        simp
      · have hskip : (idx + 1) % 2 ^ 32 ≤ cookie := by
          rw [Nat.mod_eq_of_lt (by omega)]
          omega
        have hdrop : (name :: names).drop (cookie - idx) =
            names.drop (cookie - (idx + 1)) := by
          rw [show cookie - idx = cookie - (idx + 1) + 1 by omega]
          rfl
        rw [pageOf, if_pos hskip, hdrop]
        exact ih (idx + 1) (by omega)

section Behind

variable {cookie cap : ℕ}

/-- What the loop does with a name behind the cookie. -/
theorem pageOf_cases
    {name : Bytes} {names : List Bytes} {idx dirbytes : ℕ} {es : List DirEntry}
    {done : Bool} (hidx : cookie ≤ idx) (hfew : idx + (name :: names).length < 2 ^ 32)
    (hpage : pageOf fs root path cookie cap (name :: names) idx dirbytes =
      (es, done)) :
    (es = [] ∧ done = false ∧ 0 < dirbytes) ∨
    (entryFor fs root path name (idx + 1) = none ∧
      pageOf fs root path cookie cap names (idx + 1) dirbytes = (es, done)) ∨
    ∃ e rest, entryFor fs root path name (idx + 1) = some e ∧ es = e :: rest ∧
      e.cookie = idx + 1 ∧
      pageOf fs root path cookie cap names (idx + 1)
        (dirbytes + entryBytes name) = (rest, done) := by
  rw [List.length_cons] at hfew
  have hskip : ¬ (idx + 1) % 2 ^ 32 ≤ cookie := by
    rw [Nat.mod_eq_of_lt (by omega)]
    omega
  rw [pageOf, if_neg hskip] at hpage
  split_ifs at hpage with hfull
  · left
    rw [Prod.mk.injEq] at hpage
    exact ⟨hpage.1.symm, hpage.2.symm, hfull.1⟩
  · right
    cases he : entryFor fs root path name (idx + 1) with
    | none =>
        left
        simp only [he] at hpage
        exact ⟨rfl, hpage⟩
    | some e =>
        right
        simp only [he, Prod.mk.injEq] at hpage
        have hcookie := (entryFor_name he).2
        rw [Nat.mod_eq_of_lt (by omega)] at hcookie
        exact ⟨e, _, rfl, hpage.1.symm, hcookie, Prod.ext rfl hpage.2⟩

theorem pageOf_lastCookie
    {names : List Bytes} {idx dirbytes : ℕ} {es : List DirEntry} {done : Bool}
    (hidx : cookie ≤ idx) (hfew : idx + names.length < 2 ^ 32)
    (hpage : pageOf fs root path cookie cap names idx dirbytes = (es, done))
    (hne : es ≠ []) :
    idx < lastCookie idx es ∧ lastCookie idx es ≤ idx + names.length := by
  induction names generalizing idx dirbytes es with
  | nil =>
      rw [pageOf, Prod.mk.injEq] at hpage
      exact absurd hpage.1.symm hne
  | cons name names ih =>
      have hlen : (name :: names).length = names.length + 1 := rfl
      rcases pageOf_cases hidx hfew hpage with ⟨hnil, -⟩ | ⟨-, hrest⟩ |
        ⟨e, rest, -, rfl, hcookie, hrest⟩
      · exact absurd hnil hne
      · have hbounds := ih (by omega) (by omega) hrest hne
        rw [lastCookie_of_ne_nil hne idx (idx + 1)]
        omega
      · show idx < lastCookie e.cookie rest ∧ lastCookie e.cookie rest ≤ _
        rw [hcookie]
        by_cases hnil : rest = []
        · subst hnil
          simp only [lastCookie, List.foldl_nil]
          omega
        · have hbounds := ih (by omega) (by omega) hrest hnil
          omega

/-- A page that was cut has a name behind it. -/
theorem pageOf_lastCookie_lt
    {names : List Bytes} {idx dirbytes : ℕ} {es : List DirEntry}
    (hidx : cookie ≤ idx) (hfew : idx + names.length < 2 ^ 32)
    (hpage : pageOf fs root path cookie cap names idx dirbytes = (es, false)) :
    lastCookie idx es < idx + names.length := by
  induction names generalizing idx dirbytes es with
  | nil =>
      rw [pageOf, Prod.mk.injEq] at hpage
      exact absurd hpage.2 (by decide)
  | cons name names ih =>
      have hlen : (name :: names).length = names.length + 1 := rfl
      rcases pageOf_cases hidx hfew hpage with ⟨rfl, -⟩ | ⟨-, hrest⟩ |
        ⟨e, rest, -, rfl, hcookie, hrest⟩
      · simp only [lastCookie, List.foldl_nil]
        omega
      · have hbound := ih (by omega) (by omega) hrest
        by_cases hnil : es = []
        · subst hnil
          simp only [lastCookie, List.foldl_nil]
          omega
        · rw [lastCookie_of_ne_nil hnil idx (idx + 1)]
          omega
      · have hbound := ih (by omega) (by omega) hrest
        show lastCookie e.cookie rest < _
        rw [hcookie]
        omega

theorem pageOf_done
    {names : List Bytes} {idx dirbytes : ℕ} {es : List DirEntry}
    (hidx : cookie ≤ idx) (hfew : idx + names.length < 2 ^ 32)
    (hpage : pageOf fs root path cookie cap names idx dirbytes = (es, true)) :
    es = listed fs root path idx names := by
  induction names generalizing idx dirbytes es with
  | nil =>
      rw [pageOf, Prod.mk.injEq] at hpage
      exact hpage.1.symm
  | cons name names ih =>
      have hlen : (name :: names).length = names.length + 1 := rfl
      rcases pageOf_cases hidx hfew hpage with ⟨-, hfalse, -⟩ | ⟨he, hrest⟩ |
        ⟨e, rest, he, rfl, -, hrest⟩
      · exact absurd hfalse (by decide)
      · rw [listed, he, ih (by omega) (by omega) hrest]
        rfl
      · rw [listed, he, ih (by omega) (by omega) hrest]
        rfl

/-- A page that was cut leaves exactly the entries behind its last cookie. -/
theorem pageOf_open
    {names : List Bytes} {idx dirbytes : ℕ} {es : List DirEntry}
    (hidx : cookie ≤ idx) (hfew : idx + names.length < 2 ^ 32)
    (hpage : pageOf fs root path cookie cap names idx dirbytes = (es, false)) :
    listed fs root path idx names =
      es ++ listed fs root path (lastCookie idx es)
        (names.drop (lastCookie idx es - idx)) := by
  induction names generalizing idx dirbytes es with
  | nil =>
      rw [pageOf, Prod.mk.injEq] at hpage
      exact absurd hpage.2 (by decide)
  | cons name names ih =>
      have hlen : (name :: names).length = names.length + 1 := rfl
      have hdrop : ∀ c, idx + 1 ≤ c →
          (name :: names).drop (c - idx) = names.drop (c - (idx + 1)) := by
        intro c hc
        rw [show c - idx = c - (idx + 1) + 1 by omega]
        rfl
      rcases pageOf_cases hidx hfew hpage with ⟨rfl, -⟩ | ⟨he, hrest⟩ |
        ⟨e, rest, he, rfl, hcookie, hrest⟩
      · simp [lastCookie]
      · by_cases hnil : es = []
        · subst hnil
          simp [lastCookie]
        · have hbounds := pageOf_lastCookie (by omega) (by omega) hrest hnil
          have htail := ih (by omega) (by omega) hrest
          rw [lastCookie_of_ne_nil hnil (idx + 1) idx] at hbounds htail
          rw [hdrop _ (by omega), ← htail, listed, he]
          rfl
      · have htail := ih (by omega) (by omega) hrest
        have hlast : lastCookie idx (e :: rest) = lastCookie (idx + 1) rest := by
          show lastCookie e.cookie rest = _
          rw [hcookie]
        have hbound : idx + 1 ≤ lastCookie (idx + 1) rest := by
          by_cases hnil : rest = []
          · rw [hnil]
            exact le_rfl
          · exact (pageOf_lastCookie (by omega) (by omega) hrest hnil).1.le
        rw [hlast, hdrop _ hbound, List.cons_append, ← htail, listed, he]
        rfl

/-- A page that was cut has an entry: the first one is never too large. -/
theorem pageOf_progress
    {names : List Bytes} {idx : ℕ} {es : List DirEntry}
    (hidx : cookie ≤ idx) (hfew : idx + names.length < 2 ^ 32)
    (hpage : pageOf fs root path cookie cap names idx 0 = (es, false)) :
    es ≠ [] := by
  induction names generalizing idx es with
  | nil =>
      rw [pageOf, Prod.mk.injEq] at hpage
      exact absurd hpage.2 (by decide)
  | cons name names ih =>
      have hlen : (name :: names).length = names.length + 1 := rfl
      rcases pageOf_cases hidx hfew hpage with ⟨-, -, hpos⟩ | ⟨-, hrest⟩ |
        ⟨e, rest, -, rfl, -⟩
      · omega
      · exact ih (by omega) (by omega) hrest
      · simp

end Behind

end Pages

/-! ## The client's side -/

structure Page where
  entries : List DirEntry
  eof : Bool
  deriving DecidableEq

/-- Read entries until none follows, then the end-of-directory flag. -/
def decodeEntries : ℕ → Bytes → Option Page
  | 0, _ => none
  | n + 1, input => do
      let (follows, rest) ← xdrGetU32 input
      if follows = 0 then do
        let (eof, _) ← xdrGetU32 rest
        pure ⟨[], eof = 1⟩
      else do
        let (fileid, rest) ← xdrGetU32 rest
        let (name, rest) ← xdrGetBytes rest
        let (cookie, rest) ← xdrGetU32 rest
        let page ← decodeEntries n rest
        pure ⟨⟨fileid, name, cookie⟩ :: page.entries, page.eof⟩

/-- A READDIR reply behind its RPC header; `none` for an error status. -/
def decodePage (reply : Bytes) : Option Page := do
  let (status, rest) ← xdrGetU32 (reply.drop 24)
  if status = 0 then decodeEntries (rest.length + 1) rest else none

/-- The fields fit their words. -/
def DirEntry.Fits (e : DirEntry) : Prop :=
  e.fileid < 2 ^ 32 ∧ e.cookie < 2 ^ 32 ∧ e.name.length < 2 ^ 32

theorem decodeEntries_entry
    {n follows fileid cookie : ℕ} {input name r₁ r₂ r₃ r₄ : Bytes} {page : Page}
    (hfollows : xdrGetU32 input = some (follows, r₁)) (hmore : follows ≠ 0)
    (hfileid : xdrGetU32 r₁ = some (fileid, r₂))
    (hname : xdrGetBytes r₂ = some (name, r₃))
    (hcookie : xdrGetU32 r₃ = some (cookie, r₄))
    (hrest : decodeEntries n r₄ = some page) :
    decodeEntries (n + 1) input =
      some ⟨⟨fileid, name, cookie⟩ :: page.entries, page.eof⟩ := by
  simp [decodeEntries, hfollows, hmore, hfileid, hname, hcookie, hrest]

theorem decodeEntries_end
    {n eof : ℕ} {input r₁ r₂ : Bytes} (hfollows : xdrGetU32 input = some (0, r₁))
    (heof : xdrGetU32 r₁ = some (eof, r₂)) :
    decodeEntries (n + 1) input = some ⟨[], eof = 1⟩ := by
  simp [decodeEntries, hfollows, heof]

theorem decodeEntries_encode
    (es : List DirEntry) (hes : ∀ e ∈ es, e.Fits) {eof : ℕ} (heof : eof < 2 ^ 32)
    (n : ℕ) (hn : es.length < n) :
    decodeEntries n (encodeEntries es ++ (be32 0 ++ be32 eof)) =
      some ⟨es, eof = 1⟩ := by
  have hword : xdrGetU32 (be32 eof) = some (eof, []) := by
    have h := xdrGetU32_word heof []
    rwa [List.append_nil] at h
  induction es generalizing n with
  | nil =>
      obtain ⟨m, rfl⟩ := Nat.exists_eq_succ_of_ne_zero (by omega : n ≠ 0)
      exact decodeEntries_end (xdrGetU32_word (by norm_num) _) hword
  | cons e es ih =>
      obtain ⟨m, rfl⟩ := Nat.exists_eq_succ_of_ne_zero (by omega : n ≠ 0)
      obtain ⟨hfileid, hcookie, hname⟩ := hes e (by simp)
      have hrest := ih (fun f hf => hes f (by simp [hf])) m (by simpa using hn)
      rw [encodeEntries_cons]
      simp only [encodeEntry, List.append_assoc]
      exact decodeEntries_entry (xdrGetU32_word (by norm_num) _) one_ne_zero
        (xdrGetU32_word hfileid _) (xdrGetBytes_counted hname _)
        (xdrGetU32_word hcookie _) hrest

section Ask

variable {σ : Type} (os : Os σ) (ex : Export)

def readdirRoute : Route σ := ⟨nfsProg, nfsVers, 16, nfsReaddir os ex, false⟩

/-- One READDIR call: the page the client reads and the state the server is
left in. -/
def askReaddir (xid : ℕ) (fh : Bytes) (cookie count : ℕ) (srv : Srv σ) :
    Option Page × Srv σ :=
  let res := runRoute (readdirRoute os ex) ⟨xid, nfsProg, nfsVers, 16⟩
    (fh ++ (be32 cookie ++ be32 count)) srv
  ((sendable res.1).bind decodePage, res.2)

variable {os ex}

theorem exec_argFh
    {srv : Srv σ} {fh path rest : Bytes} {out : XdrOut}
    (hfh : fh.length = fhSize)
    (hres : fhToPath (os.view srv.world) ex.root srv.table fh =
      (some path, srv.table)) :
    exec (argFh os ex (fh ++ rest) out) srv = (.ok (path, rest), srv) := by
  have hget : xdrGetFixed fhSize (fh ++ rest) = some (fh, rest) := by
    rw [← hfh]
    apply xdrGetFixed_append
    rw [hfh]
    rfl
  unfold argFh
  simp only [hget, exec_bind, resolveFh, exec_act, hres]
  rfl

/-- Words that were written are read back. -/
theorem getWords_flatMap
    {words : List ℕ} (hwords : ∀ v ∈ words, v < 2 ^ 32) (rest : Bytes) :
    getWords words.length (words.flatMap be32 ++ rest) = some (words, rest) := by
  induction words with
  | nil => rfl
  | cons v words ih =>
      obtain ⟨hv, hwords⟩ := List.forall_mem_cons.mp hwords
      rw [List.flatMap_cons, List.append_assoc, List.length_cons, getWords,
        xdrGetU32_word hv, Option.bind_eq_bind, Option.bind_some]
      dsimp only
      rw [ih hwords]
      rfl

theorem getWords_two
    {v w : ℕ} (hv : v < 2 ^ 32) (hw : w < 2 ^ 32) :
    getWords 2 (be32 v ++ be32 w) = some ([v, w], []) := by
  have hwords : ∀ u ∈ [v, w], u < 2 ^ 32 := by
    intro u hu
    rcases List.mem_pair.mp hu with rfl | rfl
    · exact hv
    · exact hw
  have hread := getWords_flatMap hwords []
  simpa using hread

theorem exec_nfsReaddir
    {srv : Srv σ} {fh path : Bytes} {cookie count : ℕ} {stream : DirStream}
    {out : XdrOut} (hfh : fh.length = fhSize)
    (hres : fhToPath (os.view srv.world) ex.root srv.table fh =
      (some path, srv.table))
    (hcookie : cookie < 2 ^ 32) (hcount : count < 2 ^ 32)
    (hopen : (os.view srv.world).opendir path = .ok stream) :
    exec (nfsReaddir os ex (fh ++ (be32 cookie ++ be32 count)) out) srv =
      (.ok (readdirReply (os.view srv.world) ex.root path cookie count stream out),
        srv) := by
  have hwords : exec (orDrop (getWords 2 (be32 cookie ++ be32 count)) :
      NfsM σ (List ℕ × Bytes)) srv = (.ok ([cookie, count], []), srv) := by
    rw [getWords_two hcookie hcount]
    rfl
  unfold nfsReaddir
  rw [exec_bind, exec_argFh hfh hres]
  simp only
  rw [exec_bind, hwords]
  simp only [exec_bind, look, exec_act, hopen]
  rfl

/-- The header of a reply fills 24 bytes. -/
def headBytes (xid : ℕ) : Bytes := [xid, 1, 0, 0, 0, 0].flatMap be32

theorem replyHead_eq (xid : ℕ) :
    replyHead xid 0 (xdrInit rpcBufSize) = ⟨headBytes xid, rpcBufSize, false⟩ :=
  xdrPutWords_ok [xid, 1, 0, 0, 0, 0] (by simp [rpcBufSize])

theorem length_le_encodeEntries (es : List DirEntry) :
    es.length ≤ (encodeEntries es).length := by
  induction es with
  | nil => simp
  | cons e es ih =>
      rw [encodeEntries_cons, List.length_append, encodeEntry_length,
        entryBytes_eq, List.length_cons]
      omega

theorem decodePage_ok
    {reply rest : Bytes} (hstatus : xdrGetU32 (reply.drop 24) = some (0, rest)) :
    decodePage reply = decodeEntries (rest.length + 1) rest := by
  simp [decodePage, hstatus]

theorem decodePage_reply
    (es : List DirEntry) (hes : ∀ e ∈ es, e.Fits) {eof : ℕ} (heof : eof < 2 ^ 32)
    (xid : ℕ) :
    decodePage (headBytes xid ++ (be32 0 ++ (encodeEntries es ++
      (be32 0 ++ be32 eof)))) = some ⟨es, eof = 1⟩ := by
  have hdrop : (headBytes xid ++ (be32 0 ++ (encodeEntries es ++
      (be32 0 ++ be32 eof)))).drop 24 =
        be32 0 ++ (encodeEntries es ++ (be32 0 ++ be32 eof)) := by
    have hlen : (headBytes xid).length = 24 := rfl
    rw [← hlen, List.drop_left]
  have hstatus := xdrGetU32_word (by norm_num : 0 < 2 ^ 32)
    (encodeEntries es ++ (be32 0 ++ be32 eof))
  rw [← hdrop] at hstatus
  rw [decodePage_ok hstatus, decodeEntries_encode es hes heof]
  have hle := length_le_encodeEntries es
  rw [List.length_append]
  omega

theorem mem_pageOf
    {fs : FsView} {root path : Bytes} {cookie cap : ℕ} {names : List Bytes}
    {idx dirbytes : ℕ} {e : DirEntry}
    (he : e ∈ (pageOf fs root path cookie cap names idx dirbytes).1) :
    ∃ name ∈ names, ∃ i, entryFor fs root path name i = some e := by
  induction names generalizing idx dirbytes with
  | nil => simp [pageOf] at he
  | cons name names ih =>
      unfold pageOf at he
      split_ifs at he
      · obtain ⟨n, hn, i, hi⟩ := ih he
        exact ⟨n, by simp [hn], i, hi⟩
      · simp at he
      · cases hentry : entryFor fs root path name (idx + 1) with
        | none =>
            simp only [hentry] at he
            obtain ⟨n, hn, i, hi⟩ := ih he
            exact ⟨n, by simp [hn], i, hi⟩
        | some f =>
            simp only [hentry, List.mem_cons] at he
            rcases he with rfl | he
            · exact ⟨name, by simp, idx + 1, hentry⟩
            · obtain ⟨n, hn, i, hi⟩ := ih he
              exact ⟨n, by simp [hn], i, hi⟩

theorem entryFor_fits
    {fs : FsView} {root path name : Bytes} {idx : ℕ} {e : DirEntry}
    (hname : name.length < 2 ^ 32) (he : entryFor fs root path name idx = some e) :
    e.Fits := by
  have hfields := entryFor_name he
  refine ⟨?_, ?_, ?_⟩
  · unfold entryFor at he
    split at he
    · exact absurd he (by simp)
    · split at he
      · exact absurd he (by simp)
      · rw [← Option.some.inj he]
        exact Nat.mod_lt _ (by norm_num)
  · rw [hfields.2]
    exact Nat.mod_lt _ (by norm_num)
  · rw [hfields.1]
    exact hname

/-- The join is bounded by the path buffer, and so is the name. -/
theorem entryFor_short
    {fs : FsView} {root path name : Bytes} {idx : ℕ} {e : DirEntry}
    (he : entryFor fs root path name idx = some e) : name.length < pathMax := by
  unfold entryFor at he
  cases hjoin : joinChild root path name pathMax with
  | none => simp [hjoin] at he
  | some child =>
      unfold joinChild at hjoin
      split_ifs at hjoin with hbad hdot _ hdots
      · rw [hdot]
        decide
      · rw [hdots]
        decide
      · rw [hdots]
        decide
      · omega

section Reply

variable {fs : FsView} {root path : Bytes} {cookie count : ℕ} {stream : DirStream}

variable (fs root path cookie count stream) in
theorem encodeEntries_small :
    (encodeEntries (pageOf fs root path cookie (min count rdMaxData) stream.names
      0 0).1).length ≤ 4096 := by
  rcases pageOf_size fs root path cookie (min count rdMaxData) stream.names 0 0 with
    h | ⟨-, hone⟩
  · have hmax : rdMaxData = 4096 := rfl
    omega
  · obtain ⟨e, he⟩ := List.length_eq_one_iff.mp hone
    have hmem : e ∈ (pageOf fs root path cookie (min count rdMaxData) stream.names
        0 0).1 := by
      simp [he]
    obtain ⟨name, -, i, hi⟩ := mem_pageOf hmem
    have hlen := entryFor_short hi
    have hpath : pathMax = 1024 := rfl
    have hpad : padOf name.length < 4 := Nat.mod_lt _ (by norm_num)
    rw [he, encodeEntries_cons, List.length_append, encodeEntry_length,
      (entryFor_name hi).1, entryBytes_eq]
    simp only [encodeEntries, List.flatMap_nil, List.length_nil]
    omega

/-- The reply is the header, the status, the page, the end of the list and the
end-of-directory flag. -/
theorem readdirReply_eq (xid : ℕ) :
    readdirReply fs root path cookie count stream
        ⟨headBytes xid, rpcBufSize, false⟩ =
      ⟨headBytes xid ++ (be32 0 ++ (encodeEntries (pageOf fs root path cookie
          (min count rdMaxData) stream.names 0 0).1 ++ (be32 0 ++
          be32 (if (pageOf fs root path cookie (min count rdMaxData) stream.names
            0 0).2 ∧ stream.errno = 0 then 1 else 0)))), rpcBufSize, false⟩ := by
  have hsmall := encodeEntries_small fs root path cookie count stream
  have hhead : (headBytes xid).length = 24 := rfl
  have hbuf : rpcBufSize = 65536 := rfl
  unfold readdirReply
  rw [xdrPutU32_ok _ (by omega), readdirLoop_eq]
  · simp only
    rw [xdrPutU32_ok, xdrPutU32_ok]
    · simp only [List.append_assoc, nfsOk]
    · simp only [List.length_append, be32_length]
      omega
    · simp only [List.length_append, be32_length]
      omega
  · simp only [List.length_append, be32_length]
    omega

end Reply

/-- What a client reads from a READDIR call on a resolved directory. -/
theorem askReaddir_eq
    {srv : Srv σ} {fh path : Bytes} {cookie count : ℕ} {stream : DirStream}
    (hfh : fh.length = fhSize)
    (hres : fhToPath (os.view srv.world) ex.root srv.table fh =
      (some path, srv.table))
    (hcookie : cookie < 2 ^ 32) (hcount : count < 2 ^ 32)
    (hopen : (os.view srv.world).opendir path = .ok stream)
    (herrno : stream.errno = 0)
    (hnames : ∀ name ∈ stream.names, name.length ≤ 255) (xid : ℕ) :
    askReaddir os ex xid fh cookie count srv =
      (some ⟨(pageOf (os.view srv.world) ex.root path cookie
          (min count rdMaxData) stream.names 0 0).1,
        (pageOf (os.view srv.world) ex.root path cookie (min count rdMaxData)
          stream.names 0 0).2⟩, srv) := by
  have hrun : runRoute (readdirRoute os ex) ⟨xid, nfsProg, nfsVers, 16⟩
      (fh ++ (be32 cookie ++ be32 count)) srv =
        (some (readdirReply (os.view srv.world) ex.root path cookie count stream
          ⟨headBytes xid, rpcBufSize, false⟩), srv) := by
    unfold runRoute readdirRoute
    simp only [replyHead_eq]
    rw [exec_nfsReaddir hfh hres hcookie hcount hopen]
  have hfits : ∀ e ∈ (pageOf (os.view srv.world) ex.root path cookie
      (min count rdMaxData) stream.names 0 0).1, e.Fits := by
    intro e he
    obtain ⟨name, hname, i, hi⟩ := mem_pageOf he
    have hlen := hnames name hname
    exact entryFor_fits (by omega) hi
  unfold askReaddir
  rw [hrun, readdirReply_eq]
  simp only [sendable, Bool.false_eq_true, if_false, Option.bind_some]
  rw [decodePage_reply _ hfits (by split_ifs <;> norm_num)]
  simp [herrno]

end Ask

end GrandCross
