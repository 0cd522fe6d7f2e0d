import GrandCross.DupCache
import GrandCross.ReadDir

/-!
# A whole scan of a directory

A client starts at cookie 0 and passes the last cookie it received until the
reply carries the end-of-directory flag.  Over an unchanged directory the scan
ends and the pages together are the listable entries.
-/

namespace GrandCross

open CText EarlyExit

section Scan

variable {σ : Type} (os : Os σ) (ex : Export)

/-- A scan with the given counts, from the `k`-th call on, in at most the given
number of calls. -/
def scan (fh : Bytes) (xids : ℕ → ℕ) (counts : ℕ → UInt32) :
    ℕ → Srv σ → ℕ → ℕ → Option (List Page)
  | 0, _, _, _ => none
  | calls + 1, srv, k, cookie =>
      match askReaddir os ex (xids k) fh cookie (counts k).toNat srv with
      | (none, _) => none
      | (some page, srv) =>
          if page.eof then some [page]
          else
            (scan fh xids counts calls srv (k + 1)
              (lastCookie cookie page.entries)).map (page :: ·)

/-- A handle that resolves to a directory with the given names, without a read
error, as a scan sees it. -/
structure Scannable (srv : Srv σ) (fh path : Bytes) (stream : DirStream) : Prop where
  size : fh.length = fhSize
  resolves : fhToPath (os.view srv.world) ex.root srv.table fh =
    (some path, srv.table)
  opens : (os.view srv.world).opendir path = .ok stream
  errno : stream.errno = 0
  short : ∀ name ∈ stream.names, name.length ≤ 255
  few : stream.names.length < 2 ^ 32

variable {os ex}

/-- One call of a scan: the page is the next part of what is left. -/
theorem Scannable.ask
    {srv : Srv σ} {fh path : Bytes} {stream : DirStream}
    (h : Scannable os ex srv fh path stream) {cookie : ℕ}
    (hcookie : cookie < 2 ^ 32) (count : UInt32) (xid : ℕ) :
    ∃ page, askReaddir os ex xid fh cookie count.toNat srv = (some page, srv) ∧
      ((encodeEntries page.entries).length ≤ min count.toNat rdMaxData ∨
        page.entries.length = 1) ∧
      (page.eof = true → page.entries =
        listed (os.view srv.world) ex.root path cookie
          (stream.names.drop cookie)) ∧
      (page.eof = false → page.entries ≠ [] ∧
        cookie < lastCookie cookie page.entries ∧
        lastCookie cookie page.entries < stream.names.length ∧
        listed (os.view srv.world) ex.root path cookie
            (stream.names.drop cookie) =
          page.entries ++ listed (os.view srv.world) ex.root path
            (lastCookie cookie page.entries)
            (stream.names.drop (lastCookie cookie page.entries))) := by
  have hfew := h.few
  have hlen : cookie + (stream.names.drop cookie).length < 2 ^ 32 := by
    rw [List.length_drop]
    omega
  have hask := askReaddir_eq h.size h.resolves hcookie count.toNat_lt h.opens h.errno
    h.short xid
  have hsize := pageOf_size (os.view srv.world) ex.root path cookie
    (min count.toNat rdMaxData) stream.names 0 0
  rw [pageOf_skip cookie _ _ 0 0 (by omega) hcookie, Nat.sub_zero] at hask hsize
  cases hpage : pageOf (os.view srv.world) ex.root path cookie
      (min count.toNat rdMaxData) (stream.names.drop cookie) cookie 0 with
  | mk es done =>
      rw [hpage] at hask hsize
      refine ⟨⟨es, done⟩, hask, ?_, ?_, ?_⟩
      · rcases hsize with hsmall | ⟨-, hone⟩
        · left
          simpa using hsmall
        · exact Or.inr hone
      · rintro (rfl : done = true)
        exact pageOf_done le_rfl hlen hpage
      · rintro (rfl : done = false)
        have hne := pageOf_progress le_rfl hlen hpage
        have hgrows := (pageOf_lastCookie le_rfl hlen hpage hne).1
        have hmore := pageOf_lastCookie_lt le_rfl hlen hpage
        have hopen := pageOf_open le_rfl hlen hpage
        rw [List.length_drop] at hmore
        rw [List.drop_drop, show cookie + (lastCookie cookie es - cookie) =
          lastCookie cookie es by omega] at hopen
        have hlt : lastCookie cookie es < stream.names.length := by omega
        exact ⟨hne, hgrows, hlt, hopen⟩

/-- The pages of a complete scan that still has `todo` to deliver. -/
structure Scanned (counts : ℕ → UInt32) (k : ℕ) (todo : List DirEntry)
    (pages : List Page) : Prop where
  all : pages.flatMap Page.entries = todo
  ends : ∃ last, pages.getLast? = some last ∧ last.eof = true
  progress : ∀ page ∈ pages.dropLast, page.eof = false ∧ page.entries ≠ []
  bounded : ∀ (i : ℕ) (page : Page), pages[i]? = some page →
    (encodeEntries page.entries).length ≤ min (counts (k + i)).toNat rdMaxData ∨
      page.entries.length = 1

theorem Scannable.scan
    {srv : Srv σ} {fh path : Bytes} {stream : DirStream}
    (h : Scannable os ex srv fh path stream) (xids : ℕ → ℕ)
    (counts : ℕ → UInt32) (calls k cookie : ℕ)
    (hcookie : cookie ≤ stream.names.length)
    (hcalls : stream.names.length - cookie < calls) :
    ∃ pages, scan os ex fh xids counts calls srv k cookie = some pages ∧
      Scanned counts k (listed (os.view srv.world) ex.root path cookie
        (stream.names.drop cookie)) pages := by
  induction calls generalizing k cookie with
  | zero => omega
  | succ calls ih =>
      have hword : cookie < 2 ^ 32 := lt_of_le_of_lt hcookie h.few
      obtain ⟨page, hask, hbound, hlast, hmore⟩ := h.ask hword (counts k) (xids k)
      unfold GrandCross.scan
      simp only [hask]
      cases heof : page.eof with
      | true =>
          refine ⟨[page], by simp, ?_, ⟨page, rfl, heof⟩, by simp, ?_⟩
          · simpa using hlast heof
          · intro i p hp
            cases i with
            | zero =>
                simp only [List.getElem?_cons_zero, Option.some.injEq] at hp
                subst hp
                exact hbound
            | succ i => simp at hp
      | false =>
          obtain ⟨hne, hgrows, hlt, hsplit⟩ := hmore heof
          obtain ⟨pages, hscan, hpages⟩ := ih (k + 1) _ hlt.le (by omega)
          have hsome : pages ≠ [] := by
            obtain ⟨last, hlast, -⟩ := hpages.ends
            intro hnil
            simp [hnil] at hlast
          refine ⟨page :: pages, by simp [hscan], ?_, ?_, ?_, ?_⟩
          · rw [List.flatMap_cons, hpages.all, hsplit]
          · obtain ⟨last, hlast, hend⟩ := hpages.ends
            refine ⟨last, ?_, hend⟩
            rw [List.getLast?_cons_of_ne_nil hsome]
            exact hlast
          · rw [List.dropLast_cons_of_ne_nil hsome]
            intro p hp
            rcases List.mem_cons.mp hp with rfl | hp
            · exact ⟨heof, hne⟩
            · exact hpages.progress p hp
          · intro i p hp
            cases i with
            | zero =>
                simp only [List.getElem?_cons_zero, Option.some.injEq] at hp
                subst hp
                exact hbound
            | succ i =>
                rw [List.getElem?_cons_succ] at hp
                have hi := hpages.bounded i p hp
                rwa [show k + 1 + i = k + (i + 1) by omega] at hi

/-- Every scan ends, delivers every listable entry once and in order, makes
progress with every page and keeps every page within its count. -/
theorem readdir_scan_complete
    {srv : Srv σ} {fh path : Bytes} {stream : DirStream}
    (h : Scannable os ex srv fh path stream) (xids : ℕ → ℕ)
    (counts : ℕ → UInt32) :
    ∃ pages, scan os ex fh xids counts (stream.names.length + 1) srv 0 0 =
        some pages ∧
      Scanned counts 0 (listed (os.view srv.world) ex.root path 0 stream.names)
        pages :=
  h.scan xids counts (stream.names.length + 1) 0 0 (by omega) (by omega)

end Scan

/-! ## A directory of three files -/

def streamOf (names : List Bytes) : DirStream where
  names := names.filter fun name => NameOk name
  errno := 0
  namesOk := by
    intro name hname
    exact of_decide_eq_true (List.mem_filter.mp hname).2

/-- A file system with one directory, `/r`, of plain files. -/
def dirOs : Os (List Bytes) :=
  { flatOs with
    view := fun w =>
      { noFs with
        lstat := fun path =>
          if (w.map (ascii "/r/" ++ ·)).contains path then .ok (plainStat 0o100644 1)
          else .error 2
        opendir := fun path =>
          if path = ascii "/r" then .ok (streamOf w) else .error 20 }
    unlink := fun w path =>
      if (w.map (ascii "/r/" ++ ·)).contains path then (.ok (), w.erase (path.drop 3))
      else (.error 2, w) }

def dirFh : Bytes := issue (ascii "/r") Table.empty (ascii "/r")

def dirSrv (names : List Bytes) : Srv (List Bytes) :=
  ⟨names, (intern (ascii "/r") Table.empty (ascii "/r")).2⟩

def threeNames : List Bytes := [ascii "a", ascii "bb", ascii "ccc"]

theorem threeNames_scannable :
    Scannable dirOs flatExport (dirSrv threeNames) dirFh (ascii "/r")
      (streamOf threeNames) where
  size := rfl
  resolves := fhToPath_fast (by decide) (by decide)
  opens := rfl
  errno := rfl
  short := by decide
  few := by decide

theorem readdir_scan_three :
    ∃ pages, scan dirOs flatExport dirFh id (fun _ => 20)
        ((streamOf threeNames).names.length + 1) (dirSrv threeNames) 0 0 =
          some pages ∧
      Scanned (fun _ => 20) 0
        (listed (dirOs.view threeNames) (ascii "/r") (ascii "/r") 0
          (streamOf threeNames).names) pages :=
  readdir_scan_complete threeNames_scannable id fun _ => 20

end GrandCross
