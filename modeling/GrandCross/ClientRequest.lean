import GrandCross.PathMap

/-!
# What the daemon reads of a request

`client/main.c` sends the mapped directory in a `CWD` line and then its
request, or hands the remote path of a transfer to `xfer.c`.  The arguments ask
for one command or one transfer.  The daemon reads exactly that if and only if
the client refuses, or no argument has a line end in it, no separating space is
lost in front of the first word and a remote path fits the line; and if no line
feed in the directory makes a command of what stands behind it.
-/

namespace GrandCross

open CText Transfer

/-! ## The request -/

/-- The configuration file, whether a session was opened and authenticated,
what the daemon offers, the directory `getcwd` gives and whether the daemon
can go to where it is mapped, and which local files can be opened. -/
structure ClientEnv where
  conf : Option Bytes
  session : Bool
  capIx : Bool
  capAsync : Bool
  getcwd : Option Bytes
  cwdOk : Bool
  opens : Bytes → Bool

/-- The lines that are written behind AUTH: those before the request, and the
request unless the client gives up. -/
structure Sent where
  before : List Bytes
  request : Option Bytes
  deriving DecidableEq

def Sent.text (s : Sent) : Bytes := (s.before ++ s.request.toList).flatMap (· ++ [lf])

def Sent.nothing : Sent := ⟨[], none⟩

/-- The request line of a run, or `none` when the client gives up before it. -/
def runRequest (env : ClientEnv) (o : ClientOpts) (cmd : Bytes) : Option Bytes :=
  if o.ix then if env.capIx then some (requestLine (ascii "RUNI ") cmd) else none
  else if env.capAsync ∨ o.async then some (requestLine (ascii "RUNA ") cmd)
  else some (requestLine (ascii "RUN ") cmd)

def cwdLine (dir : Bytes) : Bytes := requestLine (ascii "CWD ") dir

/-- `main` from `pm_cwd` on. -/
def runSent (env : ClientEnv) (o : ClientOpts) (cwd : PmResult) (cmd : Bytes) : Sent :=
  match cwd with
  | .overflow => .nothing
  | .unmapped => ⟨[], runRequest env o cmd⟩
  | .mapped dir => ⟨[cwdLine dir], if env.cwdOk then runRequest env o cmd else none⟩

def transferRequest (env : ClientEnv) (o : ClientOpts) : List Bytes → Option Bytes
  | [first, second] =>
      if o.put then
        if env.opens first then some (requestLine (ascii "PUT ") second) else none
      else some (requestLine (ascii "GET ") first)
  | _ => none

/-- `main`: what it sends behind AUTH. -/
def clientMain (env : ClientEnv) (argv : List Bytes) : Sent :=
  match clientArgs ClientOpts.start argv with
  | none => .nothing
  | some (_, []) => .nothing
  | some (o, host :: words) =>
      match env.conf with
      | none => .nothing
      | some conf =>
          if o.put ∨ o.get then
            if env.session then ⟨[], transferRequest env o words⟩ else .nothing
          else if ¬ o.ping ∧ ¬ o.stat ∧ words = [] then .nothing
          else
            match commandLine (confLoad conf confEntMax) host words with
            | none => .nothing
            | some cmd =>
                if ! env.session then .nothing
                else if o.ping then ⟨[], some (ascii "PING")⟩
                else if o.stat then ⟨[], some (ascii "STAT")⟩
                else
                  runSent env o
                    (pmCwd (confLoad conf confEntMax) host env.getcwd confValMax) cmd

/-! ## The daemon's reader -/

/-- The commands the daemon reads, until its input ends or a line is too
long. -/
def readCommands : ℕ → Source → List (Bytes × Option Bytes)
  | 0, _ => []
  | fuel + 1, src =>
      match lioGetLine lineMax src with
      | (.ok line, src) => cutAt sp (cstr line) :: readCommands fuel src
      | (_, _) => []

/-- What the daemon reads from the bytes that were sent. -/
def commandsIn (src : Source) : List (Bytes × Option Bytes) :=
  readCommands (src.pending.length + 1) src

/-! ## What the arguments ask for -/

inductive Asked where
  | run (ix : Bool) (words : List Bytes)
  | put (src path : Bytes)
  | get (path : Bytes)
  deriving DecidableEq

def Asked.verbs : Asked → List Bytes
  | .run _ _ => [ascii "RUN", ascii "RUNA", ascii "RUNI"]
  | .put _ _ => [ascii "PUT"]
  | .get _ => [ascii "GET"]

def joinWords (words : List Bytes) : Bytes := [sp].intercalate words

def Asked.arg : Asked → Bytes
  | .run _ words => joinWords words
  | .put _ path => path
  | .get path => path

/-- A leading tool alias stands for its value. -/
def expandWords (kv : List GcdsKv) (host : Bytes) : List Bytes → Option (List Bytes)
  | [] => none
  | w :: ws =>
      if w.head? = some atSign then (toolValue kv host (w.drop 1)).map (· :: ws)
      else some (w :: ws)

/-- The request of an argument vector; a ping or a status check has none. -/
def asked (env : ClientEnv) (argv : List Bytes) : Option Asked :=
  match clientArgs ClientOpts.start argv, env.conf with
  | some (o, host :: words), some conf =>
      if o.put then
        match words with
        | [src, remote] => some (.put src remote)
        | _ => none
      else if o.get then
        match words with
        | [remote, _] => some (.get remote)
        | _ => none
      else if o.ping ∨ o.stat then none
      else (expandWords (confLoad conf confEntMax) host words).map (.run o.ix)
  | _, _ => none

/-- The mapped directory that a run is asked for in. -/
def askedDir (env : ClientEnv) (argv : List Bytes) : PmResult :=
  match clientArgs ClientOpts.start argv, env.conf with
  | some (_, host :: _), some conf =>
      pmCwd (confLoad conf confEntMax) host env.getcwd confValMax
  | _, _ => .unmapped

/-- The verbs that a request of its kind is told by. -/
def Asked.kin : Asked → List Bytes
  | .run _ _ => [ascii "RUN", ascii "RUNA", ascii "RUNI"]
  | .put _ _ => [ascii "PUT", ascii "GET"]
  | .get _ => [ascii "PUT", ascii "GET"]

/-- The requests of its kind that the daemon reads. -/
def requestsIn (a : Asked) (src : Source) : List (Bytes × Option Bytes) :=
  (commandsIn src).filter fun c => a.kin.contains c.1

/-- However the text arrives, the daemon reads the request and no other of its
kind. -/
def Delivered (text : Bytes) (a : Asked) : Prop :=
  ∀ src : Source, src.Steady → src.pending = text →
    ∃ verb ∈ a.verbs, requestsIn a src = [(verb, some a.arg)]

def Undelivered (text : Bytes) (a : Asked) : Prop :=
  ∀ src : Source, src.Steady → src.pending = text → requestsIn a src = []

/-- The client refuses, and the daemon reads no request either, or what it
sends is what it was asked for. -/
def Faithful (env : ClientEnv) (argv : List Bytes) : Prop :=
  match asked env argv, (clientMain env argv).request with
  | some a, some _ => Delivered (clientMain env argv).text a
  | some a, none => Undelivered (clientMain env argv).text a
  | none, some line => line = ascii "PING" ∨ line = ascii "STAT"
  | none, none => True

/-- What the client checks before it sends: the session, the directory and the
capability, the local file, and that the joined words are short. -/
def Asked.Refused (env : ClientEnv) (cwd : PmResult) : Asked → Prop
  | .run ix words => env.session = false ∨
      1016 ≤ (joinWords (words.dropWhile List.isEmpty)).length ∨ cwd = .overflow ∨
      ((∃ dir, cwd = .mapped dir) ∧ env.cwdOk = false) ∨ (ix = true ∧ env.capIx = false)
  | .put src _ => env.session = false ∨ env.opens src = false
  | .get _ => env.session = false

/-- The directory that is sent before a run, if there is a session and the
joined words are short. -/
def Asked.SendsCwd (env : ClientEnv) (cwd : PmResult) (dir : Bytes) : Asked → Prop
  | .run _ words => env.session = true ∧
      (joinWords (words.dropWhile List.isEmpty)).length < 1016 ∧ cwd = .mapped dir
  | .put _ _ => False
  | .get _ => False

def stripCr (s : Bytes) : Bytes := s.filter (· ≠ cr)

/-- What the daemon reads of a line that it is sent. -/
def readLine (line : Bytes) : Bytes × Option Bytes := cutAt sp (cstr (stripCr line))

/-- No line that a CWD line is cut into by its line feeds is read as a run. -/
def SparesRun (dir : Bytes) : Prop :=
  ∀ line ∈ linesOf (cwdLine dir),
    (readLine line).1 ∉ [ascii "RUN", ascii "RUNA", ascii "RUNI"]

/-- No separator is lost behind an empty first word; a remote path fits the
line behind its verb. -/
def Asked.Fits : Asked → Prop
  | .run _ words => words.head? ≠ some [] ∨ words.length = 1
  | .put _ path => path.length ≤ 1019
  | .get path => path.length ≤ 1019

def Asked.Deliverable (a : Asked) : Prop := LineClean a.arg ∧ a.Fits

/-! ## Reading lines with carriage returns -/

theorem stripCr_length (s : Bytes) : (stripCr s).length ≤ s.length :=
  List.length_filter_le _ _

theorem stripCr_eq_self {s : Bytes} (h : cr ∉ s) : stripCr s = s := by
  unfold stripCr
  rw [List.filter_eq_self]
  intro b hb
  have hne : b ≠ cr := fun heq => h (heq ▸ hb)
  simpa using hne

/-- Taking carriage returns away does not make a string longer. -/
theorem stripCr_eq_iff {s t : Bytes} (hlen : s.length ≤ t.length) :
    stripCr s = t ↔ cr ∉ s ∧ s = t := by
  constructor
  · intro h
    have hall : ∀ b ∈ s, (b ≠ cr : Bool) = true := by
      rw [← List.length_filter_eq_length_iff]
      apply Nat.le_antisymm (List.length_filter_le _ _)
      rw [show s.filter (· ≠ cr) = t from h]
      exact hlen
    have hcr : cr ∉ s := fun hmem => by simpa using hall cr hmem
    exact ⟨hcr, (stripCr_eq_self hcr).symm.trans h⟩
  · rintro ⟨hcr, rfl⟩
    exact stripCr_eq_self hcr

/-- A line is read without its carriage returns. -/
theorem lioGetLoop_line
    {size : ℕ} {plan : List (Option ℕ)} {line rest buf : Bytes}
    (hplan : none ∉ plan) (hline : lf ∉ line)
    (hsize : buf.length + (stripCr line).length < size) :
    ∃ plan', none ∉ plan' ∧
      lioGetLoop size plan (line ++ lf :: rest) buf =
        (.ok (buf ++ stripCr line), ⟨plan', rest⟩) := by
  have htail : ∀ p : List (Option ℕ), none ∉ p → none ∉ p.tail :=
    fun p hp h => hp (List.mem_of_mem_tail h)
  have hhead : ∀ p : List (Option ℕ), none ∉ p → p.head? ≠ some none :=
    fun p hp h => hp (List.mem_of_mem_head? h)
  induction line generalizing plan buf with
  | nil =>
      refine ⟨plan.tail, htail plan hplan, ?_⟩
      simp [lioGetLoop, hhead plan hplan, stripCr]
  | cons b line ih =>
      have hb : b ≠ lf := fun h => hline (by simp [h])
      have hrest : lf ∉ line := fun h => hline (by simp [h])
      by_cases hcr : b = cr
      · subst hcr
        have hstrip : stripCr (cr :: line) = stripCr line := by simp [stripCr]
        rw [hstrip] at hsize ⊢
        obtain ⟨plan', hplan', hloop⟩ := ih (htail plan hplan) hrest hsize
        refine ⟨plan', hplan', ?_⟩
        rw [List.cons_append, lioGetLoop, if_neg (hhead plan hplan)]
        simpa [lioGetByte] using hloop
      · have hstrip : stripCr (b :: line) = b :: stripCr line := by
          simp [stripCr, hcr]
        rw [hstrip, List.length_cons] at hsize
        have hroom : (buf ++ [b]).length + (stripCr line).length < size := by
          rw [List.length_append, List.length_singleton]
          omega
        obtain ⟨plan', hplan', hloop⟩ := ih (htail plan hplan) hrest hroom
        refine ⟨plan', hplan', ?_⟩
        rw [List.cons_append, lioGetLoop, if_neg (hhead plan hplan),
          lioGetByte_clean hcr hb (by omega), hstrip]
        simpa using hloop

theorem lioGetLine_line
    {src : Source} {line rest : Bytes} (hsteady : src.Steady)
    (hpending : src.pending = line ++ lf :: rest) (hline : lf ∉ line)
    (hsize : line.length < lineMax) :
    ∃ src' : Source, src'.Steady ∧ src'.pending = rest ∧
      lioGetLine lineMax src = (.ok (stripCr line), src') := by
  have hshort := stripCr_length line
  obtain ⟨plan', hplan', hloop⟩ : ∃ plan', none ∉ plan' ∧
      lioGetLoop lineMax src.plan (line ++ lf :: rest) [] =
        (.ok ([] ++ stripCr line), ⟨plan', rest⟩) :=
    lioGetLoop_line hsteady hline (by simp only [List.length_nil]; omega)
  refine ⟨⟨plan', rest⟩, hplan', rfl, ?_⟩
  unfold lioGetLine
  rw [hpending, hloop]
  rfl

theorem readCommands_end
    {src : Source} (hpending : src.pending = []) (fuel : ℕ) :
    readCommands fuel src = [] := by
  cases fuel with
  | zero => rfl
  | succ fuel => simp [readCommands, lioGetLine, hpending, lioGetLoop]

theorem readCommands_lines
    {lines : List Bytes} (hlines : ∀ l ∈ lines, lf ∉ l ∧ l.length < lineMax) {src : Source}
    (hsteady : src.Steady) (hpending : src.pending = lines.flatMap (· ++ [lf])) {fuel : ℕ}
    (hfuel : lines.length < fuel) : readCommands fuel src = lines.map readLine := by
  induction lines generalizing src fuel with
  | nil => exact readCommands_end hpending fuel
  | cons line lines ih =>
      obtain ⟨hlf, hsize⟩ := hlines line (by simp)
      have hfirst : src.pending = line ++ lf :: lines.flatMap (· ++ [lf]) := by
        rw [hpending]
        simp
      obtain ⟨src', hsteady', hrest, hget⟩ := lioGetLine_line hsteady hfirst hlf hsize
      obtain ⟨n, rfl⟩ : ∃ n, fuel = n + 1 := ⟨fuel - 1, by omega⟩
      rw [List.length_cons] at hfuel
      rw [readCommands, hget]
      dsimp only
      rw [ih (fun l hl => hlines l (by simp [hl])) hsteady' hrest (by omega)]
      rfl

theorem flatMap_linesOf (text : Bytes) :
    (linesOf text).flatMap (· ++ [lf]) = text ++ [lf] := by
  induction hn : text.length using Nat.strong_induction_on generalizing text with
  | _ n ih =>
      by_cases hlf : lf ∈ text
      · obtain ⟨first, more, rfl, hfirst⟩ := List.eq_append_cons_of_mem hlf
        rw [List.length_append, List.length_cons] at hn
        rw [linesOf_line hfirst, List.flatMap_cons, ih _ (by omega) more rfl]
        simp
      · rw [linesOf_last hlf]
        simp

theorem mem_linesOf {text l : Bytes} (h : l ∈ linesOf text) :
    lf ∉ l ∧ l.length ≤ text.length := by
  induction hn : text.length using Nat.strong_induction_on generalizing text with
  | _ n ih =>
      by_cases hlf : lf ∈ text
      · obtain ⟨first, more, rfl, hfirst⟩ := List.eq_append_cons_of_mem hlf
        rw [List.length_append, List.length_cons] at hn
        rw [linesOf_line hfirst] at h
        rcases List.mem_cons.mp h with rfl | h
        · exact ⟨hfirst, by omega⟩
        · obtain ⟨hno, hlen⟩ := ih _ (by omega) h rfl
          exact ⟨hno, by omega⟩
      · rw [linesOf_last hlf, List.mem_singleton] at h
        rw [h]
        exact ⟨hlf, by omega⟩

theorem requestLine_length (verb arg : Bytes) : (requestLine verb arg).length < lineMax := by
  have hcat : ∀ s t : Bytes, s.length < lineMax → (gcdsStrlcat s t lineMax).1.length < lineMax := by
    intro s t hs
    have hmax : lineMax = 1024 := rfl
    unfold gcdsStrlcat
    split_ifs
    · simp only [List.length_append, List.length_take]
      omega
    · exact hs
  exact hcat _ _ (hcat [] verb (by decide))

/-- The daemon reads the texts one after the other, cut at their line feeds. -/
theorem commandsIn_texts
    {texts : List Bytes} (htexts : ∀ t ∈ texts, t.length < lineMax) {src : Source}
    (hsteady : src.Steady) (hpending : src.pending = texts.flatMap (· ++ [lf])) :
    commandsIn src = (texts.flatMap linesOf).map readLine := by
  have hall : (texts.flatMap linesOf).flatMap (· ++ [lf]) = texts.flatMap (· ++ [lf]) := by
    rw [List.flatMap_assoc]
    exact List.flatMap_congr fun t _ => flatMap_linesOf t
  have hlines : ∀ l ∈ texts.flatMap linesOf, lf ∉ l ∧ l.length < lineMax := by
    intro l hl
    obtain ⟨t, ht, hmem⟩ := List.mem_flatMap.mp hl
    obtain ⟨hno, hlen⟩ := mem_linesOf hmem
    exact ⟨hno, hlen.trans_lt (htexts t ht)⟩
  have hcount : ∀ ls : List Bytes, ls.length ≤ (ls.flatMap (· ++ [lf])).length := by
    intro ls
    induction ls with
    | nil => exact le_refl _
    | cons l ls ih =>
        simp only [List.length_cons, List.flatMap_cons, List.length_append, List.length_nil]
        omega
  rw [← hall] at hpending
  exact readCommands_lines hlines hsteady hpending
    (Nat.lt_succ_of_le (hpending ▸ hcount (texts.flatMap linesOf)))

/-- The first line of a request is read as its verb and what stands in front of
the first line feed. -/
theorem requests_split
    {verb cmd : Bytes} {kin : List Bytes} (hkin : verb ∈ kin)
    (hverb : sp ∉ verb ∧ lf ∉ verb ∧ cr ∉ verb ∧ nul ∉ verb) (hnul : nul ∉ cmd) :
    ∃ first rest,
      ((linesOf (verb ++ sp :: cmd)).map readLine).filter (fun c => kin.contains c.1) =
        (verb, some (stripCr first)) :: rest ∧
      ((lf ∉ cmd ∧ first = cmd ∧ rest = []) ∨ (lf ∈ cmd ∧ first.length < cmd.length)) := by
  obtain ⟨hsp, hlf, hcr, hv⟩ := hverb
  have hread : ∀ s : Bytes, nul ∉ s → readLine (verb ++ sp :: s) = (verb, some (stripCr s)) := by
    intro s hs
    have hstrip : stripCr (verb ++ sp :: s) = verb ++ sp :: stripCr s := by
      have hkeep : stripCr verb = verb := stripCr_eq_self hcr
      have hne : sp ≠ cr := by decide
      unfold stripCr at hkeep ⊢
      rw [List.filter_append, hkeep]
      simp [hne]
    have hclean : nul ∉ verb ++ sp :: stripCr s := by
      have hne : nul ≠ sp := by decide
      have hc : nul ∉ stripCr s := fun h => hs (List.mem_of_mem_filter h)
      simp [hv, hne, hc]
    rw [readLine, hstrip, cstr_eq_self hclean, cutAt_append_cons hsp]
  have hstart : ∀ s : Bytes, lf ∉ s → lf ∉ verb ++ sp :: s := by
    intro s hs
    have hne : lf ≠ sp := by decide
    simp [hlf, hne, hs]
  by_cases hmem : lf ∈ cmd
  · obtain ⟨first, more, rfl, hfirst⟩ := List.eq_append_cons_of_mem hmem
    have hno : nul ∉ first := fun h => hnul (by simp [h])
    have hjoin : verb ++ sp :: (first ++ lf :: more) = (verb ++ sp :: first) ++ lf :: more := by
      simp
    refine ⟨first, ((linesOf more).map readLine).filter fun c => kin.contains c.1, ?_,
      .inr ⟨hmem, by simp⟩⟩
    rw [hjoin, linesOf_line (hstart first hfirst), List.map_cons, hread first hno,
      List.filter_cons_of_pos (by simpa using hkin)]
  · refine ⟨cmd, [], ?_, .inl ⟨hmem, rfl, rfl⟩⟩
    rw [linesOf_last (hstart cmd hmem), List.map_singleton, hread cmd hnul,
      List.filter_cons_of_pos (by simpa using hkin), List.filter_nil]

/-- Behind `front`, a request is the only one that is read exactly when nothing
is read in front of it, it has no line feed and the argument is what is left
without carriage returns. -/
theorem requests_iff
    {verb cmd v arg : Bytes} {kin : List Bytes} (hkin : verb ∈ kin)
    (hverb : sp ∉ verb ∧ lf ∉ verb ∧ cr ∉ verb ∧ nul ∉ verb) (hnul : nul ∉ cmd)
    (hshort : cmd.length ≤ arg.length) (front : List (Bytes × Option Bytes)) :
    front ++ ((linesOf (verb ++ sp :: cmd)).map readLine).filter (fun c => kin.contains c.1) =
        [(v, some arg)] ↔
      front = [] ∧ v = verb ∧ lf ∉ cmd ∧ stripCr cmd = arg := by
  obtain ⟨first, rest, hsplit, hcases⟩ := requests_split hkin hverb hnul
  rw [hsplit]
  constructor
  · intro heq
    rcases List.append_eq_singleton_iff.mp heq with ⟨hfront, hone⟩ | ⟨-, hnone⟩
    · obtain ⟨hhead, -⟩ := List.cons.inj hone
      rw [Prod.mk.injEq, Option.some.injEq] at hhead
      rcases hcases with ⟨hno, hall, -⟩ | ⟨-, hless⟩
      · rw [hall] at hhead
        exact ⟨hfront, hhead.1.symm, hno, hhead.2⟩
      · have hlen := stripCr_length first
        rw [hhead.2] at hlen
        omega
    · cases hnone
  · rintro ⟨rfl, rfl, hno, harg⟩
    rcases hcases with ⟨-, rfl, rfl⟩ | ⟨hmem, -⟩
    · rw [harg]
      rfl
    · exact absurd hmem hno

/-! ## Joining the words -/

/-- The words as the loop joins them: no space behind an empty command. -/
def joinSkip : Bytes → List Bytes → Bytes
  | cmd, [] => cmd
  | cmd, w :: ws => joinSkip (if cmd = [] then w else cmd ++ sp :: w) ws

theorem joinSkip_ge (cmd : Bytes) (ws : List Bytes) :
    cmd.length ≤ (joinSkip cmd ws).length := by
  induction ws generalizing cmd with
  | nil => exact le_refl _
  | cons w ws ih =>
      rw [joinSkip]
      split_ifs with hcmd
      · rw [hcmd]
        exact Nat.zero_le _
      · have hrest := ih (cmd ++ sp :: w)
        rw [List.length_append] at hrest
        omega

/-- One round of the loop: the length it checks, and the string it goes on
with. -/
theorem gcdsStrlcat_word
    {cmd : Bytes} (w : Bytes) (hcmd : cmd.length < 1016) :
    (gcdsStrlcat (if cmd ≠ [] then (gcdsStrlcat cmd [sp] lineMax).1 else cmd)
        w lineMax).2 = (if cmd = [] then w else cmd ++ sp :: w).length ∧
      ((if cmd = [] then w else cmd ++ sp :: w).length < 1016 →
        (gcdsStrlcat (if cmd ≠ [] then (gcdsStrlcat cmd [sp] lineMax).1 else cmd)
          w lineMax).1 = if cmd = [] then w else cmd ++ sp :: w) := by
  have hmax : lineMax = 1024 := rfl
  by_cases hnil : cmd = []
  · subst hnil
    simp only [ne_eq, not_true_eq_false, if_false, if_true]
    refine ⟨by simp [gcdsStrlcat], fun hshort => ?_⟩
    rw [gcdsStrlcat_fits (by rw [List.length_nil]; omega), List.nil_append]
  · have hspace : gcdsStrlcat cmd [sp] lineMax = (cmd ++ [sp], cmd.length + 1) :=
      gcdsStrlcat_fits (by rw [List.length_singleton]; omega)
    simp only [ne_eq, hnil, not_false_eq_true, if_true, if_false, hspace]
    have hlen : (cmd ++ [sp]).length + w.length = (cmd ++ sp :: w).length := by
      simp only [List.length_append, List.length_cons, List.length_nil]
      omega
    refine ⟨hlen, fun hshort => ?_⟩
    rw [gcdsStrlcat_fits (by omega), List.append_assoc]
    rfl

/-- The loop joins the words, unless the result is too long. -/
theorem joinArgs_eq
    {cmd : Bytes} (ws : List Bytes) (hcmd : cmd.length < 1016) :
    joinArgs cmd ws =
      if 1016 ≤ (joinSkip cmd ws).length then none else some (joinSkip cmd ws) := by
  induction ws generalizing cmd with
  | nil => rw [joinArgs, joinSkip, if_neg (Nat.not_le_of_lt hcmd)]
  | cons w ws ih =>
      obtain ⟨hlen, hsame⟩ := gcdsStrlcat_word w hcmd
      have hgrow := joinSkip_ge (if cmd = [] then w else cmd ++ sp :: w) ws
      simp only [joinArgs]
      rw [hlen, joinSkip]
      by_cases hlong : 1016 ≤ (if cmd = [] then w else cmd ++ sp :: w).length
      · have hfull := hlong.trans hgrow
        rw [if_pos hfull]
        exact if_pos hlong
      · have hnext := Nat.lt_of_not_le hlong
        rw [hsame hnext, ih hnext]
        exact if_neg hlong

theorem joinWords_cons_cons (w v : Bytes) (ws : List Bytes) :
    joinWords (w :: v :: ws) = w ++ sp :: joinWords (v :: ws) := by
  simp [joinWords, List.intercalate, List.intersperse]

theorem joinWords_append_space (cmd w : Bytes) (ws : List Bytes) :
    joinWords ((cmd ++ sp :: w) :: ws) = joinWords (cmd :: w :: ws) := by
  rw [joinWords_cons_cons]
  cases ws with
  | nil => simp [joinWords, List.intercalate, List.intersperse]
  | cons v ws =>
      rw [joinWords_cons_cons, joinWords_cons_cons]
      simp

/-- Behind a first word that is not empty, the words are joined by single
spaces. -/
theorem joinSkip_eq
    {cmd : Bytes} (ws : List Bytes) (hcmd : cmd ≠ []) :
    joinSkip cmd ws = joinWords (cmd :: ws) := by
  induction ws generalizing cmd with
  | nil => simp [joinSkip, joinWords, List.intercalate, List.intersperse]
  | cons w ws ih =>
      rw [joinSkip, if_neg hcmd, ih (by simp), joinWords_append_space]

theorem joinSkip_length (cmd : Bytes) (ws : List Bytes) :
    (joinSkip cmd ws).length ≤ (joinWords (cmd :: ws)).length := by
  induction ws generalizing cmd with
  | nil => simp [joinSkip, joinWords, List.intercalate, List.intersperse]
  | cons w ws ih =>
      by_cases hcmd : cmd = []
      · have hrest := ih w
        subst hcmd
        rw [joinSkip, if_pos rfl, joinWords_cons_cons, List.nil_append,
          List.length_cons]
        omega
      · rw [joinSkip_eq _ hcmd]

/-- An empty first word loses its space. -/
theorem joinSkip_eq_iff (w : Bytes) (ws : List Bytes) :
    joinSkip w ws = joinWords (w :: ws) ↔ w ≠ [] ∨ ws = [] := by
  by_cases hw : w = []
  · subst hw
    cases ws with
    | nil => simp [joinSkip, joinWords, List.intercalate, List.intersperse]
    | cons v ws =>
        have hlen := joinSkip_length v ws
        constructor
        · intro heq
          have hsame := congrArg List.length heq
          rw [joinSkip, if_pos rfl, joinWords_cons_cons, List.nil_append,
            List.length_cons] at hsame
          omega
        · rintro (h | h)
          · exact absurd rfl h
          · simp at h
  · simp [hw, joinSkip_eq ws hw]

theorem joinSkip_nil (words : List Bytes) :
    joinSkip [] words = joinWords (words.dropWhile List.isEmpty) := by
  induction words with
  | nil => rfl
  | cons w ws ih =>
      by_cases hw : w = []
      · subst hw
        rw [joinSkip, if_pos rfl, ih]
        simp
      · have hempty : w.isEmpty = false := by simpa using hw
        rw [joinSkip, if_pos rfl, joinSkip_eq ws hw, List.dropWhile_cons, hempty]
        rfl

/-! ## What the client sends -/

theorem mem_trim {s : Bytes} {b : Byte} (hb : b ∈ trim s) : b ∈ s :=
  (List.rdropWhile_prefix isEndBlank s).subset ((List.dropWhile_suffix isBlank).subset hb)

theorem mem_confEntry
    {line : Bytes} {e : Bytes × Bytes} {b : Byte} (he : confEntry line = some e)
    (hb : b ∈ e.2) : b ∈ line := by
  unfold confEntry at he
  simp only at he
  have hjoin := cutAt_join equals (trim line)
  split_ifs at he with hskip
  split at he
  · exact absurd he (by simp)
  · rename_i key val hcut
    rw [hcut] at hjoin
    split_ifs at he with hkey
    simp only [Option.some.injEq] at he
    subst he
    apply mem_trim
    rw [hjoin]
    exact List.mem_append_right _ (List.mem_cons_of_mem _ (mem_trim hb))

/-- The values of a loaded configuration fit their entries and are C
strings. -/
theorem confLoop_val
    {fuel room : ℕ} {file : Bytes} {e : GcdsKv} (he : e ∈ confLoop fuel room file) :
    e.val.length < confValMax ∧ nul ∉ e.val := by
  induction fuel generalizing room file with
  | zero => simp [confLoop] at he
  | succ fuel ih =>
      rw [confLoop] at he
      split_ifs at he with hstop
      · simp at he
      · split at he
        · exact ih he
        · rename_i kv hkv
          rcases List.mem_cons.mp he with rfl | he
          · constructor
            · simp [storeKv, gcdsStrlcpy, confValMax]
            · intro hnul
              have hline := mem_confEntry hkv (List.mem_of_mem_take hnul)
              have hne := List.mem_takeWhile_imp hline
              simp at hne
          · exact ih he

theorem toolValue_val
    {file host name value : Bytes} {maxkv : ℕ}
    (h : toolValue (confLoad file maxkv) host name = some value) :
    value.length < confValMax ∧ nul ∉ value := by
  unfold toolValue confGet at h
  obtain ⟨e, he, rfl⟩ := Option.map_eq_some_iff.mp h
  exact confLoop_val (List.mem_of_find?_eq_some he)

/-- The command line is the words that were asked for, joined by the loop. -/
theorem commandLine_eq
    {file host : Bytes} {words asked : List Bytes} {maxkv : ℕ}
    (hask : expandWords (confLoad file maxkv) host words = some asked) :
    commandLine (confLoad file maxkv) host words =
      if 1016 ≤ (joinSkip [] asked).length then none else some (joinSkip [] asked) := by
  cases words with
  | nil => simp [expandWords] at hask
  | cons w ws =>
      simp only [expandWords] at hask
      simp only [commandLine]
      split_ifs at hask with halias
      · obtain ⟨value, hvalue, rfl⟩ := Option.map_eq_some_iff.mp hask
        have hshort := (toolValue_val hvalue).1
        unfold confValMax at hshort
        have hcopy : (gcdsStrlcpy value lineMax).1 = value :=
          List.take_of_length_le (by unfold lineMax; omega)
        rw [if_pos halias, toolExpand, hvalue, joinSkip, if_pos rfl]
        simp only [Option.map_some, hcopy]
        exact joinArgs_eq ws (by omega)
      · obtain rfl := Option.some.inj hask
        rw [if_neg halias]
        exact joinArgs_eq (w :: ws) (by simp)

theorem expandWords_nul
    {file host : Bytes} {words asked : List Bytes} {maxkv : ℕ}
    (hask : expandWords (confLoad file maxkv) host words = some asked)
    (hwords : ∀ w ∈ words, nul ∉ w) :
    asked ≠ [] ∧ ∀ w ∈ asked, nul ∉ w := by
  cases words with
  | nil => simp [expandWords] at hask
  | cons w ws =>
      simp only [expandWords] at hask
      split_ifs at hask with halias
      · obtain ⟨value, hvalue, rfl⟩ := Option.map_eq_some_iff.mp hask
        refine ⟨by simp, fun v hv => ?_⟩
        rcases List.mem_cons.mp hv with rfl | hv
        · exact (toolValue_val hvalue).2
        · exact hwords v (List.mem_cons_of_mem w hv)
      · obtain rfl := Option.some.inj hask
        exact ⟨by simp, hwords⟩

theorem joinSkip_nul
    {cmd : Bytes} {ws : List Bytes} (hcmd : nul ∉ cmd) (hws : ∀ w ∈ ws, nul ∉ w) :
    nul ∉ joinSkip cmd ws := by
  induction ws generalizing cmd with
  | nil => exact hcmd
  | cons w ws ih =>
      have hw := hws w (by simp)
      have hne : nul ≠ sp := by decide
      rw [joinSkip]
      apply ih
      · split_ifs
        · exact hw
        · simp [hcmd, hw, hne]
      · exact fun v hv => hws v (List.mem_cons_of_mem w hv)

theorem clientArgs_mem
    {o o' : ClientOpts} {argv words : List Bytes}
    (h : clientArgs o argv = some (o', words)) : ∀ w ∈ words, w ∈ argv := by
  induction argv generalizing o with
  | nil =>
      simp only [clientArgs, Option.some.injEq, Prod.mk.injEq] at h
      obtain ⟨-, rfl⟩ := h
      exact fun w hw => hw
  | cons v argv ih =>
      rw [clientArgs] at h
      split_ifs at h with hdash
      · split at h
        · exact fun w hw => List.mem_cons_of_mem v (ih h w hw)
        · simp at h
      · simp only [Option.some.injEq, Prod.mk.injEq] at h
        obtain ⟨-, rfl⟩ := h
        exact fun w hw => hw

/-- What is asked for, by the options that ask for it. -/
theorem asked_cases
    {env : ClientEnv} {argv : List Bytes} {a : Asked} (h : asked env argv = some a) :
    ∃ o host words conf, clientArgs ClientOpts.start argv = some (o, host :: words) ∧
      env.conf = some conf ∧
      ((o.put = true ∧ ∃ src path, words = [src, path] ∧ a = .put src path) ∨
        (o.put = false ∧ o.get = true ∧
          ∃ path dst, words = [path, dst] ∧ a = .get path) ∨
        (o.put = false ∧ o.get = false ∧ o.ping = false ∧ o.stat = false ∧
          ∃ ws, expandWords (confLoad conf confEntMax) host words = some ws ∧
            a = .run o.ix ws)) := by
  unfold asked at h
  split at h
  · rename_i o host words conf hargs hconf
    refine ⟨o, host, words, conf, hargs, hconf, ?_⟩
    split_ifs at h with hput hget hcheck
    · split at h
      · simp only [Option.some.injEq] at h
        exact Or.inl ⟨hput, _, _, rfl, h.symm⟩
      · simp at h
    · split at h
      · simp only [Option.some.injEq] at h
        exact Or.inr (Or.inl ⟨by simpa using hput, hget, _, _, rfl, h.symm⟩)
      · simp at h
    · obtain ⟨ws, hws, rfl⟩ := Option.map_eq_some_iff.mp h
      obtain ⟨hping, hstat⟩ := not_or.mp hcheck
      exact Or.inr (Or.inr ⟨by simpa using hput, by simpa using hget,
        by simpa using hping, by simpa using hstat, ws, hws, rfl⟩)
  · simp at h

/-- A request of a verb and an argument that is a C string and fits. -/
structure Sends (env : ClientEnv) (argv : List Bytes) (a : Asked) (verb cmd : Bytes) :
    Prop where
  sent : (clientMain env argv).request = some (verb ++ sp :: cmd)
  known : verb ∈ a.verbs
  clean : nul ∉ cmd
  size : (verb ++ sp :: cmd).length < lineMax
  short : cmd.length ≤ a.arg.length
  fits : cmd = a.arg ↔ a.Fits

theorem Asked.verbs_kin {a : Asked} {verb : Bytes} (h : verb ∈ a.verbs) : verb ∈ a.kin := by
  cases a with
  | run ix words => exact h
  | put src path =>
      rw [List.mem_singleton.mp h]
      exact List.mem_cons_self
  | get path =>
      rw [List.mem_singleton.mp h]
      exact List.mem_cons_of_mem _ List.mem_cons_self

theorem Asked.verbs_clean
    {a : Asked} {verb : Bytes} (h : verb ∈ a.verbs) :
    verb.length ≤ 4 ∧ sp ∉ verb ∧ lf ∉ verb ∧ cr ∉ verb ∧ nul ∉ verb := by
  have hall : ∀ v ∈ [ascii "RUN", ascii "RUNA", ascii "RUNI", ascii "PUT", ascii "GET"],
      v.length ≤ 4 ∧ sp ∉ v ∧ lf ∉ v ∧ cr ∉ v ∧ nul ∉ v := by
    decide
  apply hall
  cases a with
  | run ix words => exact List.mem_append_left [ascii "PUT", ascii "GET"] h
  | put src path =>
      obtain rfl := List.mem_singleton.mp h
      simp
  | get path =>
      obtain rfl := List.mem_singleton.mp h
      simp

theorem requestLine_fits
    {verb cmd : Bytes} (h : verb.length + 1 + cmd.length < lineMax) :
    requestLine (verb ++ [sp]) cmd = verb ++ sp :: cmd := by
  have hverb : (gcdsStrlcat [] (verb ++ [sp]) lineMax).1 = verb ++ [sp] := by
    rw [gcdsStrlcat_fits (by
      simp only [List.length_nil, List.length_append, List.length_singleton]
      omega)]
    rfl
  rw [requestLine, hverb, gcdsStrlcat_fits (by
    simp only [List.length_append, List.length_singleton]
    omega)]
  simp

/-- Behind a verb of three letters a path is cut silently. -/
theorem requestLine_path
    {verb : Bytes} (path : Bytes) (hverb : verb.length = 3) :
    requestLine (verb ++ [sp]) path = verb ++ sp :: path.take 1019 := by
  have hmax : lineMax = 1024 := rfl
  have hstart : (gcdsStrlcat [] (verb ++ [sp]) lineMax).1 = verb ++ [sp] := by
    rw [gcdsStrlcat_fits (by
      simp only [List.length_nil, List.length_append, List.length_singleton]
      omega)]
    rfl
  have hlen : (verb ++ [sp]).length = 4 := by
    rw [List.length_append, hverb, List.length_singleton]
  rw [requestLine, hstart, gcdsStrlcat, hlen, hmax, if_pos (by omega)]
  simp

theorem sends_path
    {env : ClientEnv} {argv : List Bytes} {a : Asked} {verb path : Bytes}
    (hsent : (clientMain env argv).request = some (requestLine (verb ++ [sp]) path))
    (hknown : verb ∈ a.verbs) (hverb : verb.length = 3) (harg : a.arg = path)
    (hfits : a.Fits ↔ path.length ≤ 1019) (hclean : nul ∉ path) :
    Sends env argv a verb (path.take 1019) := by
  rw [requestLine_path path hverb] at hsent
  refine ⟨hsent, hknown, fun h => hclean (List.mem_of_mem_take h), ?_, ?_, ?_⟩
  · have hcut := List.length_take_le 1019 path
    rw [List.length_append, List.length_cons, hverb]
    unfold lineMax
    omega
  · rw [harg]
    exact List.length_take_le' 1019 path
  · rw [harg, hfits, List.take_eq_self_iff]

theorem sends_run
    {env : ClientEnv} {argv ws : List Bytes} {ix : Bool} {verb : Bytes}
    (hsent : (clientMain env argv).request =
      some (requestLine (verb ++ [sp]) (joinSkip [] ws)))
    (hknown : verb ∈ (Asked.run ix ws).verbs) (hne : ws ≠ [])
    (hclean : ∀ w ∈ ws, nul ∉ w) (hshort : (joinSkip [] ws).length < 1016) :
    Sends env argv (.run ix ws) verb (joinSkip [] ws) := by
  have hverb := (Asked.verbs_clean hknown).1
  have hmax : lineMax = 1024 := rfl
  rw [requestLine_fits (by omega)] at hsent
  obtain ⟨w, rest, rfl⟩ := List.exists_cons_of_ne_nil hne
  refine ⟨hsent, hknown, joinSkip_nul (by simp) hclean, ?_, ?_, ?_⟩
  · rw [List.length_append, List.length_cons]
    omega
  · exact joinSkip_length w rest
  · rw [Asked.arg, Asked.Fits]
    simpa [joinSkip] using joinSkip_eq_iff w rest

/-- A run is sent as one of three verbs, unless the capability is missing. -/
theorem runRequest_cases (env : ClientEnv) (o : ClientOpts) (cmd : Bytes) :
    ((o.ix = true ∧ env.capIx = false) ∧ runRequest env o cmd = none) ∨
      (¬ (o.ix = true ∧ env.capIx = false) ∧
        ∃ verb ∈ [ascii "RUN", ascii "RUNA", ascii "RUNI"],
          runRequest env o cmd = some (requestLine (verb ++ [sp]) cmd)) := by
  unfold runRequest
  cases hix : o.ix
  · by_cases hasync : env.capAsync = true ∨ o.async = true
    · exact Or.inr ⟨by simp, ascii "RUNA", by simp, by simp only [hasync]; rfl⟩
    · exact Or.inr ⟨by simp, ascii "RUN", by simp, by simp only [hasync]; rfl⟩
  · cases hcap : env.capIx
    · simp
    · exact Or.inr ⟨by simp, ascii "RUNI", by simp, rfl⟩

theorem clientMain_run
    {env : ClientEnv} {argv words ws : List Bytes} {o : ClientOpts} {host conf : Bytes}
    (hargs : clientArgs ClientOpts.start argv = some (o, host :: words))
    (hconf : env.conf = some conf) (hput : o.put = false) (hget : o.get = false)
    (hping : o.ping = false) (hstat : o.stat = false)
    (hws : expandWords (confLoad conf confEntMax) host words = some ws) :
    clientMain env argv =
      if 1016 ≤ (joinSkip [] ws).length ∨ env.session = false then .nothing
      else runSent env o (askedDir env argv) (joinSkip [] ws) := by
  have hne : words ≠ [] := by
    rintro rfl
    simp [expandWords] at hws
  have hdir : askedDir env argv =
      pmCwd (confLoad conf confEntMax) host env.getcwd confValMax := by
    simp only [askedDir, hargs, hconf]
  rw [hdir]
  simp only [clientMain, hargs, hconf, hput, hget, hping, hstat, hne,
    commandLine_eq hws]
  by_cases hlong : 1016 ≤ (joinSkip [] ws).length
  · simp [hlong]
  · simp [hlong]

/-- The lines in front of a request: the directory of a run that gets as far. -/
def SendsBefore (env : ClientEnv) (argv : List Bytes) (a : Asked) : Prop :=
  (∃ dir, a.SendsCwd env (askedDir env argv) dir ∧
      (clientMain env argv).before = [cwdLine dir]) ∨
    ((∀ dir, ¬ a.SendsCwd env (askedDir env argv) dir) ∧ (clientMain env argv).before = [])

/-- What is asked for is refused, or sent behind its verb. -/
def SendsRequest (env : ClientEnv) (argv : List Bytes) (a : Asked) : Prop :=
  (a.Refused env (askedDir env argv) ∧ (clientMain env argv).request = none) ∨
    (¬ a.Refused env (askedDir env argv) ∧ ∃ verb cmd, Sends env argv a verb cmd)

theorem clientMain_transfer
    {env : ClientEnv} {argv words : List Bytes} {o : ClientOpts} {host conf : Bytes}
    (hargs : clientArgs ClientOpts.start argv = some (o, host :: words))
    (hconf : env.conf = some conf) (hput : o.put = true ∨ o.get = true) :
    clientMain env argv =
      if env.session then ⟨[], transferRequest env o words⟩ else .nothing := by
  simp only [clientMain, hargs, hconf, hput, if_true]

theorem clientMain_put
    {env : ClientEnv} {argv : List Bytes} {o : ClientOpts} {host src path conf : Bytes}
    (hargs : clientArgs ClientOpts.start argv = some (o, [host, src, path]))
    (hconf : env.conf = some conf) (hput : o.put = true) (hclean : nul ∉ path) :
    SendsBefore env argv (.put src path) ∧ SendsRequest env argv (.put src path) := by
  have hmain := clientMain_transfer hargs hconf (.inl hput)
  unfold SendsBefore SendsRequest
  by_cases hsession : env.session = true
  · rw [if_pos hsession] at hmain
    refine ⟨.inr ⟨fun _ h => h, by rw [hmain]⟩, ?_⟩
    by_cases hopens : env.opens src = true
    · refine .inr ⟨by simp [Asked.Refused, hsession, hopens], ascii "PUT", path.take 1019, ?_⟩
      refine sends_path ?_ (List.mem_singleton_self _) rfl rfl Iff.rfl hclean
      rw [hmain]
      simp only [transferRequest, hput, hopens, if_true]
      rfl
    · refine .inl ⟨.inr (by simpa using hopens), ?_⟩
      rw [hmain]
      simp [transferRequest, hput, hopens]
  · rw [if_neg hsession] at hmain
    rw [hmain]
    exact ⟨.inr ⟨fun _ h => h, rfl⟩, .inl ⟨.inl (by simpa using hsession), rfl⟩⟩

theorem clientMain_get
    {env : ClientEnv} {argv : List Bytes} {o : ClientOpts} {host path dst conf : Bytes}
    (hargs : clientArgs ClientOpts.start argv = some (o, [host, path, dst]))
    (hconf : env.conf = some conf) (hput : o.put = false) (hget : o.get = true)
    (hclean : nul ∉ path) :
    SendsBefore env argv (.get path) ∧ SendsRequest env argv (.get path) := by
  have hmain := clientMain_transfer hargs hconf (.inr hget)
  unfold SendsBefore SendsRequest
  by_cases hsession : env.session = true
  · rw [if_pos hsession] at hmain
    refine ⟨.inr ⟨fun _ h => h, by rw [hmain]⟩, ?_⟩
    refine .inr ⟨by simp [Asked.Refused, hsession], ascii "GET", path.take 1019, ?_⟩
    refine sends_path ?_ (List.mem_singleton_self _) rfl rfl Iff.rfl hclean
    rw [hmain]
    simp only [transferRequest, hput, Bool.false_eq_true, if_false]
    rfl
  · rw [if_neg hsession] at hmain
    rw [hmain]
    exact ⟨.inr ⟨fun _ h => h, rfl⟩, .inl ⟨by simpa [Asked.Refused] using hsession, rfl⟩⟩

/-- Behind its directory, a run is refused for want of the capability only. -/
theorem sendsRequest_run
    {env : ClientEnv} {argv ws : List Bytes} {o : ClientOpts}
    (hsame : (clientMain env argv).request = runRequest env o (joinSkip [] ws))
    (hsession : env.session = true) (hshort : (joinSkip [] ws).length < 1016)
    (hfits : askedDir env argv ≠ .overflow)
    (hgoes : (∃ dir, askedDir env argv = .mapped dir) → env.cwdOk = true)
    (hne : ws ≠ []) (hclean : ∀ w ∈ ws, nul ∉ w) : SendsRequest env argv (.run o.ix ws) := by
  have hrefused : (Asked.run o.ix ws).Refused env (askedDir env argv) ↔
      o.ix = true ∧ env.capIx = false := by
    have hstays : ¬ ((∃ dir, askedDir env argv = .mapped dir) ∧ env.cwdOk = false) := by
      rintro ⟨hmapped, hbad⟩
      rw [hgoes hmapped] at hbad
      cases hbad
    rw [Asked.Refused, ← joinSkip_nil]
    simp only [hsession, Bool.true_eq_false, Nat.not_le.mpr hshort, hfits, hstays, false_or]
  rcases runRequest_cases env o (joinSkip [] ws) with ⟨hcap, hrun⟩ | ⟨hok, verb, hverb, hrun⟩
  · exact .inl ⟨hrefused.mpr hcap, hsame.trans hrun⟩
  · refine .inr ⟨fun h => hok (hrefused.mp h), verb, joinSkip [] ws, ?_⟩
    exact sends_run (hsame.trans hrun) hverb hne hclean hshort

theorem clientMain_words
    {env : ClientEnv} {argv ws : List Bytes} {o : ClientOpts}
    (hmain : clientMain env argv =
      if 1016 ≤ (joinSkip [] ws).length ∨ env.session = false then .nothing
      else runSent env o (askedDir env argv) (joinSkip [] ws))
    (hne : ws ≠ []) (hclean : ∀ w ∈ ws, nul ∉ w) :
    SendsBefore env argv (.run o.ix ws) ∧ SendsRequest env argv (.run o.ix ws) := by
  have hjoin : joinWords (ws.dropWhile List.isEmpty) = joinSkip [] ws := (joinSkip_nil ws).symm
  by_cases hno : 1016 ≤ (joinSkip [] ws).length ∨ env.session = false
  · rw [if_pos hno] at hmain
    have hrefused : (Asked.run o.ix ws).Refused env (askedDir env argv) := by
      rw [Asked.Refused, hjoin]
      tauto
    refine ⟨.inr ⟨?_, by rw [hmain]; rfl⟩, .inl ⟨hrefused, by rw [hmain]; rfl⟩⟩
    rintro dir ⟨hsession, hshort, -⟩
    rw [hjoin] at hshort
    rcases hno with hlong | hclosed
    · omega
    · rw [hclosed] at hsession
      exact Bool.false_ne_true hsession
  · rw [if_neg hno] at hmain
    obtain ⟨hlong, hclosed⟩ := not_or.mp hno
    have hshort : (joinSkip [] ws).length < 1016 := Nat.lt_of_not_le hlong
    have hsession : env.session = true := by simpa using hclosed
    have hunsent : (∀ dir, askedDir env argv ≠ .mapped dir) →
        ∀ dir, ¬ (Asked.run o.ix ws).SendsCwd env (askedDir env argv) dir :=
      fun hnone dir hsends => hnone dir hsends.2.2
    cases hdir : askedDir env argv with
    | overflow =>
        rw [hdir] at hmain hunsent
        refine ⟨.inr ⟨by rw [hdir]; exact hunsent (by simp), by rw [hmain]; rfl⟩,
          .inl ⟨?_, by rw [hmain]; rfl⟩⟩
        rw [hdir]
        exact .inr (.inr (.inl rfl))
    | unmapped =>
        rw [hdir] at hmain hunsent
        refine ⟨.inr ⟨by rw [hdir]; exact hunsent (by simp), by rw [hmain]; rfl⟩, ?_⟩
        exact sendsRequest_run (by rw [hmain]; rfl) hsession hshort (by simp [hdir])
          (by simp [hdir]) hne hclean
    | mapped dir =>
        rw [hdir] at hmain
        refine ⟨.inl ⟨dir, ?_, by rw [hmain]; rfl⟩, ?_⟩
        · rw [hdir]
          exact ⟨hsession, by rw [hjoin]; exact hshort, rfl⟩
        by_cases hok : env.cwdOk = true
        · exact sendsRequest_run (by rw [hmain]; simp [runSent, hok]) hsession hshort
            (by simp [hdir]) (fun _ => hok) hne hclean
        · have hbad : env.cwdOk = false := by simpa using hok
          refine .inl ⟨?_, by rw [hmain]; simp [runSent, hbad]⟩
          rw [hdir]
          exact .inr (.inr (.inr (.inl ⟨⟨dir, rfl⟩, hbad⟩)))

theorem clientMain_asked
    {env : ClientEnv} {argv : List Bytes} {a : Asked} (h : asked env argv = some a)
    (hwords : ∀ w ∈ argv, nul ∉ w) :
    SendsBefore env argv a ∧ SendsRequest env argv a := by
  obtain ⟨o, host, words, conf, hargs, hconf, hcases⟩ := asked_cases h
  have hclean : ∀ w ∈ words, nul ∉ w := fun w hw =>
    hwords w (clientArgs_mem hargs w (List.mem_cons_of_mem host hw))
  rcases hcases with ⟨hput, src, path, rfl, rfl⟩ | ⟨hput, hget, path, dst, rfl, rfl⟩ |
    ⟨hput, hget, hping, hstat, ws, hws, rfl⟩
  · exact clientMain_put hargs hconf hput (hclean path (by simp))
  · exact clientMain_get hargs hconf hput hget (hclean path (by simp))
  · obtain ⟨hne, hcleanws⟩ := expandWords_nul hws hclean
    exact clientMain_words (clientMain_run hargs hconf hput hget hping hstat hws) hne hcleanws

theorem commandLine_none
    {kv : List GcdsKv} {host : Bytes} {words : List Bytes} (hne : words ≠ [])
    (hask : expandWords kv host words = none) : commandLine kv host words = none := by
  obtain ⟨w, ws, rfl⟩ := List.exists_cons_of_ne_nil hne
  simp only [expandWords] at hask
  split_ifs at hask with halias
  have hvalue := Option.map_eq_none_iff.mp hask
  simp only [commandLine]
  rw [if_pos halias, toolExpand, hvalue]
  rfl

theorem transferRequest_two
    {env : ClientEnv} {o : ClientOpts} {words : List Bytes} {line : Bytes}
    (h : transferRequest env o words = some line) :
    ∃ first second, words = [first, second] := by
  unfold transferRequest at h
  split at h
  · exact ⟨_, _, rfl⟩
  · simp at h

/-- Without a request the client refuses, pings or asks for the status. -/
theorem clientMain_check
    {env : ClientEnv} {argv : List Bytes} {line : Bytes} (hask : asked env argv = none)
    (h : (clientMain env argv).request = some line) :
    line = ascii "PING" ∨ line = ascii "STAT" := by
  unfold clientMain at h
  split at h
  · simp [Sent.nothing] at h
  · simp [Sent.nothing] at h
  · rename_i o host words hargs
    split at h
    · simp [Sent.nothing] at h
    · rename_i conf hconf
      simp only [asked, hargs, hconf] at hask
      by_cases htransfer : o.put = true ∨ o.get = true
      · rw [if_pos htransfer] at h
        split_ifs at h with hsession
        · obtain ⟨first, second, rfl⟩ := transferRequest_two h
          split_ifs at hask with hput hget hcheck
          · exact absurd htransfer (not_or.mpr ⟨hput, hget⟩)
          · exact absurd htransfer (not_or.mpr ⟨hput, hget⟩)
        · simp [Sent.nothing] at h
      · rw [if_neg htransfer] at h
        obtain ⟨hput, hget⟩ := not_or.mp htransfer
        rw [if_neg hput, if_neg hget] at hask
        by_cases hbare : ¬ o.ping = true ∧ ¬ o.stat = true ∧ words = []
        · rw [if_pos hbare] at h
          simp [Sent.nothing] at h
        · rw [if_neg hbare] at h
          split at h
          · simp [Sent.nothing] at h
          · rename_i cmd hcmd
            split_ifs at h with hsession hping hstat
            · simp [Sent.nothing] at h
            · exact Or.inl (Option.some.inj h).symm
            · exact Or.inr (Option.some.inj h).symm
            · rw [if_neg (by tauto), Option.map_eq_none_iff] at hask
              rw [commandLine_none (by tauto) hask] at hcmd
              simp at hcmd

/-! ## Fidelity of the request -/

section Fidelity

variable {env : ClientEnv} {argv : List Bytes} {a : Asked}

/-- What is read in front of the request. -/
def frontOf (env : ClientEnv) (argv : List Bytes) (a : Asked) :
    List (Bytes × Option Bytes) :=
  (((clientMain env argv).before.flatMap linesOf).map readLine).filter fun c => a.kin.contains c.1

theorem requestsIn_text
    (hbefore : SendsBefore env argv a)
    (hrequest : ∀ line ∈ (clientMain env argv).request, line.length < lineMax) {src : Source}
    (hsteady : src.Steady) (hpending : src.pending = (clientMain env argv).text) :
    requestsIn a src = frontOf env argv a ++
      (((clientMain env argv).request.toList.flatMap linesOf).map readLine).filter
        fun c => a.kin.contains c.1 := by
  have htexts : ∀ t ∈ (clientMain env argv).before ++ (clientMain env argv).request.toList,
      t.length < lineMax := by
    intro t ht
    rcases List.mem_append.mp ht with ht | ht
    · rcases hbefore with ⟨dir, -, hline⟩ | ⟨-, hnone⟩
      · rw [hline, List.mem_singleton] at ht
        rw [ht]
        exact requestLine_length _ _
      · rw [hnone] at ht
        cases ht
    · exact hrequest t (by simpa using ht)
  unfold requestsIn frontOf
  rw [commandsIn_texts htexts hsteady hpending, List.flatMap_append, List.map_append,
    List.filter_append]

theorem frontOf_eq_nil_iff (hbefore : SendsBefore env argv a) :
    frontOf env argv a = [] ↔
      ∀ dir, a.SendsCwd env (askedDir env argv) dir → SparesRun dir := by
  unfold frontOf
  rcases hbefore with ⟨dir, hdir, hline⟩ | ⟨hno, hnone⟩
  · rw [hline, List.flatMap_singleton]
    cases a with
    | run ix words =>
        have hsame : ∀ dir', Asked.SendsCwd env (askedDir env argv) dir' (.run ix words) →
            dir' = dir := by
          rintro dir' ⟨-, -, hmapped⟩
          exact (PmResult.mapped.inj (hdir.2.2.symm.trans hmapped)).symm
        rw [List.filter_eq_nil_iff]
        simp only [List.mem_map, forall_exists_index, and_imp, forall_apply_eq_imp_iff₂,
          List.contains_iff_mem]
        constructor
        · intro hspares dir' hdir'
          rw [hsame dir' hdir']
          exact hspares
        · intro hall
          exact hall dir hdir
    | put src path => exact absurd hdir id
    | get path => exact absurd hdir id
  · rw [hnone]
    exact iff_of_true rfl fun dir hdir => absurd hdir (hno dir)

theorem Sends.delivered_iff
    {verb cmd : Bytes} (h : Sends env argv a verb cmd) (hbefore : SendsBefore env argv a) :
    Delivered (clientMain env argv).text a ↔
      a.Deliverable ∧ ∀ dir, a.SendsCwd env (askedDir env argv) dir → SparesRun dir := by
  have hverb := (Asked.verbs_clean h.known).2
  have hsize : ∀ line ∈ (clientMain env argv).request, line.length < lineMax := by
    intro line hline
    rw [h.sent, Option.mem_some_iff] at hline
    rw [← hline]
    exact h.size
  have hiff : ∀ src : Source, src.Steady → src.pending = (clientMain env argv).text →
      ∀ v, (requestsIn a src = [(v, some a.arg)] ↔
        v = verb ∧ a.Deliverable ∧
          ∀ dir, a.SendsCwd env (askedDir env argv) dir → SparesRun dir) := by
    intro src hsteady hpending v
    rw [requestsIn_text hbefore hsize hsteady hpending, h.sent, Option.toList_some,
      List.flatMap_singleton,
      requests_iff (Asked.verbs_kin h.known) hverb h.clean h.short,
      frontOf_eq_nil_iff hbefore, stripCr_eq_iff h.short, h.fits, Asked.Deliverable, LineClean]
    constructor
    · rintro ⟨hfront, rfl, hlf, hcr, hfits⟩
      rw [← h.fits.mpr hfits]
      exact ⟨rfl, ⟨⟨hlf, hcr⟩, hfits⟩, hfront⟩
    · rintro ⟨rfl, ⟨⟨hlf, hcr⟩, hfits⟩, hfront⟩
      rw [← h.fits.mpr hfits] at hlf hcr
      exact ⟨hfront, rfl, hlf, hcr, hfits⟩
  constructor
  · intro hdelivered
    obtain ⟨v, -, hread⟩ := hdelivered ⟨[], (clientMain env argv).text⟩
      (by simp [Source.Steady]) rfl
    exact ((hiff _ (by simp [Source.Steady]) rfl v).mp hread).2
  · intro hok src hsteady hpending
    exact ⟨verb, h.known, (hiff src hsteady hpending verb).mpr ⟨rfl, hok⟩⟩

theorem undelivered_iff
    (hnone : (clientMain env argv).request = none) (hbefore : SendsBefore env argv a) :
    Undelivered (clientMain env argv).text a ↔
      ∀ dir, a.SendsCwd env (askedDir env argv) dir → SparesRun dir := by
  have hfront : ∀ src : Source, src.Steady → src.pending = (clientMain env argv).text →
      requestsIn a src = frontOf env argv a := by
    intro src hsteady hpending
    rw [requestsIn_text hbefore (by simp [hnone]) hsteady hpending, hnone]
    simp
  rw [← frontOf_eq_nil_iff hbefore]
  constructor
  · intro h
    rw [← hfront ⟨[], (clientMain env argv).text⟩ (by simp [Source.Steady]) rfl]
    exact h _ (by simp [Source.Steady]) rfl
  · intro h src hsteady hpending
    rw [hfront src hsteady hpending, h]

end Fidelity

/-- What the daemon reads is what the arguments ask for, if and only if the
client refuses the request or the request can be delivered, and the mapped
directory makes no command of its own. -/
theorem client_request_faithful_iff
    (env : ClientEnv) (argv : List Bytes) (hwords : ∀ w ∈ argv, nul ∉ w) :
    Faithful env argv ↔
      ∀ a, asked env argv = some a →
        (a.Refused env (askedDir env argv) ∨ a.Deliverable) ∧
          ∀ dir, a.SendsCwd env (askedDir env argv) dir → SparesRun dir := by
  unfold Faithful
  cases hask : asked env argv with
  | none =>
      refine iff_of_true ?_ (by simp)
      cases hline : (clientMain env argv).request with
      | none => trivial
      | some line => exact clientMain_check hask hline
  | some a =>
      simp only [Option.some.injEq, forall_eq']
      obtain ⟨hbefore, ⟨href, hnone⟩ | ⟨hsend, verb, cmd, hsends⟩⟩ :=
        clientMain_asked hask hwords
      · rw [hnone]
        dsimp only
        rw [undelivered_iff hnone hbefore]
        simp [href]
      · rw [hsends.sent]
        dsimp only
        rw [hsends.delivered_iff hbefore]
        simp [hsend]

/-- A host with one tool alias and one mapped directory. -/
def aliasEnv : ClientEnv :=
  ⟨some (ascii "host.h.tool.cc = gcc -O\nhost.h.map.1 = /w|R:\n"), true, false, false,
    some (ascii "/w/s"), true, fun _ => true⟩

/-- An alias and a word arrive as they were asked for. -/
theorem client_request_faithful_alias :
    asked aliasEnv [ascii "h", ascii "@cc", ascii "a.c"] =
        some (.run false [ascii "gcc -O", ascii "a.c"]) ∧
      clientMain aliasEnv [ascii "h", ascii "@cc", ascii "a.c"] =
        ⟨[ascii "CWD R:/s"], some (ascii "RUN gcc -O a.c")⟩ ∧
      Faithful aliasEnv [ascii "h", ascii "@cc", ascii "a.c"] := by
  have hask : asked aliasEnv [ascii "h", ascii "@cc", ascii "a.c"] =
      some (.run false [ascii "gcc -O", ascii "a.c"]) := by
    decide +kernel
  have hdir : askedDir aliasEnv [ascii "h", ascii "@cc", ascii "a.c"] =
      .mapped (ascii "R:/s") := by
    decide +kernel
  refine ⟨hask, by decide +kernel, (client_request_faithful_iff aliasEnv _ (by decide)).mpr ?_⟩
  intro a ha
  rw [hask] at ha
  obtain rfl := Option.some.inj ha
  refine ⟨Or.inr ⟨by decide, Or.inl (by decide)⟩, ?_⟩
  rintro dir ⟨-, -, hmapped⟩
  rw [hdir] at hmapped
  rw [← PmResult.mapped.inj hmapped]
  unfold SparesRun
  decide +kernel

/-- A line feed in a word sends a second command. -/
theorem client_request_splits_word :
    ¬ Faithful aliasEnv [ascii "h", ascii "ls\nSTAT"] := by
  intro hfaithful
  have hask : asked aliasEnv [ascii "h", ascii "ls\nSTAT"] =
      some (.run false [ascii "ls\nSTAT"]) := by
    decide +kernel
  have hmain : clientMain aliasEnv [ascii "h", ascii "ls\nSTAT"] =
      ⟨[ascii "CWD R:/s"], some (ascii "RUN ls\nSTAT")⟩ := by
    decide +kernel
  rw [Faithful, hask, hmain] at hfaithful
  obtain ⟨verb, -, hread⟩ :=
    hfaithful ⟨[], Sent.text ⟨[ascii "CWD R:/s"], some (ascii "RUN ls\nSTAT")⟩⟩
      (by simp [Source.Steady]) rfl
  have hone : requestsIn (.run false [ascii "ls\nSTAT"])
      ⟨[], Sent.text ⟨[ascii "CWD R:/s"], some (ascii "RUN ls\nSTAT")⟩⟩ =
        [(ascii "RUN", some (ascii "ls"))] := by
    decide +kernel
  rw [hone] at hread
  simp [Asked.arg, joinWords, List.intercalate] at hread
  exact absurd hread.2 (by decide)

end GrandCross
