import GrandCross.ClientMain

/-!
# Path mapping of the client

`client/pathmap.c` maps the local working directory to a remote one by the
`map.<n>` entries of a host, and replaces remote prefixes in output lines by
the local ones.  Replacing without a bound on the output is a function of its
own; the loop of `pm_back_line` computes its beginning.
-/

namespace GrandCross

open CText

def bar : Byte := 124
def dquote : Byte := 34
def fwdSlash : Byte := 47

def pmMax : ℕ := 8

/-! ## Entries -/

/-- `local|remote[|sep]`, cut at its bars. -/
structure PmEntry where
  loc : Bytes
  remote : Bytes
  sepf : Option Bytes
  deriving DecidableEq

def pmEntry (v : Bytes) : PmEntry :=
  let rest := (cutAt bar v).2.getD []
  ⟨(cutAt bar v).1, (cutAt bar rest).1, (cutAt bar rest).2⟩

/-- The separator `pm_back_line` reads. -/
def PmEntry.sep (e : PmEntry) : Byte :=
  match e.sepf with
  | some s => s.headD nul
  | none => if e.remote.contains backslash then backslash else fwdSlash

/-- The separator `pm_cwd` reads. -/
def PmEntry.cwdSep (e : PmEntry) : Byte :=
  if e.sep = nul then fwdSlash else e.sep

/-- The values of `map.1` to `map.8` that have a bar. -/
def pmMaps (kv : List GcdsKv) (host : Bytes) : List Bytes :=
  (List.range pmMax).filterMap fun i =>
    (confGet kv (rcKey host (ascii "map." ++ [UInt8.ofNat (49 + i)]))).filter
      (·.contains bar)

/-! ## The local prefix -/

/-- The loop over trailing slashes, from the given length down. -/
def pfxTrim (pfx : Bytes) : ℕ → ℕ
  | 0 => 0
  | 1 => 1
  | n + 2 => if pfx[n + 1]? = some fwdSlash then pfxTrim pfx (n + 1) else n + 2

def pfxNormLen (pfx : Bytes) : ℕ := pfxTrim pfx pfx.length

/-- The prefix without its trailing slashes. -/
def pfxNorm (pfx : Bytes) : Bytes := pfx.take (pfxNormLen pfx)

/-- The matched length, on a component boundary. -/
def pfxMatch (cwd pfx : Bytes) : Option ℕ :=
  let n := pfxNormLen pfx
  if n = 0 ∨ cwd.take n ≠ pfx.take n then none
  else
    match cwd[n]? with
    | none => some n
    | some c => if c = fwdSlash then some n else none

/-! ## Forward -/

def pmBuildLoop (size : ℕ) (sep : Byte) : Bytes → Bytes → Option Bytes
  | out, [] => some out
  | out, b :: rest =>
      if size - 1 ≤ out.length then none
      else pmBuildLoop size sep (out ++ [if b = fwdSlash then sep else b]) rest

/-- What is left of the directory when the remote prefix ends with the
separator. -/
def pmRest (remote rest : Bytes) (sep : Byte) : Bytes :=
  if rest.head? = some fwdSlash ∧ remote.getLast? = some sep then rest.drop 1 else rest

def pmBuild (size : ℕ) (remote rest : Bytes) (sep : Byte) : Option Bytes :=
  if size ≤ (gcdsStrlcpy remote size).2 then none
  else
    let out := (gcdsStrlcpy remote size).1
    pmBuildLoop size sep out (pmRest out rest sep)

/-- The longest match so far; a later one has to be longer. -/
def pmBest (cwd : Bytes) : List Bytes → Option (ℕ × Bytes) → Option (ℕ × Bytes)
  | [], best => best
  | v :: vs, best =>
      match pfxMatch cwd (pmEntry v).loc with
      | none => pmBest cwd vs best
      | some m => pmBest cwd vs (if best.all (·.1 < m) then some (m, v) else best)

inductive PmResult where
  | mapped (out : Bytes)
  | unmapped
  | overflow
  deriving DecidableEq

/-- `pm_cwd` with the result of `getcwd` into its buffer of 512 bytes. -/
def pmCwd (kv : List GcdsKv) (host : Bytes) (getcwd : Option Bytes) (size : ℕ) :
    PmResult :=
  match getcwd with
  | none => .unmapped
  | some cwd =>
      match pmBest cwd (pmMaps kv host) none with
      | none => .unmapped
      | some (m, v) =>
          let e := pmEntry v
          match pmBuild size e.remote (cwd.drop m) e.cwdSep with
          | none => .overflow
          | some out => .mapped out

/-! ## Back -/

def lower (b : Byte) : Byte := if 65 ≤ b ∧ b ≤ 90 then b - 65 + 97 else b

def ciEq (a b : Byte) : Bool := lower a = lower b

def byteEq (ci : Bool) (a b : Byte) : Bool := if ci then ciEq a b else a = b

def atMatch (ci : Bool) : Bytes → Bytes → Option ℕ
  | _, [] => some 0
  | [], _ :: _ => none
  | h :: hay, c :: needle =>
      if byteEq ci h c then (atMatch ci hay needle).map (· + 1)
      else none

/-- The first entry whose remote prefix stands at the front of the line. -/
def pmFind (maps : List PmEntry) (line : Bytes) : Option PmEntry :=
  maps.find? fun e =>
    match atMatch (e.sep = backslash) line e.remote with
    | some rlen => 0 < rlen
    | none => false

def inToken (b : Byte) : Bool := ¬ (b = sp ∨ b = tab ∨ b = dquote)

def tokenBack (b : Byte) : Byte := if b = backslash then fwdSlash else b

/-- Where the copying stops: `sizeof(out) - 2`. -/
def backMax : ℕ := 2 * lineMax - 2

def pmBackLoop (maps : List PmEntry) : ℕ → Bytes → Bytes → Bytes
  | 0, _, out => out
  | _ + 1, [], out => out
  | fuel + 1, b :: line, out =>
      if backMax ≤ out.length then out
      else
        match pmFind maps (b :: line) with
        | none => pmBackLoop maps fuel line (out ++ [b])
        | some e =>
            let out := out ++ (pfxNorm e.loc).take (backMax - out.length)
            let line := (b :: line).drop e.remote.length
            if e.sep = backslash then
              let token := (line.takeWhile inToken).take (backMax - out.length)
              pmBackLoop maps fuel (line.drop token.length) (out ++ token.map tokenBack)
            else pmBackLoop maps fuel line out

/-- `pm_back_line`: the line afterwards. -/
def pmBackLine (kv : List GcdsKv) (host line : Bytes) (size : ℕ) : Bytes :=
  let maps := pmMaps kv host
  if maps = [] then line
  else (gcdsStrlcpy (pmBackLoop (maps.map pmEntry) line.length line []) size).1

/-! ## Replacing without a bound -/

def pmSubst (maps : List PmEntry) : ℕ → Bytes → Bytes
  | 0, _ => []
  | _ + 1, [] => []
  | fuel + 1, b :: line =>
      match pmFind maps (b :: line) with
      | none => b :: pmSubst maps fuel line
      | some e =>
          let line := (b :: line).drop e.remote.length
          pfxNorm e.loc ++
            if e.sep = backslash then
              (line.takeWhile inToken).map tokenBack ++
                pmSubst maps fuel (line.drop (line.takeWhile inToken).length)
            else pmSubst maps fuel line

theorem pmBackLoop_full
    {maps : List PmEntry} {fuel : ℕ} {line out : Bytes} (hfull : backMax ≤ out.length) :
    pmBackLoop maps fuel line out = out := by
  match fuel, line with
  | 0, _ => rfl
  | _ + 1, [] => rfl
  | _ + 1, _ :: _ => rw [pmBackLoop, if_pos hfull]

theorem take_clip (lim : ℕ) {out : Bytes} (hout : out.length ≤ lim) (a x : Bytes) :
    (out ++ a.take (lim - out.length) ++ x).take lim = (out ++ a ++ x).take lim := by
  by_cases hfits : a.length ≤ lim - out.length
  · rw [List.take_of_length_le hfits]
  · have hlen : (out ++ a.take (lim - out.length)).length = lim := by
      rw [List.length_append, List.length_take]
      omega
    have hclip : (out ++ a).take lim = out ++ a.take (lim - out.length) := by
      rw [List.take_append, List.take_of_length_le hout]
    have hlong : lim ≤ (out ++ a).length := by
      rw [List.length_append]
      omega
    calc (out ++ a.take (lim - out.length) ++ x).take lim
        = out ++ a.take (lim - out.length) := by
          rw [List.take_append_of_le_length hlen.ge, List.take_of_length_le hlen.le]
      _ = (out ++ a ++ x).take lim := by
          rw [List.take_append_of_le_length hlong, hclip]

/-- The loop writes the beginning of the replaced line. -/
theorem pmBackLoop_eq
    (maps : List PmEntry) (fuel : ℕ) (line : Bytes) {out : Bytes}
    (hout : out.length ≤ backMax) :
    pmBackLoop maps fuel line out = (out ++ pmSubst maps fuel line).take backMax := by
  induction fuel generalizing line out with
  | zero => simp [pmBackLoop, pmSubst, List.take_of_length_le hout]
  | succ fuel ih =>
      cases line with
      | nil => simp [pmBackLoop, pmSubst, List.take_of_length_le hout]
      | cons b line =>
          rw [pmBackLoop, pmSubst]
          by_cases hfull : backMax ≤ out.length
          · rw [if_pos hfull, List.take_append_of_le_length hfull,
              List.take_of_length_le hout]
          · rw [if_neg hfull]
            cases hfind : pmFind maps (b :: line) with
            | none =>
                dsimp only
                rw [ih line (by rw [List.length_append, List.length_singleton]; omega),
                  List.append_assoc]
                rfl
            | some e =>
                dsimp only
                generalize hrest : (b :: line).drop e.remote.length = rest
                have hprefix := take_clip backMax hout (pfxNorm e.loc)
                generalize hout1 :
                  out ++ (pfxNorm e.loc).take (backMax - out.length) = out1 at hprefix ⊢
                have hlen1 : out1.length ≤ backMax := by
                  rw [← hout1, List.length_append, List.length_take]
                  omega
                rw [← List.append_assoc]
                split_ifs with hsep
                · rw [← hprefix]
                  -- The token may be cut by the bound; then nothing follows.
                  by_cases hfits : (rest.takeWhile inToken).length ≤ backMax - out1.length
                  · rw [List.take_of_length_le hfits, ih, List.append_assoc]
                    rw [List.length_append, List.length_map]
                    omega
                  · have hclip := take_clip backMax hlen1
                      ((rest.takeWhile inToken).map tokenBack)
                    have htoken : (out1 ++ ((rest.takeWhile inToken).take
                        (backMax - out1.length)).map tokenBack).length = backMax := by
                      rw [List.length_append, List.length_map, List.length_take]
                      omega
                    rw [pmBackLoop_full htoken.ge, ← List.append_assoc, ← hclip,
                      ← List.map_take, List.take_append_of_le_length htoken.ge,
                      List.take_of_length_le htoken.le]
                · rw [← hprefix, ih rest hlen1]

theorem atMatch_some
    {ci : Bool} {hay needle : Bytes} {n : ℕ} (h : atMatch ci hay needle = some n) :
    n = needle.length ∧ ∃ front rest, hay = front ++ rest ∧
      front.length = needle.length ∧ front.map lower = needle.map lower := by
  induction needle generalizing hay n with
  | nil =>
      have hn : 0 = n := by
        cases hay <;> exact Option.some.inj h
      exact ⟨hn.symm, [], hay, rfl, rfl, rfl⟩
  | cons c needle ih =>
      cases hay with
      | nil => simp [atMatch] at h
      | cons b hay =>
          rw [atMatch] at h
          split_ifs at h with hhead
          obtain ⟨k, hk, rfl⟩ := Option.map_eq_some_iff.mp h
          obtain ⟨rfl, front, rest, rfl, hlen, hlower⟩ := ih hk
          have hb : lower b = lower c := by
            cases ci with
            | true => simpa [byteEq, ciEq] using hhead
            | false =>
                have heq : b = c := by simpa [byteEq] using hhead
                rw [heq]
          exact ⟨rfl, b :: front, rest, rfl, by simp [hlen], by simp [hb, hlower]⟩

theorem atMatch_front (ci : Bool) (needle rest : Bytes) :
    atMatch ci (needle ++ rest) needle = some needle.length := by
  induction needle with
  | nil => cases rest <;> rfl
  | cons c needle ih =>
      have hhead : byteEq ci c c = true := by
        cases ci <;> simp [byteEq, ciEq]
      rw [List.cons_append, atMatch, if_pos hhead, ih]
      rfl

/-- A line in which nothing is found is copied. -/
theorem pmSubst_none
    {maps : List PmEntry} {fuel : ℕ} {line : Bytes} (hfuel : line.length ≤ fuel)
    (hnone : ∀ x, x <:+ line → pmFind maps x = none) :
    pmSubst maps fuel line = line := by
  induction line generalizing fuel with
  | nil => cases fuel <;> rfl
  | cons b line ih =>
      obtain ⟨fuel, rfl⟩ : ∃ k, fuel = k + 1 := ⟨fuel - 1, by simp at hfuel; omega⟩
      rw [pmSubst, hnone _ List.suffix_rfl]
      dsimp only
      rw [ih (by simpa using hfuel) fun x hx => hnone x (hx.trans (List.suffix_cons b line))]

end GrandCross
