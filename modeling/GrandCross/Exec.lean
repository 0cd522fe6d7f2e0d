import GrandCross.LineIo

/-!
# Bounded strings and the shell script of a command

`util.c` concatenates into fixed buffers and cuts what does not fit;
`exec_psx.c` uses it to wrap a command line and the session's environment
into one subshell.
-/

namespace GrandCross

open CText

/-- `gcds_strlcpy` into a buffer of `size` bytes: the copy and the length of
the source. -/
def gcdsStrlcpy (src : Bytes) (size : ℕ) : Bytes × ℕ :=
  (src.take (size - 1), src.length)

/-- `gcds_strlcat`: the joined string and the length it tried to create. -/
def gcdsStrlcat (dst src : Bytes) (size : ℕ) : Bytes × ℕ :=
  (if dst.length < size - 1 then dst ++ src.take (size - 1 - dst.length)
    else dst, dst.length + src.length)

/-- What fits behind the string. -/
theorem gcdsStrlcat_fst (dst src : Bytes) (size : ℕ) :
    (gcdsStrlcat dst src size).1 = dst ++ src.take (size - 1 - dst.length) := by
  unfold gcdsStrlcat
  by_cases hroom : dst.length < size - 1
  · rw [if_pos hroom]
  · have hnone : size - 1 - dst.length = 0 := by omega
    rw [if_neg hroom, hnone, List.take_zero, List.append_nil]

/-- With room for both, nothing is cut. -/
theorem gcdsStrlcat_fits
    {dst src : Bytes} {size : ℕ} (h : dst.length + src.length < size) :
    gcdsStrlcat dst src size = (dst ++ src, dst.length + src.length) := by
  apply Prod.ext
  · rw [gcdsStrlcat_fst, List.take_of_length_le (by omega)]
  · rfl

def gcdsStarts (s pfx : Bytes) : Bool := pfx.isPrefixOf s

structure EnvEntry where
  name : Bytes
  val : Bytes
  deriving DecidableEq

def quote : Byte := 39
def backslash : Byte := 92

def catQuotedLoop (size : ℕ) : Bytes → Bytes → Option Bytes
  | dst, [] => if size ≤ dst.length + 1 then none else some (dst ++ [quote])
  | dst, b :: src =>
      if b = quote then
        if size ≤ dst.length + 4 then none
        else catQuotedLoop size (dst ++ [quote, backslash, quote, quote]) src
      else if size ≤ dst.length + 1 then none
      else catQuotedLoop size (dst ++ [b]) src

def catQuoted (dst : Bytes) (size : ℕ) (src : Bytes) : Option Bytes :=
  if size ≤ dst.length + 2 then none
  else catQuotedLoop size (dst ++ [quote]) src

/-- The `export N='v'; ` prefix of every entry. -/
def buildExports (size : ℕ) : Bytes → List EnvEntry → Option Bytes
  | dst, [] => some dst
  | dst, e :: env =>
      let dst := (gcdsStrlcat dst (ascii "export ") size).1
      let dst := (gcdsStrlcat dst e.name size).1
      let dst := (gcdsStrlcat dst (ascii "=") size).1
      match catQuoted dst size e.val with
      | none => none
      | some dst => buildExports size (gcdsStrlcat dst (ascii "; ") size).1 env

def buildScript (size : ℕ) (cmdline : Bytes) (env : List EnvEntry) :
    Option Bytes :=
  match buildExports size (gcdsStrlcat [] (ascii "( ") size).1 env with
  | none => none
  | some dst =>
      let withCmd := gcdsStrlcat dst cmdline size
      if size ≤ withCmd.2 then none
      else
        let closed := gcdsStrlcat withCmd.1 (ascii " )") size
        if size ≤ closed.2 then none else some closed.1

def scriptMax : ℕ := 32768

/-- The status `waitpid` reports for a child that has ended. -/
inductive WaitStatus where
  | exited (code : ℕ)
  | signaled (sig : ℕ)
  deriving DecidableEq

def WaitStatus.code : WaitStatus → ℕ
  | .exited c => c % 256
  | .signaled s => (128 + s) % 256

theorem WaitStatus.code_lt (st : WaitStatus) : st.code < 256 := by
  cases st <;> exact Nat.mod_lt _ (by omega)

/-- A command that has been started: all it will write to stdout and stderr,
how it ends, how its stdin pipe takes writes, and, for each offset that both
streams reach, whether stdout is the last to write there. -/
structure Child where
  out : Bytes
  err : Bytes
  status : WaitStatus
  stdin : List (Option ℕ) := []
  order : List Bool := []
  deriving DecidableEq

/-- A file that both streams have been written to, each from its own offset: of
two bytes the later one stays, which is the one of stderr where the order does
not say. -/
def sharedFile : List Bool → Bytes → Bytes → Bytes
  | _, [], err => err
  | _, o :: out, [] => o :: out
  | order, o :: out, e :: err =>
      (if order.headD false then o else e) :: sharedFile order.tail out err

theorem sharedFile_self (order : List Bool) (s : Bytes) : sharedFile order s s = s := by
  induction s generalizing order with
  | nil => rfl
  | cons b s ih => rw [sharedFile, ite_self, ih]

end GrandCross
