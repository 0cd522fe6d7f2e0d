import GrandCross.ShellWord

/-!
# Tokens of a POSIX shell

Token recognition, one byte at a time: operators, words with the three kinds of
quoting and with nested expansions, and comments.  A token keeps its quotes.  A
here-document is not read, since its body starts on a line of its own, and inside
`$(` a parenthesis that belongs to a `case` pattern counts like any other.
Nothing depends on a particular program.
-/

namespace ShellTokens

open CText
open ShellWord

def dquote : Byte := 34
def numberSign : Byte := 35
def dollarSign : Byte := 36
def openParen : Byte := 40
def closeParen : Byte := 41
def backquote : Byte := 96
def openBrace : Byte := 123
def closeBrace : Byte := 125

inductive Token where
  | word (text : Bytes)
  /-- The number in front of a redirection. -/
  | ioNumber (text : Bytes)
  | op (text : Bytes)
  deriving DecidableEq

/-! ## Characters and operators -/

def isBlank (b : Byte) : Bool := b = sp || b = tab

def startsOp (b : Byte) : Bool :=
  [lf, 38, openParen, closeParen, 59, 60, 62, 124].contains b

/-- The operators of more than one byte. -/
def longOps : List Bytes :=
  [ascii "&&", ascii "||", ascii ";;", ascii "<<", ascii ">>", ascii "<&", ascii ">&",
    ascii "<>", ascii ">|", ascii "<<-"]

/-! ## The state of the lexer -/

/-- What encloses the byte that is read. -/
inductive Ctx where
  | dquote
  /-- A command substitution. -/
  | subst
  /-- A subshell inside a command substitution. -/
  | paren
  /-- A parameter expansion in braces. -/
  | brace
  | back
  deriving DecidableEq

inductive Mode where
  /-- No word is being read here, so a comment may start. -/
  | fresh
  | word
  | single
  | escaped (wasFresh : Bool)
  /-- Behind an unquoted dollar sign. -/
  | dollar
  | comment
  deriving DecidableEq

/-- The token that is being read. -/
inductive Part where
  | none
  | word (text : Bytes)
  | op (text : Bytes)
  deriving DecidableEq

def Part.tokens : Part → List Token
  | .none => []
  | .word text => [.word text]
  | .op text => [.op text]

/-- The tokens of a part that an operator follows. -/
def Part.tokensBefore (p : Part) (b : Byte) : List Token :=
  match p with
  | .word text =>
      if (b = 60 || b = 62) && text.all isDigit then [.ioNumber text] else [.word text]
  | p => p.tokens

structure State where
  tokens : List Token
  part : Part
  inside : List Ctx
  mode : Mode
  deriving DecidableEq

def State.start : State := ⟨[], .none, [], .fresh⟩

/-- The token being read is over. -/
def State.flush (st : State) : State :=
  { st with tokens := st.tokens ++ st.part.tokens, part := .none }

/-- One more byte of a word. -/
def State.push (st : State) (b : Byte) : State :=
  match st.part with
  | .word text => { st with part := .word (text ++ [b]) }
  | _ => { st.flush with part := .word [b] }

def State.enter (st : State) (c : Ctx) (mode : Mode) : State :=
  { st with inside := c :: st.inside, mode := mode }

def State.leave (st : State) (mode : Mode) : State :=
  { st with inside := st.inside.tail, mode := mode }

/-! ## One byte -/

/-- Quoting and expansions start alike wherever they are recognised. -/
def State.quoting (st : State) (b : Byte) : State :=
  if b = quote then { st.push b with mode := .single }
  else if b = dquote then (st.push b).enter .dquote .word
  else if b = backslash then { st with mode := .escaped (st.mode = .fresh) }
  else if b = dollarSign then { st.push b with mode := .dollar }
  else if b = backquote then (st.push b).enter .back .word
  else { st.push b with mode := .word }

def startsQuoting (b : Byte) : Bool :=
  [quote, dquote, backslash, dollarSign, backquote].contains b

/-- Whether a byte continues the operator that is being read. -/
def Part.extends : Part → Byte → Bool
  | .op text, b => longOps.contains (text ++ [b])
  | _, _ => false

def State.outer (st : State) (b : Byte) : State :=
  if startsQuoting b then st.quoting b
  else if st.part.extends b then
    match st.part with
    | .op text => { st with part := .op (text ++ [b]) }
    | _ => st
  else if startsOp b then
    { st with tokens := st.tokens ++ st.part.tokensBefore b, part := .op [b], mode := .fresh }
  else if isBlank b then { st.flush with mode := .fresh }
  else if st.mode = .fresh ∧ b = numberSign then { st.flush with mode := .comment }
  else { st.push b with mode := .word }

/-- A byte inside a command substitution: its text belongs to the word. -/
def State.inner (st : State) (after : Mode) (b : Byte) : State :=
  if b = closeParen then (st.push b).leave after
  else if b = openParen then (st.push b).enter .paren .fresh
  else if startsOp b || isBlank b then { st.push b with mode := .fresh }
  else if st.mode = .fresh ∧ b = numberSign then { st.push b with mode := .comment }
  else st.quoting b

def State.plain (st : State) (b : Byte) : State :=
  match st.inside with
  | [] => st.outer b
  | .subst :: _ => st.inner .word b
  | .paren :: _ => st.inner .fresh b
  | .dquote :: _ =>
      if b = dquote then (st.push b).leave .word
      else if b = quote then { st.push b with mode := .word }
      else st.quoting b
  | .brace :: _ =>
      if b = closeBrace then (st.push b).leave .word
      else st.quoting b
  | .back :: _ =>
      if b = backquote then (st.push b).leave .word
      else if b = backslash then { st with mode := .escaped false }
      else { st.push b with mode := .word }

def State.step (st : State) (b : Byte) : State :=
  match st.mode with
  | .single => { st.push b with mode := if b = quote then .word else .single }
  | .escaped wasFresh =>
      -- A backslash and the end of the line are no part of the text.
      if b = lf then { st with mode := if wasFresh then .fresh else .word }
      else { (st.push backslash).push b with mode := .word }
  | .comment =>
      if b = lf then { st with mode := .fresh }.plain b
      else if st.inside = [] then st
      else st.push b
  | .dollar =>
      if b = openParen then (st.push b).enter .subst .fresh
      else if b = openBrace then (st.push b).enter .brace .word
      else st.plain b
  | .fresh => st.plain b
  | .word => st.plain b

def State.run (st : State) (s : Bytes) : State := s.foldl State.step st

def State.finish (st : State) : List Token := st.tokens ++ st.part.tokens

def lex (s : Bytes) : List Token := (State.start.run s).finish

/-- The text ends outside every quote, escape and expansion. -/
def Complete (s : Bytes) : Prop :=
  (State.start.run s).inside = [] ∧
    [Mode.fresh, .word, .dollar, .comment].contains (State.start.run s).mode = true

instance (s : Bytes) : Decidable (Complete s) :=
  inferInstanceAs (Decidable (_ ∧ _))

/-- The text ends inside a comment. -/
def EndsInComment (s : Bytes) : Prop := (State.start.run s).mode = .comment

instance (s : Bytes) : Decidable (EndsInComment s) :=
  inferInstanceAs (Decidable (_ = _))

/-! ## Text behind other text -/

/-- The same state with tokens in front of its own. -/
def State.behind (ts : List Token) (st : State) : State :=
  { st with tokens := ts ++ st.tokens }

theorem run_append (st : State) (s t : Bytes) : st.run (s ++ t) = (st.run s).run t :=
  List.foldl_append

theorem flush_behind (ts : List Token) (st : State) :
    (st.behind ts).flush = st.flush.behind ts := by
  simp [State.flush, State.behind]

theorem push_behind (ts : List Token) (st : State) (b : Byte) :
    (st.behind ts).push b = (st.push b).behind ts := by
  unfold State.push
  cases hpart : st.part <;> simp [State.behind, State.flush, hpart]

theorem quoting_behind (ts : List Token) (st : State) (b : Byte) :
    (st.behind ts).quoting b = (st.quoting b).behind ts := by
  unfold State.quoting
  rw [push_behind]
  split_ifs <;> rfl

theorem outer_behind (ts : List Token) (st : State) (b : Byte) :
    (st.behind ts).outer b = (st.outer b).behind ts := by
  have hpart : (st.behind ts).part = st.part := rfl
  have hmode : (st.behind ts).mode = st.mode := rfl
  unfold State.outer
  rw [quoting_behind, flush_behind, push_behind, hpart, hmode]
  split_ifs
  · rfl
  · cases st.part <;> rfl
  · simp [State.behind]
  · rfl
  · rfl
  · rfl

theorem inner_behind (ts : List Token) (st : State) (after : Mode) (b : Byte) :
    (st.behind ts).inner after b = (st.inner after b).behind ts := by
  have hmode : (st.behind ts).mode = st.mode := rfl
  unfold State.inner
  rw [quoting_behind, push_behind, hmode]
  split_ifs <;> rfl

theorem plain_behind (ts : List Token) (st : State) (b : Byte) :
    (st.behind ts).plain b = (st.plain b).behind ts := by
  have hinside : (st.behind ts).inside = st.inside := rfl
  unfold State.plain
  rw [hinside, quoting_behind, push_behind]
  cases st.inside with
  | nil => exact outer_behind ts st b
  | cons c rest =>
      cases c with
      | subst => exact inner_behind ts st .word b
      | paren => exact inner_behind ts st .fresh b
      | dquote =>
          dsimp only
          split_ifs <;> rfl
      | brace =>
          dsimp only
          split_ifs <;> rfl
      | back =>
          dsimp only
          split_ifs <;> rfl

/-- What was read before does not change how a byte is read. -/
theorem step_behind (ts : List Token) (st : State) (b : Byte) :
    (st.behind ts).step b = (st.step b).behind ts := by
  have hmode : (st.behind ts).mode = st.mode := rfl
  have hinside : (st.behind ts).inside = st.inside := rfl
  unfold State.step
  rw [hmode, hinside, push_behind]
  cases st.mode with
  | fresh => exact plain_behind ts st b
  | word => exact plain_behind ts st b
  | single => rfl
  | escaped wasFresh =>
      dsimp only
      rw [push_behind, push_behind]
      split_ifs <;> rfl
  | dollar =>
      dsimp only
      rw [plain_behind]
      split_ifs <;> rfl
  | comment =>
      dsimp only
      split_ifs
      · exact plain_behind ts { st with mode := .fresh } b
      · rfl
      · rfl

theorem run_behind (ts : List Token) (st : State) (s : Bytes) :
    (st.behind ts).run s = (st.run s).behind ts := by
  induction s generalizing st with
  | nil => rfl
  | cons b s ih =>
      show ((st.behind ts).step b).run s = ((st.step b).run s).behind ts
      rw [step_behind, ih]

theorem finish_behind (ts : List Token) (st : State) :
    (st.behind ts).finish = ts ++ st.finish := by
  simp [State.behind, State.finish]

/-- Text that leaves the lexer where it starts is followed by the tokens of the
text behind it. -/
theorem lex_append
    {s : Bytes} {ts : List Token} (hs : State.start.run s = State.start.behind ts)
    (t : Bytes) : lex (s ++ t) = ts ++ lex t := by
  unfold lex
  rw [run_append, hs, run_behind, finish_behind]

/-! ## Plain words and quoted text -/

/-- A byte that only a word can hold. -/
def isPlain (b : Byte) : Bool :=
  !(startsQuoting b || startsOp b || isBlank b || b = numberSign)

/-- Plain bytes make up one word. -/
theorem run_plain
    {st : State} {text s : Bytes} (hpart : st.part = .word text) (hinside : st.inside = [])
    (hmode : st.mode = .word) (hs : ∀ b ∈ s, isPlain b = true) :
    st.run s = { st with part := .word (text ++ s) } := by
  induction s generalizing st text with
  | nil =>
      rw [List.append_nil, ← hpart]
      rfl
  | cons b s ih =>
      obtain ⟨hb, hs⟩ := List.forall_mem_cons.mp hs
      simp only [isPlain, Bool.not_eq_true', Bool.or_eq_false_iff] at hb
      have hstep : st.step b = { st with part := .word (text ++ [b]) } := by
        simp only [State.step, hmode, State.plain, hinside, State.outer, hb, hpart,
          Part.extends, State.push]
        simp
      have hrest := @ih { st with part := .word (text ++ [b]) } _ rfl hinside hmode hs
      show (st.step b).run s = _
      rw [hstep, hrest, List.append_assoc]
      rfl

/-- Quoted text is one part of a word, whatever its bytes. -/
theorem run_quoted
    {st : State} {text : Bytes} (hpart : st.part = .word text) (hinside : st.inside = [])
    (hmode : st.mode = .single) (v : Bytes) :
    st.run (v.flatMap quoteByte ++ [quote]) =
      { st with part := .word (text ++ (v.flatMap quoteByte ++ [quote])), mode := .word } := by
  induction v generalizing st text with
  | nil =>
      simp [State.run, State.step, hmode, State.push, hpart]
  | cons b v ih =>
      have hbyte : st.run (quoteByte b) =
          { st with part := .word (text ++ quoteByte b), mode := .single } := by
        unfold quoteByte
        split_ifs with hb
        · have hesc : startsQuoting backslash = true := by decide
          have hbq : backslash ≠ quote := by decide
          have hbd : backslash ≠ dquote := by decide
          have hql : quote ≠ lf := by decide
          have hqq : startsQuoting quote = true := by decide
          simp [State.run, State.step, hmode, State.push, hpart, State.plain, hinside,
            State.outer, hesc, State.quoting, hbq, hbd, hql, hqq]
        · simp [State.run, State.step, hmode, State.push, hpart, hb]
      have hrest := @ih { st with part := .word (text ++ quoteByte b), mode := .single } _
        rfl hinside rfl
      rw [List.flatMap_cons, List.append_assoc, run_append, hbyte, hrest, List.append_assoc]

/-- A semicolon ends a word, and the blank behind it ends the semicolon. -/
theorem run_semicolon
    {st : State} {text : Bytes} (hpart : st.part = .word text) (hinside : st.inside = [])
    (hmode : st.mode = .word) :
    st.run (ascii "; ") = { tokens := st.tokens ++ [.word text, .op (ascii ";")],
                            part := .none, inside := [], mode := .fresh } := by
  have hstep : st.step 59 =
      ⟨st.tokens ++ [.word text], .op [59], [], .fresh⟩ := by
    have hquoting : startsQuoting 59 = false := by decide
    have hop : startsOp 59 = true := by decide
    simp [State.step, hmode, State.plain, hinside, State.outer, hquoting, hop, hpart,
      Part.extends, Part.tokensBefore]
  have hblank : (⟨st.tokens ++ [.word text], .op [59], [], .fresh⟩ : State).step sp =
      ⟨st.tokens ++ [.word text] ++ [.op [59]], .none, [], .fresh⟩ := by
    have hquoting : startsQuoting sp = false := by decide
    have hop : startsOp sp = false := by decide
    have hext : longOps.contains ([59] ++ [sp]) = false := by decide
    have hsp : isBlank sp = true := by decide
    simp only [State.step, State.plain, State.outer, hquoting, hop, hsp, Part.extends, hext]
    rfl
  show (st.step 59).step sp = _
  rw [hstep, hblank, List.append_assoc]
  rfl

/-! ## An operator behind a whole text -/

theorem extends_blank (p : Part) : p.extends sp = false := by
  cases p with
  | none => rfl
  | word text => rfl
  | op text =>
      have hlast : ∀ o ∈ longOps, o.getLast? ≠ some sp := by decide
      simp only [Part.extends, List.contains_eq_mem, decide_eq_false_iff_not]
      intro hmem
      exact hlast _ hmem (by simp)

/-- Behind a whole text that leaves no comment open, a closing parenthesis is
an operator. -/
theorem run_close
    {st : State} (hinside : st.inside = [])
    (hmode : st.mode = .fresh ∨ st.mode = .word ∨ st.mode = .dollar) :
    (st.run [sp, closeParen]).finish = st.finish ++ [.op [closeParen]] := by
  have hblank : st.step sp = { st.flush with mode := .fresh } := by
    have hquoting : startsQuoting sp = false := by decide
    have hop : startsOp sp = false := by decide
    have hsp : isBlank sp = true := by decide
    have hplain : st.plain sp = { st.flush with mode := .fresh } := by
      simp only [State.plain, hinside, State.outer, hquoting, hop, hsp, extends_blank]
      simp
    rcases hmode with hmode | hmode | hmode
    · simp only [State.step, hmode]
      exact hplain
    · simp only [State.step, hmode]
      exact hplain
    · have hparen : sp ≠ openParen := by decide
      have hbrace : sp ≠ openBrace := by decide
      simp only [State.step, hmode, hparen, hbrace, if_false]
      exact hplain
  have hquoting : startsQuoting closeParen = false := by decide
  have hop : startsOp closeParen = true := by decide
  show ((st.step sp).step closeParen).finish = _
  rw [hblank]
  simp [State.step, State.plain, State.flush, hinside, State.outer, hquoting, hop,
    Part.extends, Part.tokensBefore, Part.tokens, State.finish]

/-- Inside a comment the rest of the line is lost. -/
theorem run_comment
    {st : State} (hinside : st.inside = []) (hmode : st.mode = .comment) {s : Bytes}
    (hs : lf ∉ s) : st.run s = st := by
  induction s with
  | nil => rfl
  | cons b s ih =>
      have hb : b ≠ lf := fun h => hs (by simp [h])
      have hstep : st.step b = st := by
        simp only [State.step, hmode, hb, if_false, hinside, if_true]
      show (st.step b).run s = st
      rw [hstep]
      exact ih fun h => hs (by simp [h])

end ShellTokens
