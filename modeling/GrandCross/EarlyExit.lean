import Mathlib.Tactic

/-!
# Procedures with a state and an early exit

A procedure reads and changes a state and either returns a value or stops
early with an exit value; the state survives both.  `Keeps` is the triple of
an invariant of the state, what holds of the value and what holds of the exit.
Nothing here depends on a particular program.
-/

namespace EarlyExit

variable {σ ε α β : Type}

abbrev Proc (σ ε α : Type) := ExceptT ε (StateM σ) α

/-- Run a procedure: its outcome and the state it leaves. -/
def exec (m : Proc σ ε α) (s : σ) : Except ε α × σ :=
  StateT.run (ExceptT.run m) s

/-- A total step on the state, as a procedure. -/
def act (f : σ → α × σ) : Proc σ ε α :=
  ExceptT.lift fun s => f s

/-- A missing value stops the procedure. -/
def need (exit : ε) : Option α → Proc σ ε α
  | some a => pure a
  | none => throw exit

@[simp] theorem exec_pure (a : α) (s : σ) :
    exec (pure a : Proc σ ε α) s = (.ok a, s) := rfl

@[simp] theorem exec_throw (e : ε) (s : σ) :
    exec (throw e : Proc σ ε α) s = (.error e, s) := rfl

@[simp] theorem exec_act (f : σ → α × σ) (s : σ) :
    exec (act f : Proc σ ε α) s = (.ok (f s).1, (f s).2) := rfl

theorem exec_bind (m : Proc σ ε α) (f : α → Proc σ ε β) (s : σ) :
    exec (m >>= f) s =
      match exec m s with
      | (.ok a, t) => exec (f a) t
      | (.error e, t) => (.error e, t) := by
  show StateT.run (ExceptT.run (m >>= f)) s = _
  rw [ExceptT.run_bind]
  simp only [exec, StateT.run_bind]
  cases h : StateT.run (ExceptT.run m) s with
  | mk out t =>
      cases out with
      | ok a => rfl
      | error e => rfl

/-- From a state with `I`, the procedure ends in a state with `I`, with a
value in `R` or an exit in `Q`. -/
def Keeps (I : σ → Prop) (m : Proc σ ε α) (R : α → Prop) (Q : ε → Prop) :
    Prop :=
  ∀ s, I s → I (exec m s).2 ∧
    match (exec m s).1 with
    | .ok a => R a
    | .error e => Q e

section Rules

variable {I : σ → Prop} {R : α → Prop} {Q : ε → Prop}

theorem Keeps.pure {a : α} (ha : R a) :
    Keeps I (Pure.pure a : Proc σ ε α) R Q := by
  intro s hs
  exact ⟨hs, ha⟩

theorem Keeps.throw {e : ε} (he : Q e) :
    Keeps I (MonadExcept.throw e : Proc σ ε α) R Q := by
  intro s hs
  exact ⟨hs, he⟩

theorem Keeps.act {f : σ → α × σ} (hf : ∀ s, I s → I (f s).2 ∧ R (f s).1) :
    Keeps I (EarlyExit.act f : Proc σ ε α) R Q := by
  intro s hs
  exact hf s hs

theorem Keeps.need {exit : ε} {o : Option α} (hsome : ∀ a, o = some a → R a)
    (hexit : Q exit) : Keeps I (EarlyExit.need exit o : Proc σ ε α) R Q := by
  cases o with
  | none => exact Keeps.throw hexit
  | some a => exact Keeps.pure (hsome a rfl)

theorem Keeps.bind {m : Proc σ ε α} {f : α → Proc σ ε β} {R' : β → Prop}
    (hm : Keeps I m R Q) (hf : ∀ a, R a → Keeps I (f a) R' Q) :
    Keeps I (m >>= f) R' Q := by
  intro s hs
  have hfirst := hm s hs
  rw [exec_bind]
  cases h : exec m s with
  | mk out t =>
      rw [h] at hfirst
      cases out with
      | error e => exact hfirst
      | ok a => exact hf a hfirst.2 t hfirst.1

theorem Keeps.ite {c : Prop} [Decidable c] {m n : Proc σ ε α}
    (hm : c → Keeps I m R Q) (hn : ¬ c → Keeps I n R Q) :
    Keeps I (if c then m else n) R Q := by
  split_ifs with hc
  · exact hm hc
  · exact hn hc

theorem Keeps.weaken {m : Proc σ ε α} {R' : α → Prop}
    (hm : Keeps I m R Q) (hR : ∀ a, R a → R' a) : Keeps I m R' Q := by
  intro s hs
  have h := hm s hs
  cases hout : (exec m s).1 with
  | ok a =>
      rw [hout] at h
      exact ⟨h.1, hR a h.2⟩
  | error e =>
      rw [hout] at h
      exact h

end Rules

/-! ## Two procedures -/

/-- From the states with `I` two procedures do the same; they keep `I`, and
their value is in `R`. -/
def Alike (I : σ → Prop) (m n : Proc σ ε α) (R : α → Prop) : Prop :=
  ∀ s, I s → exec m s = exec n s ∧ I (exec m s).2 ∧
    ∀ a, (exec m s).1 = .ok a → R a

section Alike

variable {I : σ → Prop} {R : α → Prop}

theorem Alike.pure {a : α} (ha : R a) :
    Alike I (Pure.pure a : Proc σ ε α) (Pure.pure a) R := by
  intro s hs
  refine ⟨rfl, hs, ?_⟩
  rintro b ⟨⟩
  exact ha

theorem Alike.throw (e : ε) :
    Alike I (MonadExcept.throw e : Proc σ ε α) (MonadExcept.throw e) R := by
  intro s hs
  refine ⟨rfl, hs, ?_⟩
  rintro b ⟨⟩

theorem Alike.act
    {f g : σ → α × σ} (hfg : ∀ s, I s → f s = g s)
    (hf : ∀ s, I s → I (f s).2 ∧ R (f s).1) :
    Alike I (EarlyExit.act f : Proc σ ε α) (EarlyExit.act g) R := by
  intro s hs
  rw [exec_act, exec_act, hfg s hs]
  have hkeeps := hf s hs
  rw [hfg s hs] at hkeeps
  refine ⟨rfl, hkeeps.1, ?_⟩
  rintro b ⟨⟩
  exact hkeeps.2

theorem Alike.need {exit : ε} {o : Option α} (hsome : ∀ a, o = some a → R a) :
    Alike I (EarlyExit.need exit o : Proc σ ε α) (EarlyExit.need exit o) R := by
  cases o with
  | none => exact Alike.throw exit
  | some a => exact Alike.pure (hsome a rfl)

theorem Alike.bind
    {m n : Proc σ ε α} {f g : α → Proc σ ε β} {R' : β → Prop}
    (hmn : Alike I m n R) (hfg : ∀ a, R a → Alike I (f a) (g a) R') :
    Alike I (m >>= f) (n >>= g) R' := by
  intro s hs
  obtain ⟨heq, hkept, hval⟩ := hmn s hs
  rw [exec_bind, exec_bind, ← heq]
  cases h : exec m s with
  | mk out t =>
      rw [h] at hkept hval
      cases out with
      | error e =>
          refine ⟨rfl, hkept, ?_⟩
          rintro b ⟨⟩
      | ok a => exact hfg a (hval a rfl) t hkept

theorem Alike.ite
    {c : Prop} [Decidable c] {m m' n n' : Proc σ ε α}
    (hm : c → Alike I m m' R) (hn : ¬ c → Alike I n n' R) :
    Alike I (if c then m else n) (if c then m' else n') R := by
  split_ifs with hc
  · exact hm hc
  · exact hn hc

end Alike

/-! ## One run -/

/-- The outcome of the procedure from one state, and the state it leaves. -/
def Ends (m : Proc σ ε α) (s : σ) (Q : Except ε α → σ → Prop) : Prop :=
  Q (exec m s).1 (exec m s).2

section Ends

variable {s : σ} {Q : Except ε β → σ → Prop}

theorem Ends.pure {b : β} (h : Q (.ok b) s) : Ends (Pure.pure b : Proc σ ε β) s Q := h

theorem Ends.throw {e : ε} (h : Q (.error e) s) :
    Ends (MonadExcept.throw e : Proc σ ε β) s Q := h

theorem Ends.act_bind
    {g : σ → α × σ} {f : α → Proc σ ε β} (h : Ends (f (g s).1) (g s).2 Q) :
    Ends (EarlyExit.act g >>= f) s Q := by
  unfold Ends at h ⊢
  rw [exec_bind, exec_act]
  exact h

theorem Ends.need_bind
    {exit : ε} {o : Option α} {f : α → Proc σ ε β} (hnone : Q (.error exit) s)
    (hsome : ∀ a, o = some a → Ends (f a) s Q) :
    Ends (EarlyExit.need exit o >>= f) s Q := by
  cases o with
  | none => exact hnone
  | some a => exact hsome a rfl

end Ends

end EarlyExit
