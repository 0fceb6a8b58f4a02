/-!
# Stateful runs that may fail or run out of fuel

A run takes a state and ends in one of three ways: with a value, with a fault, or without an
answer because its fuel is used up. The state survives a fault.
-/

namespace Lox

inductive Outcome (σ ε α : Type) where
  | done (value : α) (state : σ)
  | failed (fault : ε) (state : σ)
  | exhausted

def Run (σ ε α : Type) : Type := σ → Outcome σ ε α

namespace Run

section
variable {σ ε α β : Type}

@[inline] protected def pure (a : α) : Run σ ε α := fun s => .done a s

@[inline] protected def bind (x : Run σ ε α) (f : α → Run σ ε β) : Run σ ε β := fun s =>
  match x s with
  | .done a s' => f a s'
  | .failed e s' => .failed e s'
  | .exhausted => .exhausted

@[inline] instance : Monad (Run σ ε) where
  pure := Run.pure
  bind := Run.bind

@[inline] def fail (e : ε) : Run σ ε α := fun s => .failed e s

/-- No fuel is left. -/
@[inline] def exhausted : Run σ ε α := fun _ => .exhausted

@[inline] def read (f : σ → α) : Run σ ε α := fun s => .done (f s) s

@[inline] def update (f : σ → σ) : Run σ ε Unit := fun s => .done () (f s)

/-- Reads and updates in one step. -/
@[inline] def step (f : σ → α × σ) : Run σ ε α := fun s => .done (f s).1 (f s).2

@[inline] def ofExcept (x : Except ε α) : Run σ ε α := fun s =>
  match x with
  | .ok a => .done a s
  | .error e => .failed e s

/-! ## What a run does to a state -/

@[simp] theorem pure_apply (a : α) (s : σ) : (pure a : Run σ ε α) s = .done a s := rfl

theorem bind_apply (x : Run σ ε α) (f : α → Run σ ε β) (s : σ) :
    (x >>= f) s = match x s with
      | .done a s' => f a s'
      | .failed e s' => .failed e s'
      | .exhausted => .exhausted := rfl

theorem bind_of_done {x : Run σ ε α} {f : α → Run σ ε β} {a : α} {s s' : σ} (h : x s = .done a s') :
    (x >>= f) s = f a s' := by
  rw [bind_apply, h]

/-- A run with a value has one in each of its parts. -/
theorem of_bind_done {x : Run σ ε α} {f : α → Run σ ε β} {b : β} {s s'' : σ} (h : (x >>= f) s = .done b s'') :
    ∃ a s', x s = .done a s' ∧ f a s' = .done b s'' := by
  rw [bind_apply] at h
  cases hx : x s with
  | done a s' => rw [hx] at h; exact ⟨a, s', rfl, h⟩
  | failed e s' => rw [hx] at h; cases h
  | exhausted => rw [hx] at h; cases h

@[simp] theorem fail_apply (e : ε) (s : σ) : (fail e : Run σ ε α) s = .failed e s := rfl

@[simp] theorem exhausted_apply (s : σ) : (exhausted : Run σ ε α) s = .exhausted := rfl

@[simp] theorem read_apply (f : σ → α) (s : σ) : (read f : Run σ ε α) s = .done (f s) s := rfl

@[simp] theorem update_apply (f : σ → σ) (s : σ) : (update f : Run σ ε Unit) s = .done () (f s) := rfl

end

end Run

end Lox
