import Reshape.Event

/-!
# Computations that keep a log

A `Logged` computation has a value and the events on the way to it, in order. An `Eval` computation
may fail in between; its log then ends where it failed. `Eval.result` forgets the log and
`Eval.log` forgets the result, and both go through a computation step by step.
-/

namespace Reshape

/-- A value together with the events that happened on the way to it. -/
structure Logged (α : Type) where
  value : α
  log : List Event

namespace Logged

variable {α β : Type}

/-- Report an event. -/
def emit (event : Event) : Logged Unit := ⟨(), [event]⟩

instance : Monad Logged where
  pure value := ⟨value, []⟩
  map f x := ⟨f x.value, x.log⟩
  bind first next := ⟨(next first.value).value, first.log ++ (next first.value).log⟩

@[simp] theorem value_pure (value : α) : (pure value : Logged α).value = value := rfl

@[simp] theorem log_pure (value : α) : (pure value : Logged α).log = [] := rfl

@[simp] theorem value_bind (first : Logged α) (next : α → Logged β) :
    (first >>= next).value = (next first.value).value := rfl

@[simp] theorem log_bind (first : Logged α) (next : α → Logged β) :
    (first >>= next).log = first.log ++ (next first.value).log := rfl

@[simp] theorem value_map (f : α → β) (x : Logged α) : (f <$> x).value = f x.value := rfl

@[simp] theorem log_map (f : α → β) (x : Logged α) : (f <$> x).log = x.log := rfl

@[simp] theorem value_emit (event : Event) : (emit event).value = () := rfl

@[simp] theorem log_emit (event : Event) : (emit event).log = [event] := rfl

instance : LawfulMonad Logged where
  map_const := rfl
  id_map _ := rfl
  seqLeft_eq first second := by simp [Seq.seq, SeqLeft.seqLeft, Functor.map]
  seqRight_eq first second := by simp [Seq.seq, SeqRight.seqRight, Functor.map]
  pure_seq f x := by simp [Seq.seq, Functor.map, pure]
  bind_pure_comp f x := by simp [bind, Functor.map, pure]
  bind_map f x := rfl
  pure_bind value next := by simp [bind, pure]
  bind_assoc first second third := by simp [bind]

end Logged

/-- A computation that keeps a log and may fail. -/
abbrev Eval (α : Type) := ExceptT Error Logged α

namespace Eval

variable {α β : Type}

/-- What the computation comes to. -/
def result (x : Eval α) : Except Error α := x.run.value

/-- The events up to the end of the computation. -/
def log (x : Eval α) : List Event := x.run.log

@[simp] theorem result_pure (value : α) : result (pure value) = .ok value := rfl

@[simp] theorem log_pure (value : α) : log (pure value) = [] := rfl

@[simp] theorem result_throw (error : Error) : result (throw error : Eval α) = .error error := rfl

@[simp] theorem log_throw (error : Error) : log (throw error : Eval α) = [] := rfl

@[simp] theorem result_lift (x : Logged α) : result (liftM x) = .ok x.value := rfl

@[simp] theorem log_lift (x : Logged α) : log (liftM x : Eval α) = x.log := rfl

@[simp] theorem result_map (f : α → β) (x : Eval α) : result (f <$> x) = f <$> x.result := by
  obtain ⟨value, events⟩ := x
  cases value <;> rfl

@[simp] theorem log_map (f : α → β) (x : Eval α) : log (f <$> x) = x.log := by
  obtain ⟨value, events⟩ := x
  cases value <;> exact List.append_nil events

theorem result_bind (first : Eval α) (next : α → Eval β) :
    result (first >>= next) = first.result >>= fun value => (next value).result := by
  obtain ⟨value, events⟩ := first
  cases value <;> rfl

theorem log_bind (first : Eval α) (next : α → Eval β) :
    log (first >>= next) = first.log ++
      match first.result with
      | .ok value => (next value).log
      | .error _ => [] := by
  obtain ⟨value, events⟩ := first
  cases value <;> rfl

/-- A computation that fails or succeeds without an event. -/
def ofExcept : Except Error α → Eval α
  | .ok value => pure value
  | .error error => throw error

@[simp] theorem result_ofExcept (x : Except Error α) : result (ofExcept x) = x := by
  cases x <;> rfl

end Eval

end Reshape
