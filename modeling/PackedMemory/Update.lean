import PackedMemory.Event

/-!
# Updates

An update changes a state, reports events, and ends in a value or a fault.  A
fault does not undo what came before it: the state and the events stay as they
were when it arose.
-/

namespace PackedMemory

structure Outcome (σ α : Type) where
  result : Except Fault α
  state : σ
  events : List Event

def Update (σ α : Type) : Type := σ → Outcome σ α

namespace Update

variable {σ α β : Type}

protected def pure (value : α) : Update σ α := fun state =>
  ⟨.ok value, state, []⟩

protected def bind (step : Update σ α) (next : α → Update σ β) :
    Update σ β := fun state =>
  let first := step state
  match first.result with
  | .ok value =>
      let second := next value first.state
      ⟨second.result, second.state, first.events ++ second.events⟩
  | .error fault => ⟨.error fault, first.state, first.events⟩

instance : Monad (Update σ) where
  pure := Update.pure
  bind := Update.bind

def view (reading : σ → α) : Update σ α := fun state =>
  ⟨.ok (reading state), state, []⟩

def ask (question : σ → Except Fault α) : Update σ α := fun state =>
  ⟨question state, state, []⟩

def modify (change : σ → σ) : Update σ Unit := fun state =>
  ⟨.ok (), change state, []⟩

def fail (fault : Fault) : Update σ α := fun state =>
  ⟨.error fault, state, []⟩

def emit (events : List Event) : Update σ Unit := fun state =>
  ⟨.ok (), state, events⟩

/-- Goes on with `handler` where `step` ends in a fault. -/
def onFault (step : Update σ α) (handler : Fault → Update σ α) :
    Update σ α := fun state =>
  let first := step state
  match first.result with
  | .ok value => ⟨.ok value, first.state, first.events⟩
  | .error fault =>
      let second := handler fault first.state
      ⟨second.result, second.state, first.events ++ second.events⟩

@[simp] theorem pure_apply (value : α) (state : σ) :
    (pure value : Update σ α) state = ⟨.ok value, state, []⟩ := rfl

@[simp] theorem view_apply (reading : σ → α) (state : σ) :
    view reading state = ⟨.ok (reading state), state, []⟩ := rfl

@[simp] theorem ask_apply (question : σ → Except Fault α) (state : σ) :
    ask question state = ⟨question state, state, []⟩ := rfl

@[simp] theorem modify_apply (change : σ → σ) (state : σ) :
    modify change state = ⟨.ok (), change state, []⟩ := rfl

@[simp] theorem fail_apply (fault : Fault) (state : σ) :
    (fail fault : Update σ α) state = ⟨.error fault, state, []⟩ := rfl

@[simp] theorem emit_apply (events : List Event) (state : σ) :
    emit events state = ⟨.ok (), state, events⟩ := rfl

theorem bind_apply (step : Update σ α) (next : α → Update σ β) (state : σ) :
    (step >>= next) state =
      match (step state).result with
      | .ok value =>
          ⟨(next value (step state).state).result,
            (next value (step state).state).state,
            (step state).events ++ (next value (step state).state).events⟩
      | .error fault => ⟨.error fault, (step state).state, (step state).events⟩ :=
  rfl

@[simp] theorem pure_bind (value : α) (next : α → Update σ β) (state : σ) :
    (pure value >>= next : Update σ β) state = next value state := rfl

@[simp] theorem view_bind (reading : σ → α) (next : α → Update σ β)
    (state : σ) :
    (view reading >>= next) state = next (reading state) state := rfl

@[simp] theorem modify_bind (change : σ → σ) (next : Unit → Update σ β)
    (state : σ) :
    (modify change >>= next) state = next () (change state) := rfl

@[simp] theorem fail_bind (fault : Fault) (next : α → Update σ β) (state : σ) :
    (fail fault >>= next) state = ⟨.error fault, state, []⟩ := rfl

theorem ask_bind_of_error {question : σ → Except Fault α}
    {next : α → Update σ β} {state : σ} {fault : Fault}
    (h : question state = .error fault) :
    (ask question >>= next) state = ⟨.error fault, state, []⟩ := by
  change Update.bind (ask question) next state = _
  simp [Update.bind, h]

theorem bind_of_ok {step : Update σ α} {next : α → Update σ β} {state : σ}
    {value : α} (h : (step state).result = .ok value) :
    (step >>= next) state =
      ⟨(next value (step state).state).result,
        (next value (step state).state).state,
        (step state).events ++ (next value (step state).state).events⟩ := by
  change Update.bind step next state = _
  simp [Update.bind, h]

theorem bind_of_error {step : Update σ α} {next : α → Update σ β} {state : σ}
    {fault : Fault} (h : (step state).result = .error fault) :
    (step >>= next) state =
      ⟨.error fault, (step state).state, (step state).events⟩ := by
  change Update.bind step next state = _
  simp [Update.bind, h]

end Update

end PackedMemory
