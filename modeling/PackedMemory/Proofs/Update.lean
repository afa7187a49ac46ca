import PackedMemory.Update

/-!
# Runs of updates

A run forgets the events of an update and keeps its result and the state that it
leaves.
-/

namespace PackedMemory

namespace Update

variable {σ α β : Type}

def run (update : Update σ α) (state : σ) : Except Fault α × σ :=
  ((update state).result, (update state).state)

theorem run_of_eq {update : Update σ α} {state new : σ}
    {result : Except Fault α} {events : List Event}
    (h : update state = ⟨result, new, events⟩) :
    run update state = (result, new) := by
  rw [run, h]

theorem run_congr {update other : Update σ α} {state new : σ}
    (h : update state = other new) : run update state = run other new := by
  rw [run, run, h]

@[simp] theorem run_pure (value : α) (state : σ) :
    run (pure value) state = (.ok value, state) := rfl

@[simp] theorem run_view (reading : σ → α) (state : σ) :
    run (view reading) state = (.ok (reading state), state) := rfl

@[simp] theorem run_ask (question : σ → Except Fault α) (state : σ) :
    run (ask question) state = (question state, state) := rfl

@[simp] theorem run_emit (events : List Event) (state : σ) :
    run (emit events) state = (.ok (), state) := rfl

@[simp] theorem run_fail (fault : Fault) (state : σ) :
    run (fail fault : Update σ α) state = (.error fault, state) := rfl

@[simp] theorem run_bind (step : Update σ α) (next : α → Update σ β)
    (state : σ) :
    run (step >>= next) state =
      match run step state with
      | (.ok value, new) => run (next value) new
      | (.error fault, new) => (.error fault, new) := by
  cases hresult : (step state).result with
  | ok value =>
      rw [run, bind_of_ok hresult]
      simp only [run, hresult]
  | error fault =>
      rw [run, bind_of_error hresult]
      simp only [run, hresult]

@[simp] theorem run_onFault (step : Update σ α) (handler : Fault → Update σ α)
    (state : σ) :
    run (step.onFault handler) state =
      match run step state with
      | (.ok value, new) => (.ok value, new)
      | (.error fault, new) => run (handler fault) new := by
  cases hresult : (step state).result <;> simp only [run, onFault, hresult]

end Update

end PackedMemory
