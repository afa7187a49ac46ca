import PackedMemory.Update

/-!
# Parallel updates

Two updates of different states run in parallel when from alike states they
report the same events, end in the same value or fault, and leave alike states.
Updates that are built in the same way from parallel parts are parallel.
-/

namespace PackedMemory

structure Outcome.Matches {σ τ α : Type} (alike : σ → τ → Prop)
    (first : Outcome σ α) (second : Outcome τ α) : Prop where
  result_eq : first.result = second.result
  events_eq : first.events = second.events
  alike : alike first.state second.state

namespace Update

variable {σ τ α β : Type} {alike : σ → τ → Prop}

def Parallel (alike : σ → τ → Prop) (first : Update σ α)
    (second : Update τ α) : Prop :=
  ∀ left right, alike left right → (first left).Matches alike (second right)

namespace Parallel

theorem pure (value : α) :
    Parallel alike (Pure.pure value : Update σ α) (Pure.pure value) :=
  fun _ _ h => ⟨rfl, rfl, h⟩

theorem view {first : σ → α} {second : τ → α}
    (hread : ∀ left right, alike left right → first left = second right) :
    Parallel alike (Update.view first) (Update.view second) :=
  fun left right h => ⟨congrArg Except.ok (hread left right h), rfl, h⟩

theorem ask {first : σ → Except Fault α} {second : τ → Except Fault α}
    (hread : ∀ left right, alike left right → first left = second right) :
    Parallel alike (Update.ask first) (Update.ask second) :=
  fun left right h => ⟨hread left right h, rfl, h⟩

theorem modify {first : σ → σ} {second : τ → τ}
    (hchange : ∀ left right, alike left right →
      alike (first left) (second right)) :
    Parallel alike (Update.modify first) (Update.modify second) :=
  fun left right h => ⟨rfl, rfl, hchange left right h⟩

theorem emit (events : List Event) :
    Parallel alike (Update.emit events) (Update.emit events) :=
  fun _ _ h => ⟨rfl, rfl, h⟩

theorem fail (fault : Fault) :
    Parallel alike (Update.fail fault : Update σ α) (Update.fail fault) :=
  fun _ _ h => ⟨rfl, rfl, h⟩

theorem bind {first : Update σ α} {second : Update τ α}
    {firstNext : α → Update σ β} {secondNext : α → Update τ β}
    (hstep : Parallel alike first second)
    (hnext : ∀ value, Parallel alike (firstNext value) (secondNext value)) :
    Parallel alike (first >>= firstNext) (second >>= secondNext) := by
  intro left right h
  obtain ⟨hresult, hevents, halike⟩ := hstep left right h
  rw [bind_apply, bind_apply, ← hresult, ← hevents]
  cases (first left).result with
  | error fault => exact ⟨rfl, rfl, halike⟩
  | ok value =>
      obtain ⟨hlast, hmore, hend⟩ := hnext value _ _ halike
      exact ⟨hlast, congrArg _ hmore, hend⟩

theorem onFault {first : Update σ α} {second : Update τ α}
    {firstHandler : Fault → Update σ α} {secondHandler : Fault → Update τ α}
    (hstep : Parallel alike first second)
    (hhandler : ∀ fault,
      Parallel alike (firstHandler fault) (secondHandler fault)) :
    Parallel alike (first.onFault firstHandler)
      (second.onFault secondHandler) := by
  intro left right h
  obtain ⟨hresult, hevents, halike⟩ := hstep left right h
  simp only [Update.onFault, ← hresult, ← hevents]
  cases (first left).result with
  | ok value => exact ⟨rfl, rfl, halike⟩
  | error fault =>
      obtain ⟨hlast, hmore, hend⟩ := hhandler fault _ _ halike
      exact ⟨hlast, congrArg _ hmore, hend⟩

end Parallel

end Update

end PackedMemory
