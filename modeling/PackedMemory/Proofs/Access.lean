import PackedMemory.Overwrite
import PackedMemory.Proofs.Update

/-!
# Accesses

A checked program is stopped by the first access that misses its array, and by
the first assertion that fails.  Of an array it knows only the cells that it has
accessed.  Where it agrees with a program that does not check, that one stays
within bounds, too.
-/

namespace PackedMemory

inductive Breach where
  | cell (position size : Nat)
  | run (start stop size : Nat)
  | assertion
deriving DecidableEq, Repr

abbrev Checked (α : Type) : Type := Except Breach α

namespace Checked

variable {α β : Type}

def readCell (cells : Array α) (position : Nat) : Checked α :=
  match cells[position]? with
  | some cell => .ok cell
  | none => .error (.cell position cells.size)

def writeCell (cells : Array α) (position : Nat) (cell : α) :
    Checked (Array α) :=
  if position < cells.size then
    .ok (cells.setIfInBounds position cell)
  else
    .error (.cell position cells.size)

def readRun (cells : Array α) (start stop : Nat) : Checked (List α) :=
  if start ≤ stop ∧ stop ≤ cells.size then
    .ok (cells.extract start stop).toList
  else
    .error (.run start stop cells.size)

def writeRun (cells : Array α) (start : Nat) (values : List α) :
    Checked (Array α) :=
  if start + values.length ≤ cells.size then
    .ok (overwrite cells start values)
  else
    .error (.run start (start + values.length) cells.size)

def insertCell (cells : Array α) (position : Nat) (cell : α) :
    Checked (Array α) :=
  if position ≤ cells.size then
    .ok (cells.insertIdxIfInBounds position cell)
  else
    .error (.run position cells.size cells.size)

def eraseCell (cells : Array α) (position : Nat) : Checked (Array α) :=
  if position < cells.size then
    .ok (cells.eraseIdxIfInBounds position)
  else
    .error (.cell position cells.size)

def ensure (holds : Bool) : Checked Unit :=
  if holds then .ok () else .error .assertion

@[simp] theorem ok_bind (value : α) (next : α → Checked β) :
    (Except.ok value >>= next : Checked β) = next value := rfl

@[simp] theorem pure_eq_ok (value : α) :
    (pure value : Checked α) = .ok value := rfl

section Cells

variable {cells : Array α} {position start stop : Nat} {cell : α}

theorem readCell_eq (h : cells[position]? = some cell) :
    readCell cells position = .ok cell := by
  rw [readCell, h]

theorem readCell_getD (h : position < cells.size) (default : α) :
    readCell cells position = .ok (cells.getD position default) :=
  readCell_eq (by simp [h])

theorem writeCell_eq (h : position < cells.size) (cell : α) :
    writeCell cells position cell =
      .ok (cells.setIfInBounds position cell) :=
  if_pos h

theorem readRun_eq (hstart : start ≤ stop) (hstop : stop ≤ cells.size) :
    readRun cells start stop = .ok (cells.extract start stop).toList :=
  if_pos ⟨hstart, hstop⟩

theorem writeRun_eq {values : List α}
    (h : start + values.length ≤ cells.size) :
    writeRun cells start values = .ok (overwrite cells start values) :=
  if_pos h

theorem insertCell_eq (h : position ≤ cells.size) (cell : α) :
    insertCell cells position cell =
      .ok (cells.insertIdxIfInBounds position cell) :=
  if_pos h

theorem eraseCell_eq (h : position < cells.size) :
    eraseCell cells position = .ok (cells.eraseIdxIfInBounds position) :=
  if_pos h

end Cells

end Checked

/-- An answer may be a fault that the program itself finds. -/
abbrev CheckedAnswer (α : Type) : Type := ExceptT Fault Checked α

namespace CheckedAnswer

variable {α β : Type}

theorem run_bind_eq {step : CheckedAnswer α} {answer : Except Fault α}
    {next : α → CheckedAnswer β} {after : α → Except Fault β}
    (h : step.run = .ok answer)
    (hnext : ∀ value, answer = .ok value →
      (next value).run = .ok (after value)) :
    (step >>= next).run = .ok (answer >>= after) := by
  rw [ExceptT.run_bind, h, Checked.ok_bind]
  cases answer with
  | error fault => rfl
  | ok value => exact hnext value rfl

theorem run_lift_bind_eq {reading : Checked α} {value : α}
    (h : reading = .ok value) (next : α → CheckedAnswer β) :
    (liftM reading >>= next : CheckedAnswer β).run = (next value).run := by
  rw [h]
  rfl

theorem run_mapM_eq {items : List α} {next : α → CheckedAnswer β}
    {after : α → Except Fault β}
    (h : ∀ item ∈ items, (next item).run = .ok (after item)) :
    (items.mapM next).run = .ok (items.mapM after) := by
  induction items with
  | nil => rfl
  | cons item items ih =>
      obtain ⟨hitem, hitems⟩ := List.forall_mem_cons.mp h
      rw [List.mapM_cons, List.mapM_cons]
      exact run_bind_eq hitem fun _ _ => run_bind_eq (ih hitems) fun _ _ => rfl

end CheckedAnswer

/-! ## Checked updates -/

/-- A breach leaves neither a result nor a state. -/
def CheckedUpdate (σ α : Type) : Type := σ → Checked (Outcome σ α)

namespace CheckedUpdate

variable {σ α β : Type}

protected def bind (step : CheckedUpdate σ α)
    (next : α → CheckedUpdate σ β) : CheckedUpdate σ β := fun state => do
  let first ← step state
  match first.result with
  | .ok value =>
      let second ← next value first.state
      return ⟨second.result, second.state, first.events ++ second.events⟩
  | .error fault => return ⟨.error fault, first.state, first.events⟩

def free (update : Update σ α) : CheckedUpdate σ α := fun state =>
  .ok (update state)

instance : Monad (CheckedUpdate σ) where
  pure value := free (pure value)
  bind := CheckedUpdate.bind

def view (reading : σ → Checked α) : CheckedUpdate σ α := fun state => do
  let value ← reading state
  return ⟨.ok value, state, []⟩

def ask (question : σ → CheckedAnswer α) : CheckedUpdate σ α := fun state => do
  let result ← (question state).run
  return ⟨result, state, []⟩

def onFault (step : CheckedUpdate σ α) (handler : Fault → CheckedUpdate σ α) :
    CheckedUpdate σ α := fun state => do
  let first ← step state
  match first.result with
  | .ok value => return ⟨.ok value, first.state, first.events⟩
  | .error fault =>
      let second ← handler fault first.state
      return ⟨second.result, second.state, first.events ++ second.events⟩

/-- From this state no check fails, and what is done is the same. -/
def Tracks (checked : CheckedUpdate σ α) (update : Update σ α) (state : σ) :
    Prop :=
  checked state = .ok (update state)

theorem tracks_free (update : Update σ α) (state : σ) :
    Tracks (free update) update state := rfl

theorem tracks_pure (value : α) (state : σ) :
    Tracks (pure value) (pure value) state := rfl

theorem tracks_view {reading : σ → Checked α} {plain : σ → α} {state : σ}
    (h : reading state = .ok (plain state)) :
    Tracks (view reading) (.view plain) state := by
  rw [Tracks, view, h]
  rfl

theorem tracks_ask {question : σ → CheckedAnswer α}
    {plain : σ → Except Fault α} {state : σ}
    (h : (question state).run = .ok (plain state)) :
    Tracks (ask question) (.ask plain) state := by
  rw [Tracks, ask, h]
  rfl

theorem Tracks.view_bind {reading : σ → Checked α}
    {next : α → CheckedUpdate σ β} {update : Update σ β} {state : σ} {value : α}
    (h : reading state = .ok value) (hnext : Tracks (next value) update state) :
    Tracks (view reading >>= next) update state := by
  change CheckedUpdate.bind (view reading) next state = _
  rw [Tracks] at hnext
  simp only [CheckedUpdate.bind, view, h, Checked.ok_bind, Checked.pure_eq_ok,
    hnext, List.nil_append]

theorem Tracks.bind {checked : CheckedUpdate σ α} {update : Update σ α}
    {next : α → CheckedUpdate σ β} {after : α → Update σ β} {state : σ}
    (h : Tracks checked update state)
    (hnext : ∀ value new, Update.run update state = (.ok value, new) →
      Tracks (next value) (after value) new) :
    Tracks (checked >>= next) (update >>= after) state := by
  change CheckedUpdate.bind checked next state =
    .ok (Update.bind update after state)
  rw [CheckedUpdate.bind, h, Checked.ok_bind, Update.bind]
  cases hresult : (update state).result with
  | error fault => rfl
  | ok value =>
      have hrun : Update.run update state = (.ok value, (update state).state) := by
        rw [Update.run, hresult]
      have hsecond : next value (update state).state =
          .ok (after value (update state).state) := hnext value _ hrun
      simp only [hsecond, Checked.ok_bind, Checked.pure_eq_ok]

theorem Tracks.bind_of_eq {checked : CheckedUpdate σ α} {update : Update σ α}
    {next : α → CheckedUpdate σ β} {after : α → Update σ β} {state new : σ}
    {value : α} (h : Tracks checked update state)
    (hrun : Update.run update state = (.ok value, new))
    (hnext : Tracks (next value) (after value) new) :
    Tracks (checked >>= next) (update >>= after) state := by
  refine h.bind fun other last hother => ?_
  obtain ⟨hvalue, rfl⟩ := Prod.mk.inj (hrun.symm.trans hother)
  obtain rfl := Except.ok.inj hvalue
  exact hnext

theorem Tracks.onFault {checked : CheckedUpdate σ α} {update : Update σ α}
    {recover : Fault → CheckedUpdate σ α} {handler : Fault → Update σ α}
    {state : σ} (h : Tracks checked update state)
    (hrecover : ∀ fault new, Update.run update state = (.error fault, new) →
      Tracks (recover fault) (handler fault) new) :
    Tracks (checked.onFault recover) (update.onFault handler) state := by
  rw [Tracks, CheckedUpdate.onFault, h, Checked.ok_bind, Update.onFault]
  cases hresult : (update state).result with
  | ok value => rfl
  | error fault =>
      have hrun : Update.run update state =
          (.error fault, (update state).state) := by
        rw [Update.run, hresult]
      have hsecond : recover fault (update state).state =
          .ok (handler fault (update state).state) := hrecover fault _ hrun
      simp only [hsecond, Checked.ok_bind, Checked.pure_eq_ok]

end CheckedUpdate

end PackedMemory
