import PackedMemory.PackedArray.Check
import PackedMemory.PackedArray.Range
import PackedMemory.PackedArray.Text
import PackedMemory.Proofs.PackedArray.Reachable
import PackedMemory.Proofs.Parallel

/-!
# Arrays with different indexes

Of an index an array only uses what it answers, and lawful indexes with the same
leaders answer alike.  So two arrays of one configuration whose indexes are of
different kinds go through the same slots, step by step.
-/

namespace PackedMemory

open Update (Parallel)

inductive Request where
  | insert (key : Key) (value : Value)
  | remove (key : Key)
  | extend (entries : List Entry)
  | find (key : Key)
  | range (least greatest : Key)
  | rangeTotals (least greatest : Key)
  | validate
deriving DecidableEq, Repr

inductive Reply where
  | inserted (result : Except Fault Bool)
  | removed (result : Except Fault (Option Value))
  | extended (result : Except Fault Unit)
  | found (value : Option Value)
  | ranged (result : Except Fault Cursor)
  | totalled (result : Except Fault Totals)
  | validated (result : Except Fault Unit)

structure Exposure where
  reply : Reply
  events : List Event
  slots : List Slot
  layout : String
  capacity : Nat
  leaders : List Leader

namespace PackedArray

def replied {σ α : Type} (reply : Except Fault α → Reply)
    (outcome : Outcome σ α) : Reply × List Event × σ :=
  (reply outcome.result, outcome.events, outcome.state)

section Requests

variable {ρ ι : Type} [Quantity ρ] [OrderIndex ι]

def serve (array : PackedArray ρ ι) :
    Request → Reply × List Event × PackedArray ρ ι
  | .insert key value => replied .inserted (insert key value array)
  | .remove key => replied .removed (remove key array)
  | .extend entries => replied .extended (extend entries array)
  | .find key => (.found (array.find? key), array.lookupEvents key, array)
  | .range least greatest => (.ranged (array.range least greatest), [], array)
  | .rangeTotals least greatest =>
      (.totalled (array.rangeTotals least greatest), [], array)
  | .validate => (.validated array.validate, [], array)

def transcript (array : PackedArray ρ ι) : List Request → List Exposure
  | [] => []
  | request :: requests =>
      let (reply, events, after) := array.serve request
      { reply, events
        slots := after.storage.slots
        layout := after.storage.layoutText
        capacity := after.capacity
        leaders := OrderIndex.entries after.index } ::
          after.transcript requests

end Requests

/-! ## Mirrors -/

variable {ρ ι κ : Type} [OrderIndex ι] [LawfulIndex ι] [OrderIndex κ]
  [LawfulIndex κ]

structure Mirrors (first : PackedArray ρ ι) (second : PackedArray ρ κ) :
    Prop where
  storage_eq : first.storage = second.storage
  policy_eq : first.policy = second.policy
  leaders : SameLeaders first.index second.index

namespace Mirrors

variable {first : PackedArray ρ ι} {second : PackedArray ρ κ}

theorem predecessor_eq (h : Mirrors first second) (key : Key) :
    first.predecessor key = second.predecessor key :=
  h.leaders.predecessor_eq key

theorem isEmpty_eq (h : Mirrors first second) :
    first.isEmpty = second.isEmpty := by
  simp only [isEmpty, size, h.storage_eq]

theorem find?_eq (h : Mirrors first second) (key : Key) :
    first.find? key = second.find? key := by
  simp only [find?, h.isEmpty_eq, h.storage_eq, h.predecessor_eq]

theorem lookupEvents_eq (h : Mirrors first second) (key : Key) :
    first.lookupEvents key = second.lookupEvents key := by
  simp only [lookupEvents, h.isEmpty_eq, h.predecessor_eq]

theorem interval_eq (h : Mirrors first second) (least greatest : Key) :
    first.interval least greatest = second.interval least greatest := by
  simp only [interval, h.isEmpty_eq, h.storage_eq, h.predecessor_eq]

theorem capacity_eq (h : Mirrors first second) :
    first.capacity = second.capacity :=
  congrArg Storage.capacity h.storage_eq

theorem isCrammed_eq (h : Mirrors first second) :
    first.isCrammed = second.isCrammed := by
  rw [isCrammed, isCrammed, size, size, h.capacity_eq, h.storage_eq]

theorem gauge_eq (h : Mirrors first second) : first.gauge = second.gauge := by
  rw [gauge, gauge, h.policy_eq, h.storage_eq]

theorem range_eq (h : Mirrors first second) (least greatest : Key) :
    first.range least greatest = second.range least greatest := by
  rw [range, range, h.interval_eq, h.capacity_eq, h.storage_eq]

theorem rangeTotals_eq (h : Mirrors first second) (least greatest : Key) :
    first.rangeTotals least greatest = second.rangeTotals least greatest := by
  simp only [rangeTotals, h.range_eq]

theorem validate_eq (h : Mirrors first second) :
    first.validate = second.validate := by
  simp only [validate, h.storage_eq, h.leaders.entries_eq]

end Mirrors

theorem parallel_onStorage {α : Type}
    (step : Storage → Except Fault α × Storage) :
    Parallel Mirrors (onStorage step : Update (PackedArray ρ ι) α)
      (onStorage step : Update (PackedArray ρ κ) α) := by
  intro first second h
  simp only [onStorage, h.storage_eq]
  exact ⟨rfl, rfl, rfl, h.policy_eq, h.leaders⟩

theorem parallel_onIndex {change : ι → ι} {other : κ → κ}
    (h : ∀ first second, SameLeaders first second →
      SameLeaders (change first) (other second)) :
    Parallel Mirrors (onIndex change : Update (PackedArray ρ ι) Unit)
      (onIndex other) :=
  .modify fun _ _ halike =>
    ⟨halike.storage_eq, halike.policy_eq, h _ _ halike.leaders⟩

theorem parallel_asks {α : Type} (question : Storage → Except Fault α) :
    Parallel Mirrors (.ask fun array : PackedArray ρ ι => question array.storage)
      (.ask fun array : PackedArray ρ κ => question array.storage) :=
  .ask fun _ _ h => congrArg question h.storage_eq

theorem parallel_predecessor (key : Key) :
    Parallel Mirrors (.view fun array : PackedArray ρ ι => array.predecessor key)
      (.view fun array : PackedArray ρ κ => array.predecessor key) :=
  .view fun _ _ h => h.predecessor_eq key

theorem parallel_isFull (segment : Nat) :
    Parallel Mirrors
      (.view fun array : PackedArray ρ ι => array.storage.isFull segment)
      (.view fun array : PackedArray ρ κ => array.storage.isFull segment) :=
  .view fun _ _ h => by rw [h.storage_eq]

theorem parallel_spread (window : Window) :
    Parallel Mirrors (spread window : Update (PackedArray ρ ι) Unit)
      (spread window : Update (PackedArray ρ κ) Unit) :=
  .bind (parallel_asks fun storage => storage.leaders window.segments)
    fun _ => .bind (parallel_onIndex fun _ _ h => h.removeAll _)
    fun _ => .bind (parallel_onStorage _)
    fun _ => .bind (.emit _)
    fun _ => .bind (parallel_onStorage _)
    fun filled => parallel_onIndex fun _ _ h => h.insertAll filled

theorem parallel_grow :
    Parallel Mirrors (grow : Update (PackedArray ρ ι) Unit)
      (grow : Update (PackedArray ρ κ) Unit) := by
  refine .bind (.view fun _ _ h => h.capacity_eq)
    fun capacity => .bind (.ask fun _ _ h => ?_)
    fun blank => .bind (.view fun _ _ h => congrArg Storage.entries h.storage_eq)
    fun entries => .bind (parallel_onIndex fun _ _ _ => .clear _ _)
    fun _ => .bind (.ask fun _ _ _ => rfl)
    fun leaders => .bind (parallel_onIndex fun _ _ h => h.insertAll leaders)
    fun _ => .bind (.emit _)
    fun _ => .modify fun _ _ h => ⟨rfl, h.policy_eq, h.leaders⟩
  rw [h.policy_eq]

theorem parallel_place (segment : Nat) (entry : Entry) :
    Parallel Mirrors (place segment entry : Update (PackedArray ρ ι) Unit)
      (place segment entry : Update (PackedArray ρ κ) Unit) := by
  refine .bind (parallel_asks fun storage => storage.leader? segment)
    fun previous => .bind (parallel_onStorage _) fun leads => ?_
  cases leads with
  | false => exact .pure ()
  | true =>
      cases previous with
      | none => exact parallel_onIndex fun _ _ h => h.insert entry.key segment
      | some old => exact parallel_onIndex fun _ _ h => h.update old entry.key

theorem parallel_forget (segment : Nat) (key : Key) :
    Parallel Mirrors (forget segment key : Update (PackedArray ρ ι) Unit)
      (forget segment key : Update (PackedArray ρ κ) Unit) := by
  refine .bind (parallel_asks fun storage => storage.leader? segment)
    fun next => ?_
  cases next with
  | none => exact parallel_onIndex fun _ _ h => h.removeAny key
  | some new => exact parallel_onIndex fun _ _ h => h.update key new

theorem parallel_takeOut (segment offset : Nat) (key : Key) :
    Parallel Mirrors
      (takeOut segment offset key : Update (PackedArray ρ ι) (Option Value))
      (takeOut segment offset key : Update (PackedArray ρ κ) (Option Value)) := by
  refine .bind (parallel_asks fun storage => storage.minimum segment)
    fun least => .bind (parallel_onStorage _) fun removed => ?_
  by_cases hleast : least = key
  · simp only [if_pos hleast]
    exact .bind (parallel_forget segment key) fun _ => .pure _
  · simp only [if_neg hleast]
    exact .pure _

variable [Quantity ρ]

namespace Mirrors

variable {first : PackedArray ρ ι} {second : PackedArray ρ κ}

theorem measure_eq (h : Mirrors first second) (segment : Nat) :
    first.measure segment = second.measure segment := by
  rw [measure, measure, h.gauge_eq, h.storage_eq]

theorem repair_eq (h : Mirrors first second) (segment : Nat)
    (readings : List Reading) (needsGap : Bool) :
    first.repair segment readings needsGap =
      second.repair segment readings needsGap := by
  rw [repair, repair, h.gauge_eq, h.storage_eq]

end Mirrors

theorem parallel_rebalance (segment : Nat) (needsGap : Bool) :
    Parallel Mirrors
      (rebalance segment needsGap : Update (PackedArray ρ ι) Unit)
      (rebalance segment needsGap : Update (PackedArray ρ κ) Unit) := by
  refine .bind (.view fun _ _ h => h.isCrammed_eq) fun crammed => ?_
  cases crammed with
  | true => exact parallel_grow
  | false =>
      refine .bind (.ask fun _ _ h => h.measure_eq segment)
        fun readings => .bind (.emit _)
        fun _ => .bind (.view fun _ _ h => h.repair_eq segment readings needsGap)
        fun repair => ?_
      cases repair with
      | leave => exact .pure ()
      | spread window => exact parallel_spread window
      | grow => exact parallel_grow

theorem parallel_findRoom (segment : Nat) (key : Key) :
    Parallel Mirrors (findRoom segment key : Update (PackedArray ρ ι) Nat)
      (findRoom segment key : Update (PackedArray ρ κ) Nat) := by
  refine .bind (parallel_isFull segment) fun full => ?_
  cases full with
  | false => exact .pure segment
  | true =>
      refine .bind (parallel_rebalance segment true)
        fun _ => .bind (parallel_predecessor key)
        fun found => .bind (parallel_isFull found) fun full => ?_
      cases full with
      | false => exact .pure found
      | true => exact .fail _

theorem parallel_remove (key : Key) :
    Parallel Mirrors (remove key : Update (PackedArray ρ ι) (Option Value))
      (remove key : Update (PackedArray ρ κ) (Option Value)) := by
  refine .bind (.view fun _ _ h => h.isEmpty_eq) fun empty => ?_
  cases empty with
  | true => exact .pure none
  | false =>
      refine .bind (parallel_predecessor key) fun segment =>
        .bind (parallel_asks fun storage => storage.position? segment key)
        fun position => ?_
      cases position with
      | none => exact .pure none
      | some offset =>
          exact .bind (parallel_takeOut segment offset key)
            fun removed => .bind (parallel_rebalance segment false)
            fun _ => .pure removed

theorem parallel_insert (key : Key) (value : Value) :
    Parallel Mirrors (insert key value : Update (PackedArray ρ ι) Bool)
      (insert key value : Update (PackedArray ρ κ) Bool) := by
  refine .bind (parallel_predecessor key) fun segment =>
    .bind (parallel_asks fun storage => storage.position? segment key)
    fun position => ?_
  cases position with
  | some offset => exact .pure false
  | none =>
      refine .bind (parallel_findRoom segment key)
        fun segment => .bind (parallel_place segment ⟨key, value⟩)
        fun _ => .bind (.onFault (parallel_rebalance segment false) fun fault => ?_)
        fun _ => .pure true
      exact .bind (parallel_remove key) fun _ => .fail fault

theorem parallel_extend (entries : List Entry) :
    Parallel Mirrors (extend entries : Update (PackedArray ρ ι) Unit)
      (extend entries : Update (PackedArray ρ κ) Unit) := by
  induction entries with
  | nil => exact .pure ()
  | cons entry entries ih =>
      exact .bind (.onFault (parallel_insert entry.key entry.value)
        fun fault => .fail _) fun _ => ih

/-! ## Histories -/

namespace Mirrors

variable {first : PackedArray ρ ι} {second : PackedArray ρ κ}

omit [Quantity ρ] in
theorem replied_of_matches {α : Type} (reply : Except Fault α → Reply)
    {one : Outcome (PackedArray ρ ι) α} {other : Outcome (PackedArray ρ κ) α}
    (h : one.Matches Mirrors other) :
    (replied reply one).1 = (replied reply other).1 ∧
      (replied reply one).2.1 = (replied reply other).2.1 ∧
        Mirrors (replied reply one).2.2 (replied reply other).2.2 :=
  ⟨congrArg reply h.result_eq, h.events_eq, h.alike⟩

theorem serve (h : Mirrors first second) (request : Request) :
    (first.serve request).1 = (second.serve request).1 ∧
      (first.serve request).2.1 = (second.serve request).2.1 ∧
        Mirrors (first.serve request).2.2 (second.serve request).2.2 := by
  cases request with
  | insert key value => exact replied_of_matches _ (parallel_insert key value _ _ h)
  | remove key => exact replied_of_matches _ (parallel_remove key _ _ h)
  | extend entries => exact replied_of_matches _ (parallel_extend entries _ _ h)
  | find key =>
      exact ⟨congrArg Reply.found (h.find?_eq key), h.lookupEvents_eq key, h⟩
  | range least greatest =>
      exact ⟨congrArg Reply.ranged (h.range_eq least greatest), rfl, h⟩
  | rangeTotals least greatest =>
      exact ⟨congrArg Reply.totalled (h.rangeTotals_eq least greatest), rfl, h⟩
  | validate => exact ⟨congrArg Reply.validated h.validate_eq, rfl, h⟩

theorem transcript_eq (h : Mirrors first second) (requests : List Request) :
    first.transcript requests = second.transcript requests := by
  induction requests generalizing first second with
  | nil => rfl
  | cons request requests ih =>
      obtain ⟨hreply, hevents, hafter⟩ := h.serve request
      simp only [transcript, hreply, hevents, hafter.storage_eq,
        hafter.capacity_eq, hafter.leaders.entries_eq, ih hafter]

end Mirrors

theorem transcript_ofConfig (config : Config ρ) (requests : List Request) :
    ((ofConfig config : Except Fault (PackedArray ρ ι)).map
        fun array => array.transcript requests) =
      (ofConfig config : Except Fault (PackedArray ρ κ)).map
        fun array => array.transcript requests := by
  simp only [ofConfig, bind, Except.bind]
  cases config.validate with
  | error fault => rfl
  | ok capacity =>
      dsimp only
      cases Storage.allocate config.policy.grants capacity with
      | error fault => rfl
      | ok storage =>
          have hmirrors : Mirrors
              (⟨storage, OrderIndex.empty, config.policy⟩ : PackedArray ρ ι)
              (⟨storage, OrderIndex.empty, config.policy⟩ : PackedArray ρ κ) :=
            ⟨rfl, rfl, .empty⟩
          exact congrArg Except.ok (hmirrors.transcript_eq requests)

/-- A sorted index and a tree cannot be told apart by any requests. -/
theorem sorted_tree_transcript {ρ : Type} [Quantity ρ] (config : Config ρ)
    (requests : List Request) :
    ((ofConfig config : Except Fault (PackedArray ρ SortedIndex)).map
        fun array => array.transcript requests) =
      (ofConfig config : Except Fault (PackedArray ρ TreeIndex)).map
        fun array => array.transcript requests :=
  transcript_ofConfig config requests

end PackedArray

end PackedMemory
