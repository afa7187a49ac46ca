import PackedMemory.Proofs.PackedArray.Reachable

/-!
# Arrays as finite maps

A run of calls on an array is answered as a finite map would answer it.  The
density bounds decide where entries stand and never what is answered: they show
only in insertions that are refused for want of storage.
-/

namespace PackedMemory

abbrev Contents := Finmap fun _ : Key => Value

inductive Call where
  | insert (key : Key) (value : Value)
  | remove (key : Key)
  | find (key : Key)
  | contains (key : Key)
  | size
  | isEmpty
deriving DecidableEq, Repr

inductive Answer where
  | inserted (result : Except Fault Bool)
  | removed (result : Except Fault (Option Value))
  | found (value : Option Value)
  | contained (present : Bool)
  | counted (count : Nat)
  | emptiness (empty : Bool)
deriving DecidableEq

def Answer.isFailedRemoval : Answer → Bool
  | .removed (.error _) => true
  | _ => false

inductive Responds (contents : Contents) : Call → Answer → Contents → Prop
  | stored {key : Key} (value : Value) (h : key ∉ contents) :
      Responds contents (.insert key value) (.inserted (.ok true))
        (contents.insert key value)
  | duplicate {key : Key} (value : Value) (h : key ∈ contents) :
      Responds contents (.insert key value) (.inserted (.ok false)) contents
  | refused {key : Key} (value : Value) (capacity : Nat)
      (h : key ∉ contents) :
      Responds contents (.insert key value)
        (.inserted (.error (.allocationFailure capacity))) contents
  | removed (key : Key) :
      Responds contents (.remove key) (.removed (.ok (contents.lookup key)))
        (contents.erase key)
  | found (key : Key) :
      Responds contents (.find key) (.found (contents.lookup key)) contents
  | contained (key : Key) :
      Responds contents (.contains key) (.contained (key ∈ contents)) contents
  | counted :
      Responds contents .size (.counted contents.keys.card) contents
  | emptiness :
      Responds contents .isEmpty (.emptiness (contents = ∅)) contents

inductive RespondsAll : Contents → List Call → List Answer → Prop
  | nil (contents : Contents) : RespondsAll contents [] []
  | cons {contents new : Contents} {call : Call} {answer : Answer}
      {calls : List Call} {answers : List Answer}
      (hfirst : Responds contents call answer new)
      (hrest : RespondsAll new calls answers) :
      RespondsAll contents (call :: calls) (answer :: answers)

namespace PackedArray

/-! ## Calls on an array -/

section Calls

variable {ρ ι : Type} [Quantity ρ] [OrderIndex ι]

def respond (array : PackedArray ρ ι) : Call → Answer × PackedArray ρ ι
  | .insert key value =>
      let outcome := insert key value array
      (.inserted outcome.result, outcome.state)
  | .remove key =>
      let outcome := remove key array
      (.removed outcome.result, outcome.state)
  | .find key => (.found (array.find? key), array)
  | .contains key => (.contained (array.contains key), array)
  | .size => (.counted array.size, array)
  | .isEmpty => (.emptiness array.isEmpty, array)

def respondAll (array : PackedArray ρ ι) : List Call → List Answer
  | [] => []
  | call :: calls =>
      (array.respond call).1 :: (array.respond call).2.respondAll calls

end Calls

variable {ρ ι : Type} [OrderIndex ι] [LawfulIndex ι]
  {array new : PackedArray ρ ι} {contents : Contents}

structure Holds (array : PackedArray ρ ι) (contents : Contents) : Prop where
  consistent : Consistent array
  find?_eq : ∀ key, array.find? key = contents.lookup key

namespace Holds

theorem mem_iff (h : Holds array contents) (key : Key) :
    key ∈ contents ↔ array.find? key ≠ none := by
  rw [h.find?_eq, ne_eq, Finmap.lookup_eq_none, not_not]

theorem size_eq (h : Holds array contents) :
    array.size = contents.keys.card := by
  rw [h.consistent.size_eq]
  refine (h.consistent.ascending.card_keys_eq fun key => ?_).symm
  rw [h.mem_iff, List.mem_map, ne_eq, h.consistent.find?_eq_none_iff]
  push Not
  rfl

theorem isEmpty_iff (h : Holds array contents) :
    array.isEmpty = true ↔ contents = ∅ := by
  rw [isEmpty, h.size_eq, beq_iff_eq, card_keys_eq_zero_iff]

variable {entry : Entry}

theorem insert (h : Holds array contents) (hnew : Consistent new)
    (hinserts : Inserts entry array.storage.entries new.storage.entries) :
    Holds new (contents.insert entry.key entry.value) := by
  refine ⟨hnew, fun key => ?_⟩
  rw [find?_of_inserts h.consistent hnew hinserts, h.find?_eq]
  split
  · rename_i hkey
    rw [hkey, Finmap.lookup_insert]
  · rename_i hkey
    rw [Finmap.lookup_insert_of_ne _ hkey]

theorem erase (h : Holds array contents) (hnew : Consistent new)
    (hinserts : Inserts entry new.storage.entries array.storage.entries) :
    Holds new (contents.erase entry.key) := by
  refine ⟨hnew, fun key => ?_⟩
  by_cases hkey : key = entry.key
  · rw [hkey, Finmap.lookup_erase]
    exact find?_eq_none_of_inserts hnew h.consistent hinserts
  · have hfind := find?_of_inserts hnew h.consistent hinserts key
    rw [if_neg hkey, h.find?_eq] at hfind
    rw [Finmap.lookup_erase_ne hkey, hfind]

theorem erase_of_absent (h : Holds array contents) {key : Key}
    (habsent : array.find? key = none) : Holds array (contents.erase key) := by
  refine ⟨h.consistent, fun other => ?_⟩
  by_cases hkey : other = key
  · rw [hkey, Finmap.lookup_erase, habsent]
  · rw [Finmap.lookup_erase_ne hkey, h.find?_eq]

theorem of_entries_eq (h : Holds array contents) (hnew : Consistent new)
    (hentries : new.storage.entries = array.storage.entries) :
    Holds new contents := by
  refine ⟨hnew, fun key => ?_⟩
  rw [h.consistent.find?_congr hnew hentries, h.find?_eq]

end Holds

variable [Quantity ρ]

theorem responds_insert (h : Holds array contents) (key : Key) (value : Value) :
    ∃ after, Responds contents (.insert key value)
        (.inserted (insert key value array).result) after ∧
      Holds (insert key value array).state after := by
  obtain ⟨result, new, hrun, hinsertion⟩ := insertion h.consistent key value
  have hnew := hinsertion.consistent h.consistent
  obtain ⟨rfl, rfl⟩ := Prod.mk.inj hrun
  have habsent : array.find? key = none ↔ key ∉ contents := by
    rw [h.mem_iff, not_not]
  obtain ⟨hpresent, hresult, hsame⟩ | ⟨hkey, hresult, hinserts⟩ |
    ⟨hkey, ⟨capacity, hresult⟩, hentries⟩ := hinsertion.effect h.consistent
  · rw [hresult, hsame]
    exact ⟨contents, .duplicate value ((h.mem_iff key).mpr hpresent), h⟩
  · rw [hresult]
    exact ⟨_, .stored value (habsent.mp hkey), h.insert hnew hinserts⟩
  · rw [hresult]
    exact ⟨contents, .refused value capacity (habsent.mp hkey),
      h.of_entries_eq hnew hentries⟩

theorem responds_remove (h : Holds array contents) (key : Key)
    (hremove : ∀ fault, (remove key array).result ≠ .error fault) :
    ∃ after, Responds contents (.remove key)
        (.removed (remove key array).result) after ∧
      Holds (remove key array).state after := by
  obtain ⟨result, new, hrun, hremoval⟩ := removal h.consistent key
  have hnew := hremoval.consistent h.consistent
  obtain ⟨rfl, rfl⟩ := Prod.mk.inj hrun
  have hresponds : Responds contents (.remove key)
      (.removed (.ok (array.find? key))) (contents.erase key) := by
    rw [h.find?_eq]
    exact .removed key
  obtain ⟨habsent, hresult, hsame⟩ | ⟨value, hfound, hinserts, hresult⟩ :=
    hremoval.effect h.consistent
  · rw [habsent] at hresponds
    rw [hresult, hsame]
    exact ⟨_, hresponds, h.erase_of_absent habsent⟩
  · rw [hfound] at hresponds
    rcases hresult with hresult | hresult
    · rw [hresult]
      exact ⟨_, hresponds, h.erase hnew hinserts⟩
    · exact absurd hresult (hremove _)

theorem responds (h : Holds array contents) (call : Call)
    (hremove : (array.respond call).1.isFailedRemoval = false) :
    ∃ after, Responds contents call (array.respond call).1 after ∧
      Holds (array.respond call).2 after := by
  cases call with
  | insert key value => exact responds_insert h key value
  | remove key =>
      refine responds_remove h key fun fault hresult => ?_
      rw [respond, hresult] at hremove
      contradiction
  | find key =>
      refine ⟨contents, ?_, h⟩
      rw [respond, h.find?_eq]
      exact .found key
  | contains key =>
      have hcontains : array.contains key = decide (key ∈ contents) := by
        rw [contains, Bool.eq_iff_iff, decide_eq_true_iff, h.mem_iff,
          Option.isSome_iff_ne_none]
      refine ⟨contents, ?_, h⟩
      rw [respond, hcontains]
      exact .contained key
  | size =>
      refine ⟨contents, ?_, h⟩
      rw [respond, h.size_eq]
      exact .counted
  | isEmpty =>
      have hempty : array.isEmpty = decide (contents = ∅) := by
        rw [Bool.eq_iff_iff, decide_eq_true_iff, h.isEmpty_iff]
      refine ⟨contents, ?_, h⟩
      rw [respond, hempty]
      exact .emptiness

theorem respondsAll (h : Holds array contents) {calls : List Call}
    (hremove : ∀ answer ∈ array.respondAll calls,
      answer.isFailedRemoval = false) :
    RespondsAll contents calls (array.respondAll calls) := by
  induction calls generalizing array contents with
  | nil => exact .nil contents
  | cons call calls ih =>
      obtain ⟨hfirst, hrest⟩ := List.forall_mem_cons.mp hremove
      obtain ⟨after, hresponds, hafter⟩ := responds h call hfirst
      exact .cons hresponds (ih hafter hrest)

theorem holds_of_ofConfig {config : Config ρ}
    (h : ofConfig config = .ok array) : Holds array ∅ := by
  have hconsistent := consistent_of_ofConfig h
  refine ⟨hconsistent, fun key => ?_⟩
  obtain ⟨capacity, -, -, rfl⟩ := exists_of_ofConfig h
  rw [Finmap.lookup_empty, hconsistent.find?_eq_none_iff, blank,
    Storage.entries_blank]
  simp

/-- A run without failing removals cannot be told from a run of a map. -/
theorem respondAll_like_map {config : Config ρ}
    (hcreate : ofConfig config = .ok array) {calls : List Call}
    (hremove : ∀ answer ∈ array.respondAll calls,
      answer.isFailedRemoval = false) :
    RespondsAll ∅ calls (array.respondAll calls) :=
  respondsAll (holds_of_ofConfig hcreate) hremove

def doubledOnce : Config Rat where
  initialCapacity := leastCapacity
  maxCapacity := 2 * leastCapacity

/--
The third key doubles the array, the sixth spreads its entries, and the seventh
is refused.
-/
def crowdedHistory : List Call :=
  [.insert 4 40, .insert 2 20, .insert 6 60, .insert 1 10, .insert 3 30,
    .insert 5 50, .insert 7 70, .insert 2 21, .find 2, .remove 4, .remove 4,
    .contains 4, .size, .isEmpty]

theorem crowdedHistory_like_map :
    (.inserted (.error (.allocationFailure 16)) ∈
        (blank doubledOnce.policy 4 :
          PackedArray Rat SortedIndex).respondAll crowdedHistory ∧
      RespondsAll ∅ crowdedHistory ((blank doubledOnce.policy 4 :
        PackedArray Rat SortedIndex).respondAll crowdedHistory)) ∧
    (.inserted (.error (.allocationFailure 16)) ∈
        (blank doubledOnce.policy 4 :
          PackedArray Rat TreeIndex).respondAll crowdedHistory ∧
      RespondsAll ∅ crowdedHistory ((blank doubledOnce.policy 4 :
        PackedArray Rat TreeIndex).respondAll crowdedHistory)) := by
  have hcreate {ι : Type} [OrderIndex ι] : ofConfig doubledOnce =
      .ok (blank doubledOnce.policy 4 : PackedArray Rat ι) :=
    ofConfig_eq (by decide +kernel) (by decide +kernel)
  exact ⟨⟨by decide +kernel, respondAll_like_map hcreate (by decide +kernel)⟩,
    by decide +kernel, respondAll_like_map hcreate (by decide +kernel)⟩

end PackedArray

end PackedMemory
