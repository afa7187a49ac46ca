import PackedMemory.Proofs.PackedArray.Map
import PackedMemory.Proofs.PackedArray.Range

/-!
# Extensions

An extension goes through a list from left to right, and of several entries with
one key the first one stays.  Where an entry is refused the extension ends with
what came before it.  In what order entries came in decides where they stand and
never what is read.
-/

namespace PackedMemory

def firstValue (key : Key) (entries : List Entry) : Option Value :=
  (entries.find? fun entry => entry.key = key).map Entry.value

theorem firstValue_append (key : Key) (first second : List Entry) :
    firstValue key (first ++ second) =
      (firstValue key first).or (firstValue key second) := by
  rw [firstValue, List.find?_append, Option.map_or]
  rfl

theorem firstValue_singleton (key : Key) (entry : Entry) :
    firstValue key [entry] =
      if key = entry.key then some entry.value else none := by
  by_cases hkey : key = entry.key
  · simp [firstValue, hkey]
  · simp [firstValue, hkey, Ne.symm hkey]

theorem firstValue_eq_some_iff {entries : List Entry}
    (h : (entries.map Entry.key).Nodup) {key : Key} {value : Value} :
    firstValue key entries = some value ↔ ⟨key, value⟩ ∈ entries := by
  induction entries with
  | nil => simp [firstValue]
  | cons entry rest ih =>
      obtain ⟨habsent, hrest⟩ := List.nodup_cons.mp h
      rw [← List.singleton_append, firstValue_append, firstValue_singleton,
        List.singleton_append, List.mem_cons]
      split
      · rename_i hkey
        subst hkey
        rw [Option.some_or, Option.some.injEq]
        constructor
        · rintro rfl
          exact .inl rfl
        · rintro (hentry | hmem)
          · rw [← hentry]
          · exact absurd (List.mem_map_of_mem hmem) habsent
      · rename_i hkey
        rw [Option.none_or, ih hrest]
        refine (or_iff_right fun hentry => hkey ?_).symm
        rw [← hentry]

theorem firstValue_perm {first second : List Entry} (h : first.Perm second)
    (hfirst : (first.map Entry.key).Nodup) (key : Key) :
    firstValue key first = firstValue key second := by
  have hsecond := (h.map Entry.key).nodup_iff.mp hfirst
  apply Option.ext
  intro value
  rw [firstValue_eq_some_iff hfirst, firstValue_eq_some_iff hsecond,
    h.mem_iff]

namespace PackedArray

variable {ρ ι : Type} [OrderIndex ι] {array middle new : PackedArray ρ ι}
  {entry : Entry}

structure Lists (array : PackedArray ρ ι) (entries : List Entry) : Prop where
  yields : array.cursor.Yields entries
  ascending : Ascending Entry.key entries
  mem_iff : ∀ entry,
    entry ∈ entries ↔ array.find? entry.key = some entry.value

structure ReadsAlike (first second : PackedArray ρ ι) : Prop where
  find?_eq : ∀ key, first.find? key = second.find? key
  listed : ∃ entries, first.cursor.Yields entries ∧
    second.cursor.Yields entries
  ranged : ∀ least greatest, ∃ left right entries,
    first.range least greatest = .ok left ∧
      second.range least greatest = .ok right ∧
        left.Yields entries ∧ right.Yields entries
  rangeTotals_eq : ∀ least greatest,
    first.rangeTotals least greatest = second.rangeTotals least greatest

/-! ## Merging -/

/--
An array that finds what another one finds, and for other keys what a list gives
to them first.
-/
def Merges (old new : PackedArray ρ ι) (entries : List Entry) : Prop :=
  ∀ key, new.find? key = (old.find? key).or (firstValue key entries)

theorem Merges.trans {first second : List Entry}
    (hfirst : Merges array middle first) (hsecond : Merges middle new second) :
    Merges array new (first ++ second) := by
  intro key
  rw [hsecond key, hfirst key, firstValue_append, Option.or_assoc]

theorem merges_of_present (h : array.find? entry.key ≠ none) :
    Merges array array [entry] := by
  intro key
  rw [firstValue_singleton]
  split
  · rename_i hkey
    obtain ⟨value, hvalue⟩ := Option.ne_none_iff_exists'.mp h
    rw [hkey, hvalue, Option.some_or]
  · rw [Option.or_none]

section Lawful

variable [LawfulIndex ι]

theorem Consistent.lists (h : Consistent array) :
    Lists array array.storage.entries where
  yields := by
    rw [← entries_cursor h.exact]
    exact Cursor.yields_entries _
  ascending := h.ascending
  mem_iff _ := h.find?_eq_some_iff.symm

theorem Consistent.readsAlike {other : PackedArray ρ ι} (h : Consistent array)
    (hother : Consistent other)
    (hfind : ∀ key, array.find? key = other.find? key) :
    ReadsAlike array other := by
  have hentries : array.storage.entries = other.storage.entries := by
    apply h.ascending.eq_of_mem_iff hother.ascending
    intro entry
    rw [h.lists.mem_iff, hother.lists.mem_iff, hfind]
  have hrange (least greatest : Key) : ∃ left right,
      array.range least greatest = .ok left ∧
        other.range least greatest = .ok right ∧
          left.entries = right.entries := by
    obtain ⟨left, hleft, hleftAscending, hleftMem⟩ :=
      h.exists_range least greatest
    obtain ⟨right, hright, hrightAscending, hrightMem⟩ :=
      hother.exists_range least greatest
    refine ⟨left, right, hleft, hright,
      hleftAscending.eq_of_mem_iff hrightAscending fun entry => ?_⟩
    rw [hleftMem, hrightMem, hfind]
  refine ⟨hfind, ⟨_, h.lists.yields, ?_⟩, ?_, ?_⟩
  · rw [hentries]
    exact hother.lists.yields
  · intro least greatest
    obtain ⟨left, right, hleft, hright, heq⟩ := hrange least greatest
    refine ⟨left, right, _, hleft, hright, left.yields_entries, ?_⟩
    rw [heq]
    exact right.yields_entries
  · intro least greatest
    obtain ⟨left, right, hleft, hright, heq⟩ := hrange least greatest
    simp only [rangeTotals, hleft, hright, bind, Except.bind, heq]

theorem merges_of_inserts (harray : Consistent array)
    (hnew : Consistent new)
    (h : Inserts entry array.storage.entries new.storage.entries) :
    Merges array new [entry] := by
  intro key
  rw [find?_of_inserts harray hnew h, firstValue_singleton]
  split
  · rename_i hkey
    rw [hkey, find?_eq_none_of_inserts harray hnew h, Option.none_or]
  · rw [Option.or_none]

end Lawful

/-! ## Extensions -/

variable [Quantity ρ]

/--
An extension goes through the whole list, or it stops at the first entry that is
refused; either way it has merged in what it has gone through.
-/
inductive Extends (array : PackedArray ρ ι) (entries : List Entry) :
    Except Fault Unit → PackedArray ρ ι → Prop
  | completed {new : PackedArray ρ ι} (hmerges : Merges array new entries) :
      Extends array entries (.ok ()) new
  | stopped {before after : List Entry} {entry : Entry} {capacity : Nat}
      {middle new : PackedArray ρ ι}
      (hentries : entries = before ++ entry :: after)
      (hbefore : Update.run (extend before) array = (.ok (), middle))
      (hrefused : Update.run (insert entry.key entry.value) middle =
        (.error (.allocationFailure capacity), new))
      (hmerges : Merges array new before) :
      Extends array entries
        (.error (.cannotExtend (.allocationFailure capacity))) new

theorem Extends.cons {rest : List Entry} {stored : Bool}
    {result : Except Fault Unit} (h : Extends middle rest result new)
    (hinsert : Update.run (insert entry.key entry.value) array =
      (.ok stored, middle))
    (hfirst : Merges array middle [entry]) :
    Extends array (entry :: rest) result new := by
  cases h with
  | completed hmerges => exact .completed (hfirst.trans hmerges)
  | @stopped before after _ _ _ _ hentries hbefore hrefused hmerges =>
      -- The entry that is refused stays the same; one more comes before it.
      have hrun := (run_extend_cons_of_ok before hinsert).trans hbefore
      rw [hentries, ← List.cons_append]
      exact .stopped rfl hrun hrefused (hfirst.trans hmerges)

theorem Extends.merges_of_ok {entries : List Entry}
    (h : Extends array entries (.ok ()) new) : Merges array new entries := by
  cases h with
  | completed hmerges => exact hmerges

inductive Collects (entries : List Entry) :
    Except Fault (PackedArray ρ ι) → Prop
  | uncreated {fault : Fault}
      (h : (create : Except Fault (PackedArray ρ ι)) = .error fault) :
      Collects entries (.error fault)
  | extended {empty new : PackedArray ρ ι} {result : Except Fault Unit}
      (hcreate : create = .ok empty) (hempty : ∀ key, empty.find? key = none)
      (hextends : Extends empty entries result new) :
      Collects entries (result.map fun _ => new)

theorem ofConfig_of_create (h : create = .ok array) :
    ofConfig { initialCapacity := defaultCapacity } = .ok array := by
  rw [create, ofCapacity] at h
  cases hcreate : (ofConfig { initialCapacity := defaultCapacity } :
      Except Fault (PackedArray ρ ι)) with
  | error fault =>
      rw [hcreate] at h
      contradiction
  | ok empty =>
      rw [hcreate] at h
      exact h

variable [LawfulIndex ι]

theorem merges_insert (h : Consistent array) (entry : Entry) :
    (∃ stored, Update.run (insert entry.key entry.value) array =
        (.ok stored, (insert entry.key entry.value array).state) ∧
      Merges array (insert entry.key entry.value array).state [entry]) ∨
    ∃ capacity, Update.run (insert entry.key entry.value) array =
        (.error (.allocationFailure capacity),
          (insert entry.key entry.value array).state) ∧
      Merges array (insert entry.key entry.value array).state [] := by
  obtain ⟨result, new, hrun, hinsertion⟩ := insertion h entry.key entry.value
  have hnew := hinsertion.consistent h
  obtain ⟨rfl, rfl⟩ := Prod.mk.inj hrun
  obtain ⟨hpresent, hresult, hsame⟩ | ⟨-, hresult, hinserts⟩ |
    ⟨-, ⟨capacity, hresult⟩, hentries⟩ := hinsertion.effect h
  · refine .inl ⟨false, Prod.ext hresult rfl, ?_⟩
    rw [hsame]
    exact merges_of_present hpresent
  · exact .inl ⟨true, Prod.ext hresult rfl, merges_of_inserts h hnew hinserts⟩
  · refine .inr ⟨capacity, Prod.ext hresult rfl, fun key => ?_⟩
    rw [h.find?_congr hnew hentries]
    exact (Option.or_none).symm

theorem extension (h : Consistent array) (entries : List Entry) :
    ∃ result new, Update.run (extend entries) array = (result, new) ∧
      Extends array entries result new := by
  induction entries generalizing array with
  | nil =>
      exact ⟨.ok (), array, rfl, .completed fun key => (Option.or_none).symm⟩
  | cons entry rest ih =>
      obtain ⟨stored, hinsert, hfirst⟩ | ⟨capacity, hinsert, hfirst⟩ :=
        merges_insert h entry
      · obtain ⟨result, new, hrun, hrest⟩ :=
          ih (consistent_insert h entry.key entry.value)
        exact ⟨result, new, (run_extend_cons_of_ok rest hinsert).trans hrun,
          hrest.cons hinsert hfirst⟩
      · exact ⟨_, _, run_extend_cons_of_error rest hinsert,
          .stopped (List.nil_append _).symm rfl hinsert hfirst⟩

theorem readsAlike_of_perm (h : Consistent array) {first second : List Entry}
    (hperm : first.Perm second) (hnodup : (first.map Entry.key).Nodup)
    (hfirst : (extend first array).result = .ok ())
    (hsecond : (extend second array).result = .ok ()) :
    ReadsAlike (extend first array).state (extend second array).state := by
  have hmerges (entries : List Entry)
      (hok : (extend entries array).result = .ok ()) :
      Merges array (extend entries array).state entries := by
    obtain ⟨result, new, hrun, hextends⟩ := extension h entries
    obtain ⟨rfl, rfl⟩ := Prod.mk.inj hrun
    rw [hok] at hextends
    exact hextends.merges_of_ok
  refine (consistent_extend h first).readsAlike (consistent_extend h second) ?_
  intro key
  rw [hmerges first hfirst, hmerges second hsecond,
    firstValue_perm hperm hnodup]

theorem collects_ofList (entries : List Entry) :
    Collects entries (ofList entries : Except Fault (PackedArray ρ ι)) := by
  cases hcreate : (create : Except Fault (PackedArray ρ ι)) with
  | error fault =>
      simp only [ofList, hcreate, bind, Except.bind]
      exact .uncreated hcreate
  | ok empty =>
      have hholds := holds_of_ofConfig (ofConfig_of_create hcreate)
      have hempty (key : Key) : empty.find? key = none := by
        rw [hholds.find?_eq, Finmap.lookup_empty]
      obtain ⟨result, new, hrun, hextends⟩ :=
        extension hholds.consistent entries
      obtain ⟨hresult, rfl⟩ := Prod.mk.inj hrun
      have hcollects := Collects.extended hcreate hempty hextends
      simp only [ofList, hcreate, hresult, bind, Except.bind]
      cases result <;> exact hcollects

/--
Extensions and lists are merged in entry by entry, first come first served, up
to the first entry that is refused; and where every key comes once, the order of
the entries cannot be read off the array.
-/
theorem extend_first_wins {config : Config ρ} (h : Reachable config array) :
    (∀ entries, ∃ result new,
      Update.run (extend entries) array = (result, new) ∧
        Extends array entries result new ∧ ∃ listed, Lists new listed) ∧
    (∀ entries, Collects entries
      (ofList entries : Except Fault (PackedArray ρ ι))) ∧
    ∀ first second : List Entry, first.Perm second →
      (first.map Entry.key).Nodup →
      (extend first array).result = .ok () →
      (extend second array).result = .ok () →
        ReadsAlike (extend first array).state (extend second array).state := by
  have harray := h.consistent
  refine ⟨fun entries => ?_, collects_ofList, fun first second =>
    readsAlike_of_perm harray⟩
  obtain ⟨result, new, hrun, hextends⟩ := extension harray entries
  obtain ⟨rfl, rfl⟩ := Prod.mk.inj hrun
  exact ⟨_, _, rfl, hextends, _, (consistent_extend harray entries).lists⟩

def threeEntries : List Entry := [⟨2, 20⟩, ⟨3, 30⟩, ⟨4, 40⟩]

theorem extend_oneEntry_either_way :
    (ReadsAlike (extend threeEntries (oneEntry SortedIndex)).state
        (extend threeEntries.reverse (oneEntry SortedIndex)).state ∧
      (extend threeEntries (oneEntry SortedIndex)).state.storage.slots ≠
        (extend threeEntries.reverse
          (oneEntry SortedIndex)).state.storage.slots) ∧
    (ReadsAlike (extend threeEntries (oneEntry TreeIndex)).state
        (extend threeEntries.reverse (oneEntry TreeIndex)).state ∧
      (extend threeEntries (oneEntry TreeIndex)).state.storage.slots ≠
        (extend threeEntries.reverse
          (oneEntry TreeIndex)).state.storage.slots) :=
  ⟨⟨(extend_first_wins reachable_oneEntry).2.2 _ _
      (List.reverse_perm _).symm (by decide) (by decide +kernel)
      (by decide +kernel), by decide +kernel⟩,
    (extend_first_wins reachable_oneEntry).2.2 _ _
      (List.reverse_perm _).symm (by decide) (by decide +kernel)
      (by decide +kernel), by decide +kernel⟩

/-- A key that is stored is passed over; the first key without room is the end. -/
example :
    (extend [⟨6, 0⟩, ⟨8, 80⟩, ⟨9, 90⟩] (sixEntries TreeIndex)).result =
      .error (.cannotExtend (.allocationFailure 16)) := by
  decide +kernel

end PackedArray

end PackedMemory
