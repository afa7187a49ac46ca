import PackedMemory.PackedArray.Change
import PackedMemory.Proofs.PackedArray.Consistent
import PackedMemory.Proofs.Storage.Occupancy

/-!
# Single entries

An entry that goes into a segment, or out of one, changes the index only when it
is the first entry of the segment.  What the steps leave is stated for exact
arrays and any index; that a consistent array stays consistent needs the laws of
the index.
-/

namespace PackedMemory

open Storage (firstKeys)

namespace PackedArray

variable {ρ ι : Type} {array : PackedArray ρ ι} {number : Nat}
  {segment : Segment} {index : ι} {entry : Entry}

def withSegment (array : PackedArray ρ ι) (number : Nat) (segment : Segment)
    (index : ι) : PackedArray ρ ι :=
  { array with
    storage := array.storage.withSegments
      (array.storage.segments.setIfInBounds number segment)
    index }

theorem entries_withSegment :
    (array.withSegment number segment index).storage.entries =
      (array.storage.parts.set number segment.entries).flatten := by
  rw [withSegment, Storage.entries_eq_flatten, Storage.parts_setIfInBounds]

theorem capacity_withSegment :
    (array.withSegment number segment index).capacity = array.capacity :=
  congrArg (· * array.storage.segmentCapacity) Array.size_setIfInBounds

theorem inserts_withSegment
    (hsegment : array.storage.segments[number]? = some segment)
    (entry : Entry) (index : ι) :
    Inserts entry array.storage.entries
      (array.withSegment number (segment.insert entry) index).storage.entries := by
  rw [entries_withSegment, Storage.entries_eq_flatten]
  exact inserts_flatten_set (Storage.part_eq hsegment)
    (Segment.inserts_insert entry segment)

theorem withSegment_inserts {offset : Nat}
    (hsegment : array.storage.segments[number]? = some segment)
    (hentry : segment[offset]? = some (some entry)) (index : ι) :
    Inserts entry
      (array.withSegment number (segment.set offset none) index).storage.entries
      array.storage.entries := by
  rw [entries_withSegment, Storage.entries_eq_flatten]
  exact flatten_set_inserts (Storage.part_eq hsegment)
    (Segment.inserts_set_none hentry)

variable [OrderIndex ι]

def learn (array : PackedArray ρ ι) (number : Nat) (segment : Segment)
    (key : Key) : ι :=
  if segment.leads key then
    match segment.minimum? with
    | some old => OrderIndex.update array.index old key
    | none => OrderIndex.insert array.index key number
  else
    array.index

def unlearn (array : PackedArray ρ ι) (segment rest : Segment)
    (key : Key) : ι :=
  if segment.minimum? = some key then
    match rest.minimum? with
    | some new => OrderIndex.update array.index key new
    | none => (OrderIndex.removeAny array.index key).2
  else
    array.index

theorem place_of_exact (h : array.storage.Exact)
    (hsegment : array.storage.segments[number]? = some segment)
    (hgap : segment.entries.length < array.storage.segmentCapacity)
    (entry : Entry) :
    place number entry array =
      ⟨.ok (), array.withSegment number (segment.insert entry)
        (array.learn number segment entry.key), []⟩ := by
  have hleader := h.leader?_eq hsegment
  have hinsert := h.insert_eq hsegment hgap entry
  simp only [place, Update.bind_apply, Update.ask_apply, hleader, onStorage,
    hinsert, List.nil_append, learn]
  cases segment.leads entry.key with
  | false => rfl
  | true =>
      cases hminimum : segment.entries.head?.map Entry.key <;>
        simp only [Segment.minimum?, hminimum] <;> rfl

theorem takeOut_of_exact (h : array.storage.Exact) {offset : Nat}
    (hsegment : array.storage.segments[number]? = some segment)
    (hentry : segment[offset]? = some (some entry)) :
    takeOut number offset entry.key array =
      ⟨.ok (some entry.value), array.withSegment number
        (segment.set offset none)
        (array.unlearn segment (segment.set offset none) entry.key), []⟩ := by
  have hremove := h.removeAt_eq hsegment hentry
  have hexact := h.exact_removeAt hsegment offset
  have hleader := hexact.leader?_eq (Array.getElem?_setIfInBounds_self_of_lt
    (Storage.lt_segmentCount hsegment))
  obtain ⟨first, rest, hentries⟩ := List.exists_cons_of_ne_nil
    (List.ne_nil_of_mem (Segment.mem_entries_of_getElem? hentry))
  have hfirst : segment.entries.head? = some first := by
    rw [hentries]
    rfl
  have hminimum := h.minimum_eq hsegment hfirst
  simp only [takeOut, Update.bind_apply, Update.ask_apply, hminimum, onStorage,
    hremove, List.nil_append, unlearn, Segment.minimum?, hfirst,
    Option.map_some, Option.some.injEq]
  by_cases hkey : first.key = entry.key
  · simp only [if_pos hkey, forget, Update.bind_apply, Update.ask_apply, hleader,
      List.nil_append]
    cases hnext : (Segment.entries (segment.set offset none)).head?.map
      Entry.key <;> rfl
  · simp only [if_neg hkey]
    rfl

variable [LawfulIndex ι]

theorem consistent_withSegment
    (hexact : (array.withSegment number segment index).storage.Exact)
    (hascending : Ascending Entry.key
      (array.storage.parts.set number segment.entries).flatten)
    (hvalid : LawfulIndex.Valid index)
    (hindex : OrderIndex.entries index =
      firstKeys 0 (array.storage.parts.set number segment.entries)) :
    Consistent (array.withSegment number segment index) where
  exact := hexact
  ascending := by rw [entries_withSegment]; exact hascending
  valid := hvalid
  index_eq := by
    change OrderIndex.entries index = _
    rw [hindex, withSegment, Storage.parts_setIfInBounds]

structure Exchanges (number : Nat) (before after : Segment)
    (old new : PackedArray ρ ι) : Prop where
  consistent : Consistent new
  segment_eq : old.storage.segments[number]? = some before
  exists_index : ∃ index, new = old.withSegment number after index

namespace Exchanges

variable {before after : Segment} {new : PackedArray ρ ι}

theorem segmentCount_eq (h : Exchanges number before after array new) :
    new.storage.segmentCount = array.storage.segmentCount := by
  obtain ⟨index, rfl⟩ := h.exists_index
  exact Array.size_setIfInBounds

theorem capacity_eq (h : Exchanges number before after array new) :
    new.capacity = array.capacity := by
  obtain ⟨index, rfl⟩ := h.exists_index
  exact congrArg (· * array.storage.segmentCapacity) Array.size_setIfInBounds

theorem policy_eq (h : Exchanges number before after array new) :
    new.policy = array.policy := by
  obtain ⟨index, rfl⟩ := h.exists_index
  rfl

theorem lt_segmentCount (h : Exchanges number before after array new) :
    number < new.storage.segmentCount := by
  rw [h.segmentCount_eq]
  exact Storage.lt_segmentCount h.segment_eq

theorem getElem?_eq (h : Exchanges number before after array new) :
    new.storage.segments[number]? = some after := by
  have hnumber := Storage.lt_segmentCount h.segment_eq
  obtain ⟨index, rfl⟩ := h.exists_index
  exact Array.getElem?_setIfInBounds_self_of_lt hnumber

theorem getElem?_of_ne (h : Exchanges number before after array new)
    {other : Nat} (hother : other ≠ number) :
    new.storage.segments[other]? = array.storage.segments[other]? := by
  obtain ⟨index, rfl⟩ := h.exists_index
  exact Array.getElem?_setIfInBounds_ne hother.symm

theorem filled_eq (h : Exchanges number before after array new)
    (other : Nat) : new.storage.filled other =
      if other = number then after.entries.length
      else array.storage.filled other := by
  obtain ⟨index, rfl⟩ := h.exists_index
  exact Storage.filled_setIfInBounds (Storage.lt_segmentCount h.segment_eq) _ _

theorem segmentCapacity_eq (h : Exchanges number before after array new) :
    new.storage.segmentCapacity = array.storage.segmentCapacity := by
  obtain ⟨index, rfl⟩ := h.exists_index
  rfl

theorem height_eq (h : Exchanges number before after array new)
    (harray : Consistent array) :
    new.storage.height = array.storage.height :=
  harray.exact.height_congr h.consistent.exact h.segmentCount_eq

theorem gauge_eq (h : Exchanges number before after array new)
    (harray : Consistent array) : new.gauge = array.gauge := by
  rw [gauge, gauge, h.policy_eq, h.segmentCapacity_eq, h.height_eq harray]

end Exchanges

/-! ## Placing -/

structure Places (number : Nat) (segment : Segment) (entry : Entry)
    (old new : PackedArray ρ ι) : Prop
    extends Exchanges number segment (segment.insert entry) old new where
  inserts : Inserts entry old.storage.entries new.storage.entries

theorem Places.find?_eq {new : PackedArray ρ ι}
    (h : Places number segment entry array new) :
    new.find? entry.key = some entry.value :=
  h.consistent.find?_eq_some_iff.mpr ((h.inserts.mem_iff _).mpr (.inl rfl))

theorem Places.filled_eq {new : PackedArray ρ ι}
    (h : Places number segment entry array new) (other : Nat) :
    new.storage.filled other =
      array.storage.filled other + if other = number then 1 else 0 := by
  rw [h.toExchanges.filled_eq]
  split
  · rename_i hother
    rw [hother, Storage.filled_eq h.segment_eq]
    exact (Segment.inserts_insert entry segment).length_eq
  · rfl

theorem places_withSegment (h : Consistent array)
    (hsegment : array.storage.segments[number]? = some segment)
    (hgap : segment.entries.length < array.storage.segmentCapacity)
    (hascending : Ascending Entry.key
      (array.storage.parts.set number (segment.insert entry).entries).flatten)
    (hvalid : LawfulIndex.Valid index)
    (hindex : OrderIndex.entries index = firstKeys 0
      (array.storage.parts.set number (segment.insert entry).entries)) :
    Places number segment entry array
      (array.withSegment number (segment.insert entry) index) where
  consistent := consistent_withSegment
    (h.exact.exact_insert hsegment hgap entry) hascending hvalid hindex
  segment_eq := hsegment
  exists_index := ⟨index, rfl⟩
  inserts := inserts_withSegment hsegment entry index

theorem entries_learn (h : Consistent array)
    (hsegment : array.storage.segments[number]? = some segment)
    (hascending : Ascending Entry.key
      (array.storage.parts.set number (segment.insert entry).entries).flatten) :
    LawfulIndex.Valid (array.learn number segment entry.key) ∧
      OrderIndex.entries (array.learn number segment entry.key) = firstKeys 0
        (array.storage.parts.set number (segment.insert entry).entries) := by
  have hpart := Storage.part_eq hsegment
  -- Only an entry in front of all others changes the leader of the segment.
  cases hleads : segment.leads entry.key with
  | false =>
      rw [learn, hleads, if_neg Bool.false_ne_true]
      refine ⟨h.valid, ?_⟩
      rw [h.index_eq, firstKeys_set_of_head?_eq hpart]
      rw [Segment.head?_insert_of_not_leads hleads]
  | true =>
      rw [Segment.entries_insert_of_leads hleads] at hascending ⊢
      rw [learn, hleads, if_pos rfl, Segment.minimum?]
      cases hentries : segment.entries with
      | nil =>
          rw [hentries] at hpart hascending
          exact ⟨LawfulIndex.valid_insert h.valid _ _,
            entries_insert_lead h.valid h.index_eq hpart hascending⟩
      | cons first rest =>
          rw [hentries] at hpart hascending
          exact ⟨LawfulIndex.valid_update h.valid _ _,
            entries_update_lead h.valid h.index_eq hpart hascending⟩

theorem place_eq (h : Consistent array)
    (howns : Owns array.storage.parts entry.key number)
    (hsegment : array.storage.segments[number]? = some segment)
    (hgap : segment.entries.length < array.storage.segmentCapacity)
    (habsent : ∀ other ∈ segment.entries, other.key ≠ entry.key) :
    ∃ new, place number entry array = ⟨.ok (), new, []⟩ ∧
      Places number segment entry array new := by
  have hpart := Storage.part_eq hsegment
  have hascending := ascending_flatten_set h.ascending_flatten howns hpart
    (Segment.inserts_insert entry segment)
    (Segment.ascending_insert (h.ascending_entries hsegment) habsent)
  obtain ⟨hvalid, hindex⟩ := entries_learn h hsegment hascending
  exact ⟨_, place_of_exact h.exact hsegment hgap entry,
    places_withSegment h hsegment hgap hascending hvalid hindex⟩

theorem place_of_isFull_eq_false {key : Key}
    (h : Consistent array) (value : Value)
    (habsent : array.find? key = none)
    (hfree : array.storage.isFull (array.predecessor key) = false) :
    ∃ segment new, place (array.predecessor key) ⟨key, value⟩ array =
        ⟨.ok (), new, []⟩ ∧
      Places (array.predecessor key) segment ⟨key, value⟩ array new := by
  obtain ⟨segment, hsegment⟩ := h.exists_predecessor key
  have hgap := h.exact.length_lt_of_isFull_eq_false hsegment hfree
  have howns : Owns array.storage.parts (Entry.mk key value).key
      (array.predecessor key) := h.owns_predecessor key
  obtain ⟨new, hplace, hplaces⟩ := place_eq h howns hsegment hgap
    fun other hother => h.find?_eq_none_iff.mp habsent other
      ((Storage.entries_sublist hsegment).mem hother)
  exact ⟨segment, new, hplace, hplaces⟩

/-! ## Taking out -/

structure TakesOut (number offset : Nat) (segment : Segment) (entry : Entry)
    (old new : PackedArray ρ ι) : Prop
    extends Exchanges number segment (segment.set offset none) old new where
  slot_eq : segment[offset]? = some (some entry)
  inserts : Inserts entry new.storage.entries old.storage.entries

theorem TakesOut.find?_eq {offset : Nat} {new : PackedArray ρ ι}
    (h : TakesOut number offset segment entry array new)
    (harray : Consistent array) : array.find? entry.key = some entry.value :=
  harray.find?_eq_some_iff.mpr ((h.inserts.mem_iff _).mpr (.inl rfl))

theorem TakesOut.filled_eq {offset : Nat} {new : PackedArray ρ ι}
    (h : TakesOut number offset segment entry array new) (other : Nat) :
    array.storage.filled other =
      new.storage.filled other + if other = number then 1 else 0 := by
  rw [h.toExchanges.filled_eq]
  split
  · rename_i hother
    rw [hother, Storage.filled_eq h.segment_eq]
    exact (Segment.inserts_set_none h.slot_eq).length_eq
  · rfl

theorem TakesOut.filled_le {offset : Nat} {new : PackedArray ρ ι}
    (h : TakesOut number offset segment entry array new) (other : Nat) :
    new.storage.filled other ≤ array.storage.filled other :=
  (Nat.le_add_right _ _).trans_eq (h.filled_eq other).symm

theorem TakesOut.filled_of_places {key : Key} {value taken : Value}
    {offset : Nat} {other : Segment} {placed new : PackedArray ρ ι}
    (h : TakesOut (placed.predecessor key) offset other ⟨key, taken⟩ placed new)
    (hplaces : Places number segment ⟨key, value⟩ array placed)
    (position : Nat) :
    new.storage.filled position = array.storage.filled position := by
  -- The index leads the removal to the segment in which the entry was placed.
  have hmem := ((Segment.inserts_insert ⟨key, value⟩ segment).mem_iff _).mpr
    (.inl rfl)
  have hnumber := (hplaces.consistent.owns_predecessor key).eq_of_mem
    (Storage.part_eq hplaces.getElem?_eq) hmem rfl
  have hplaced := hplaces.filled_eq position
  have htaken := h.filled_eq position
  rw [← hnumber] at htaken
  omega

theorem TakesOut.isCrammed_eq_false {offset : Nat} {new : PackedArray ρ ι}
    (h : TakesOut number offset segment entry array new)
    (harray : Consistent array) : new.isCrammed = false := by
  have hlength := h.inserts.length_eq
  have htotal := harray.exact.total_le_capacity
  rw [harray.exact.total_eq] at htotal
  rw [isCrammed, beq_eq_false_iff_ne, h.consistent.size_eq, h.capacity_eq]
  change _ ≠ array.storage.capacity
  omega

theorem takesOut_withSegment (h : Consistent array) {offset : Nat}
    (hsegment : array.storage.segments[number]? = some segment)
    (hentry : segment[offset]? = some (some entry))
    (hvalid : LawfulIndex.Valid index)
    (hindex : OrderIndex.entries index = firstKeys 0
      (array.storage.parts.set number
        (Segment.entries (segment.set offset none)))) :
    TakesOut number offset segment entry array
      (array.withSegment number (segment.set offset none) index) := by
  have hinserts := flatten_set_inserts (Storage.part_eq hsegment)
    (Segment.inserts_set_none hentry)
  exact ⟨⟨consistent_withSegment (h.exact.exact_removeAt hsegment offset)
    (hinserts.ascending h.ascending_flatten) hvalid hindex, hsegment, index,
    rfl⟩, hentry, withSegment_inserts hsegment hentry index⟩

theorem entries_unlearn (h : Consistent array) {offset : Nat}
    (hsegment : array.storage.segments[number]? = some segment)
    (hentry : segment[offset]? = some (some entry)) :
    LawfulIndex.Valid
        (array.unlearn segment (segment.set offset none) entry.key) ∧
      OrderIndex.entries
        (array.unlearn segment (segment.set offset none) entry.key) =
          firstKeys 0 (array.storage.parts.set number
            (Segment.entries (segment.set offset none))) := by
  have hpart := Storage.part_eq hsegment
  have hinserts := Segment.inserts_set_none hentry
  have hascending :=
    (flatten_set_inserts hpart hinserts).ascending h.ascending_flatten
  have hsegments := h.ascending_entries hsegment
  obtain ⟨first, rest, hentries⟩ := List.exists_cons_of_ne_nil
    (List.ne_nil_of_mem (Segment.mem_entries_of_getElem? hentry))
  have hmem := Segment.mem_entries_of_getElem? hentry
  rw [hentries] at hpart hinserts hsegments hmem
  rw [unlearn, Segment.minimum?, Segment.minimum?, hentries, List.head?_cons,
    Option.map_some]
  by_cases hfirst : first.key = entry.key
  · have hsame := hsegments.eq_of_key_eq List.mem_cons_self hmem hfirst
    subst hsame
    have hrest : Segment.entries (segment.set offset none) = rest :=
      hinserts.unique ⟨[], rest, rfl, rfl⟩ hsegments
    rw [if_pos rfl]
    rw [hrest] at hascending ⊢
    cases rest with
    | nil =>
        exact ⟨LawfulIndex.valid_removeAny h.valid _,
          entries_removeAny_lead h.valid h.index_eq hpart⟩
    | cons second others =>
        exact ⟨LawfulIndex.valid_update h.valid _ _,
          entries_update_lead h.valid h.index_eq hpart hascending⟩
  · rw [if_neg (by simpa using hfirst)]
    refine ⟨h.valid, ?_⟩
    rw [h.index_eq, firstKeys_set_of_head?_eq hpart]
    obtain ⟨before, after, hold, hnew⟩ := hinserts
    cases before with
    | nil =>
        rw [List.nil_append, List.cons.injEq] at hnew
        exact absurd (congrArg Entry.key hnew.1) hfirst
    | cons other before =>
        rw [List.cons_append, List.cons.injEq] at hnew
        rw [hold, hnew.1]
        rfl

theorem takeOut_eq (h : Consistent array) {offset : Nat}
    (hsegment : array.storage.segments[number]? = some segment)
    (hentry : segment[offset]? = some (some entry)) :
    ∃ new, takeOut number offset entry.key array =
        ⟨.ok (some entry.value), new, []⟩ ∧
      TakesOut number offset segment entry array new ∧
      new.index =
        array.unlearn segment (segment.set offset none) entry.key := by
  obtain ⟨hvalid, hindex⟩ := entries_unlearn h hsegment hentry
  exact ⟨_, takeOut_of_exact h.exact hsegment hentry,
    takesOut_withSegment h hsegment hentry hvalid hindex, rfl⟩

end PackedArray

end PackedMemory
