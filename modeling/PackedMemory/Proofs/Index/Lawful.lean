import PackedMemory.Index.Basic
import PackedMemory.Proofs.Ascending

/-!
# Lawful order indexes

A lawful index is a finite map from keys to segments whose entries are listed in
ascending order of the keys.  Each operation is described by the entries that it
leaves, and a list in ascending order is determined by its members, so two
lawful indexes with the same history cannot be told apart.
-/

namespace PackedMemory

/--
The segment of the last leader whose key does not exceed `key`, or `best` when
there is none.
-/
def floorSegment (key : Key) : List Leader → Nat → Nat
  | [], best => best
  | leader :: rest, best =>
      if key < leader.1 then best else floorSegment key rest leader.2

theorem floorSegment_of_forall_lt {key : Key} {leaders : List Leader}
    (h : ∀ leader ∈ leaders, key < leader.1) (best : Nat) :
    floorSegment key leaders best = best := by
  cases leaders with
  | nil => rfl
  | cons leader rest => simp [floorSegment, h leader List.mem_cons_self]

theorem floorSegment_append_of_forall_lt {key : Key} {after : List Leader}
    (h : ∀ leader ∈ after, key < leader.1) (before : List Leader)
    (best : Nat) :
    floorSegment key (before ++ after) best = floorSegment key before best := by
  induction before generalizing best with
  | nil => exact floorSegment_of_forall_lt h best
  | cons leader rest ih => rw [List.cons_append, floorSegment, floorSegment, ih]

theorem floorSegment_append {key : Key} {before : List Leader}
    (h : ∀ leader ∈ before, leader.1 ≤ key) (after : List Leader)
    (best : Nat) :
    floorSegment key (before ++ after) best =
      floorSegment key after ((before.getLast?.map Prod.snd).getD best) := by
  induction before generalizing best with
  | nil => rfl
  | cons leader rest ih =>
      have hleader : ¬key < leader.1 :=
        Int64.not_lt.mpr (h leader List.mem_cons_self)
      rw [List.cons_append, floorSegment, if_neg hleader,
        ih fun other hother => h other (List.mem_cons_of_mem _ hother)]
      cases rest with
      | nil => rfl
      | cons second rest => simp [List.getLast?_cons]

open OrderIndex in
/-- An index that is a finite map from keys to segments. -/
class LawfulIndex (ι : Type) [OrderIndex ι] where
  /-- What every index built by the operations satisfies. -/
  Valid : ι → Prop
  ascending {index : ι} : Valid index → Ascending Prod.fst (entries index)
  predecessor_eq {index : ι} : Valid index → ∀ key,
    predecessor index key = floorSegment key (entries index) 0
  valid_empty : Valid (empty : ι)
  entries_empty : entries (empty : ι) = []
  valid_clear (index : ι) : Valid (clear index)
  entries_clear (index : ι) : entries (clear index) = []
  valid_insert {index : ι} : Valid index → ∀ key segment,
    Valid (insert index key segment)
  mem_insert {index : ι} : Valid index → ∀ key segment leader,
    leader ∈ entries (insert index key segment) ↔
      leader = (key, segment) ∨ leader.1 ≠ key ∧ leader ∈ entries index
  valid_removeAny {index : ι} : Valid index → ∀ key,
    Valid (removeAny index key).2
  mem_removeAny {index : ι} : Valid index → ∀ key leader,
    leader ∈ entries (removeAny index key).2 ↔
      leader.1 ≠ key ∧ leader ∈ entries index
  removeAny_eq_some_iff {index : ι} : Valid index → ∀ key segment,
    (removeAny index key).1 = some segment ↔ (key, segment) ∈ entries index
  valid_update {index : ι} : Valid index → ∀ old new,
    Valid (update index old new)
  mem_update {index : ι} : Valid index → ∀ {old segment},
    (old, segment) ∈ entries index → ∀ new leader,
      leader ∈ entries (update index old new) ↔
        leader = (new, segment) ∨
          leader.1 ≠ new ∧ leader.1 ≠ old ∧ leader ∈ entries index
  entries_update_of_absent {index : ι} : Valid index → ∀ {old},
    (∀ segment, (old, segment) ∉ entries index) → ∀ new,
      entries (update index old new) = entries index

inductive OrderIndex.Built {ι : Type} [OrderIndex ι] : ι → Prop
  | empty : Built OrderIndex.empty
  | inserted {index : ι} (h : Built index) (key : Key) (segment : Nat) :
      Built (OrderIndex.insert index key segment)
  | removed {index : ι} (h : Built index) (key : Key) :
      Built (OrderIndex.removeAny index key).2
  | updated {index : ι} (h : Built index) (old new : Key) :
      Built (OrderIndex.update index old new)
  | cleared {index : ι} (h : Built index) : Built (OrderIndex.clear index)

theorem OrderIndex.Built.valid {ι : Type} [OrderIndex ι] [LawfulIndex ι]
    {index : ι} (h : OrderIndex.Built index) : LawfulIndex.Valid index := by
  induction h with
  | empty => exact LawfulIndex.valid_empty
  | inserted _ key segment ih => exact LawfulIndex.valid_insert ih key segment
  | removed _ key ih => exact LawfulIndex.valid_removeAny ih key
  | updated _ old new ih => exact LawfulIndex.valid_update ih old new
  | cleared => exact LawfulIndex.valid_clear _

namespace LawfulIndex

variable {ι : Type} [OrderIndex ι] [LawfulIndex ι]

theorem valid_removeAll {index : ι} (h : Valid index) (keys : List Key) :
    Valid (OrderIndex.removeAll index keys) := by
  induction keys generalizing index with
  | nil => exact h
  | cons key keys ih => exact ih (valid_removeAny h key)

theorem mem_removeAll {index : ι} (h : Valid index) (keys : List Key)
    (leader : Leader) :
    leader ∈ OrderIndex.entries (OrderIndex.removeAll index keys) ↔
      leader.1 ∉ keys ∧ leader ∈ OrderIndex.entries index := by
  induction keys generalizing index with
  | nil => simp
  | cons key keys ih =>
      rw [OrderIndex.removeAll_cons, ih (valid_removeAny h key),
        mem_removeAny h key, List.mem_cons, not_or]
      tauto

theorem valid_insertAll {index : ι} (h : Valid index)
    (leaders : List Leader) : Valid (OrderIndex.insertAll index leaders) := by
  induction leaders generalizing index with
  | nil => exact h
  | cons leader leaders ih => exact ih (valid_insert h leader.1 leader.2)

/-- Of several leaders with one key the last one would stay. -/
theorem mem_insertAll {index : ι} (h : Valid index) {leaders : List Leader}
    (hleaders : Ascending Prod.fst leaders) (leader : Leader) :
    leader ∈ OrderIndex.entries (OrderIndex.insertAll index leaders) ↔
      leader ∈ leaders ∨
        leader.1 ∉ leaders.map Prod.fst ∧
          leader ∈ OrderIndex.entries index := by
  induction leaders generalizing index with
  | nil => simp
  | cons first rest ih =>
      obtain ⟨hfirst, hrest⟩ := List.pairwise_cons.mp hleaders
      have habsent : first.1 ∉ rest.map Prod.fst := by
        intro hmem
        obtain ⟨other, hother, hkey⟩ := List.mem_map.mp hmem
        have hlt := hfirst other hother
        rw [hkey] at hlt
        exact Int64.lt_irrefl hlt
      rw [OrderIndex.insertAll_cons, ih (valid_insert h first.1 first.2) hrest,
        mem_insert h, List.map_cons, List.mem_cons, List.mem_cons, not_or]
      constructor
      · rintro (hmem | ⟨hrest, rfl | ⟨hkey, hmem⟩⟩)
        · exact .inl (.inr hmem)
        · exact .inl (.inl rfl)
        · exact .inr ⟨⟨hkey, hrest⟩, hmem⟩
      · rintro ((rfl | hmem) | ⟨⟨hkey, hrest⟩, hmem⟩)
        · exact .inr ⟨habsent, .inl rfl⟩
        · exact .inl hmem
        · exact .inr ⟨hrest, .inr ⟨hkey, hmem⟩⟩

/-! ## Entries in place

With its entries written as a list around the ones that change, each operation
replaces these and keeps the others where they are.
-/

section InPlace

variable {index : ι} {before after : List Leader} {key : Key} {segment : Nat}

theorem entries_insert_of_append (h : Valid index)
    (hentries : OrderIndex.entries index = before ++ after)
    (hnew : Ascending Prod.fst (before ++ (key, segment) :: after)) :
    OrderIndex.entries (OrderIndex.insert index key segment) =
      before ++ (key, segment) :: after := by
  have hinserts : Inserts (key, segment) (before ++ after)
      (before ++ (key, segment) :: after) := ⟨before, after, rfl, rfl⟩
  apply (ascending (valid_insert h key segment)).eq_of_mem_iff hnew
  intro leader
  rw [mem_insert h, hentries, hinserts.mem_iff]
  constructor
  · rintro (hleader | ⟨-, hmem⟩)
    · exact .inl hleader
    · exact .inr hmem
  · rintro (hleader | hmem)
    · exact .inl hleader
    · exact .inr ⟨hinserts.key_ne hnew hmem, hmem⟩

theorem entries_removeAny_of_append (h : Valid index)
    (hentries : OrderIndex.entries index =
      before ++ (key, segment) :: after) :
    OrderIndex.entries (OrderIndex.removeAny index key).2 =
      before ++ after := by
  have hinserts : Inserts (key, segment) (before ++ after)
      (OrderIndex.entries index) := ⟨before, after, rfl, hentries⟩
  have hold := ascending h
  apply (ascending (valid_removeAny h key)).eq_of_mem_iff
    (hinserts.ascending hold)
  intro leader
  rw [mem_removeAny h, hinserts.mem_iff]
  constructor
  · rintro ⟨hkey, rfl | hmem⟩
    · exact absurd rfl hkey
    · exact hmem
  · intro hmem
    exact ⟨hinserts.key_ne hold hmem, .inr hmem⟩

theorem entries_update_of_append (h : Valid index) {new : Key}
    (hentries : OrderIndex.entries index =
      before ++ (key, segment) :: after)
    (hnew : Ascending Prod.fst (before ++ (new, segment) :: after)) :
    OrderIndex.entries (OrderIndex.update index key new) =
      before ++ (new, segment) :: after := by
  have hold := ascending h
  have hin : (key, segment) ∈ OrderIndex.entries index := by
    rw [hentries]
    simp
  have hfrom : Inserts (key, segment) (before ++ after)
      (OrderIndex.entries index) := ⟨before, after, rfl, hentries⟩
  have hto : Inserts (new, segment) (before ++ after)
      (before ++ (new, segment) :: after) := ⟨before, after, rfl, rfl⟩
  apply (ascending (valid_update h key new)).eq_of_mem_iff hnew
  intro leader
  rw [mem_update h hin, hfrom.mem_iff, hto.mem_iff]
  constructor
  · rintro (hleader | ⟨-, hkey, rfl | hmem⟩)
    · exact .inl hleader
    · exact absurd rfl hkey
    · exact .inr hmem
  · rintro (hleader | hmem)
    · exact .inl hleader
    · exact .inr ⟨hto.key_ne hnew hmem, hfrom.key_ne hold hmem, .inr hmem⟩

theorem entries_exchange (h : Valid index) {old new : List Leader}
    (hentries : OrderIndex.entries index = before ++ old ++ after)
    (hnew : Ascending Prod.fst (before ++ new ++ after)) :
    OrderIndex.entries (OrderIndex.insertAll
      (OrderIndex.removeAll index (old.map Prod.fst)) new) =
        before ++ new ++ after := by
  have hremoved := valid_removeAll h (old.map Prod.fst)
  have hold := ascending h
  rw [hentries] at hold
  obtain ⟨-, hmiddle, -⟩ := (ascending_append_append_iff _ _ _).mp hnew
  apply (ascending (valid_insertAll hremoved new)).eq_of_mem_iff hnew
  intro leader
  rw [mem_insertAll hremoved hmiddle, mem_removeAll h, hentries]
  simp only [List.mem_append]
  constructor
  · rintro (hmem | ⟨-, hkey, (hmem | hmem) | hmem⟩)
    · exact .inl (.inr hmem)
    · exact .inl (.inl hmem)
    · exact absurd (List.mem_map_of_mem hmem) hkey
    · exact .inr hmem
  · rintro ((hmem | hmem) | hmem)
    · exact .inr ⟨hnew.key_notMem_middle (.inl hmem),
        hold.key_notMem_middle (.inl hmem), .inl (.inl hmem)⟩
    · exact .inl hmem
    · exact .inr ⟨hnew.key_notMem_middle (.inr hmem),
        hold.key_notMem_middle (.inr hmem), .inr hmem⟩

theorem entries_insertAll_of_nil (h : Valid index)
    (hentries : OrderIndex.entries index = []) {new : List Leader}
    (hnew : Ascending Prod.fst new) :
    OrderIndex.entries (OrderIndex.insertAll index new) = new := by
  have hexchange := @entries_exchange ι _ _ index [] [] h [] new hentries
    (by simpa using hnew)
  simpa using hexchange

end InPlace

end LawfulIndex

structure SameLeaders {ι κ : Type} [OrderIndex ι] [LawfulIndex ι] [OrderIndex κ]
    [LawfulIndex κ] (first : ι) (second : κ) : Prop where
  valid_first : LawfulIndex.Valid first
  valid_second : LawfulIndex.Valid second
  entries_eq : OrderIndex.entries first = OrderIndex.entries second

namespace SameLeaders

variable {ι κ : Type} [OrderIndex ι] [LawfulIndex ι] [OrderIndex κ]
  [LawfulIndex κ] {first : ι} {second : κ}

theorem of_mem_iff (hfirst : LawfulIndex.Valid first)
    (hsecond : LawfulIndex.Valid second)
    (h : ∀ leader, leader ∈ OrderIndex.entries first ↔
      leader ∈ OrderIndex.entries second) : SameLeaders first second :=
  ⟨hfirst, hsecond, (LawfulIndex.ascending hfirst).eq_of_mem_iff
    (LawfulIndex.ascending hsecond) h⟩

theorem empty : SameLeaders (OrderIndex.empty : ι) (OrderIndex.empty : κ) :=
  ⟨LawfulIndex.valid_empty, LawfulIndex.valid_empty, by
    rw [LawfulIndex.entries_empty, LawfulIndex.entries_empty]⟩

theorem clear (first : ι) (second : κ) :
    SameLeaders (OrderIndex.clear first) (OrderIndex.clear second) :=
  ⟨LawfulIndex.valid_clear _, LawfulIndex.valid_clear _, by
    rw [LawfulIndex.entries_clear, LawfulIndex.entries_clear]⟩

theorem predecessor_eq (h : SameLeaders first second) (key : Key) :
    OrderIndex.predecessor first key = OrderIndex.predecessor second key := by
  rw [LawfulIndex.predecessor_eq h.valid_first,
    LawfulIndex.predecessor_eq h.valid_second, h.entries_eq]

theorem insert (h : SameLeaders first second) (key : Key) (segment : Nat) :
    SameLeaders (OrderIndex.insert first key segment)
      (OrderIndex.insert second key segment) := by
  apply of_mem_iff (LawfulIndex.valid_insert h.valid_first key segment)
    (LawfulIndex.valid_insert h.valid_second key segment)
  intro leader
  rw [LawfulIndex.mem_insert h.valid_first,
    LawfulIndex.mem_insert h.valid_second, h.entries_eq]

theorem removeAny (h : SameLeaders first second) (key : Key) :
    SameLeaders (OrderIndex.removeAny first key).2
      (OrderIndex.removeAny second key).2 := by
  apply of_mem_iff (LawfulIndex.valid_removeAny h.valid_first key)
    (LawfulIndex.valid_removeAny h.valid_second key)
  intro leader
  rw [LawfulIndex.mem_removeAny h.valid_first,
    LawfulIndex.mem_removeAny h.valid_second, h.entries_eq]

theorem update (h : SameLeaders first second) (old new : Key) :
    SameLeaders (OrderIndex.update first old new)
      (OrderIndex.update second old new) := by
  have hfirst := LawfulIndex.valid_update h.valid_first old new
  have hsecond := LawfulIndex.valid_update h.valid_second old new
  by_cases hold : ∃ segment, (old, segment) ∈ OrderIndex.entries first
  · obtain ⟨segment, hmem⟩ := hold
    apply of_mem_iff hfirst hsecond
    intro leader
    rw [LawfulIndex.mem_update h.valid_first hmem,
      LawfulIndex.mem_update h.valid_second (h.entries_eq ▸ hmem), h.entries_eq]
  · have habsent := not_exists.mp hold
    refine ⟨hfirst, hsecond, ?_⟩
    rw [LawfulIndex.entries_update_of_absent h.valid_first habsent,
      LawfulIndex.entries_update_of_absent h.valid_second
        (h.entries_eq ▸ habsent), h.entries_eq]

theorem insertAll (h : SameLeaders first second) (leaders : List Leader) :
    SameLeaders (OrderIndex.insertAll first leaders)
      (OrderIndex.insertAll second leaders) := by
  induction leaders generalizing first second with
  | nil => exact h
  | cons leader leaders ih => exact ih (h.insert leader.1 leader.2)

theorem removeAll (h : SameLeaders first second) (keys : List Key) :
    SameLeaders (OrderIndex.removeAll first keys)
      (OrderIndex.removeAll second keys) := by
  induction keys generalizing first second with
  | nil => exact h
  | cons key keys ih => exact ih (h.removeAny key)

end SameLeaders

end PackedMemory
