import PackedMemory.Proofs.Index.Access
import PackedMemory.Proofs.Index.Size

/-!
# Order indexes as finite maps

A run of calls on a lawful index is answered as a finite map from keys to
segments answers it, and such a map leaves no choice of answers.  So indexes of
different kinds cannot be told apart by any run.
-/

namespace PackedMemory

abbrev LeaderMap := Finmap fun _ : Key => Nat

inductive IndexCall where
  | insert (key : Key) (segment : Nat)
  | removeAny (key : Key)
  | update (old new : Key)
  | clear
  | predecessor (key : Key)
  | size
  | isEmpty
  | entries
deriving DecidableEq, Repr

inductive IndexAnswer where
  | done
  | removed (segment : Option Nat)
  | segment (number : Nat)
  | counted (count : Nat)
  | emptiness (empty : Bool)
  | listed (leaders : List Leader)
deriving DecidableEq, Repr

namespace LeaderMap

def rekey (map : LeaderMap) (old new : Key) : LeaderMap :=
  match map.lookup old with
  | some segment => (map.erase old).insert new segment
  | none => map

inductive Leads (map : LeaderMap) (key : Key) : Nat → Prop
  | nearest {other : Key} {segment : Nat}
      (h : map.lookup other = some segment) (hle : other ≤ key)
      (hgreatest : ∀ third ∈ map, third ≤ key → third ≤ other) :
      Leads map key segment
  | first (h : ∀ other ∈ map, key < other) : Leads map key 0

def Lists (map : LeaderMap) (leaders : List Leader) : Prop :=
  Ascending Prod.fst leaders ∧
    ∀ key segment, (key, segment) ∈ leaders ↔ map.lookup key = some segment

inductive Responds (map : LeaderMap) :
    IndexCall → IndexAnswer → LeaderMap → Prop
  | insert (key : Key) (segment : Nat) :
      Responds map (.insert key segment) .done (map.insert key segment)
  | removeAny (key : Key) :
      Responds map (.removeAny key) (.removed (map.lookup key)) (map.erase key)
  | update (old new : Key) :
      Responds map (.update old new) .done (map.rekey old new)
  | clear : Responds map .clear .done ∅
  | predecessor {key : Key} {number : Nat} (h : map.Leads key number) :
      Responds map (.predecessor key) (.segment number) map
  | size : Responds map .size (.counted map.keys.card) map
  | isEmpty : Responds map .isEmpty (.emptiness (map = ∅)) map
  | entries {leaders : List Leader} (h : map.Lists leaders) :
      Responds map .entries (.listed leaders) map

inductive RespondsAll :
    LeaderMap → List IndexCall → List IndexAnswer → LeaderMap → Prop
  | nil (map : LeaderMap) : RespondsAll map [] [] map
  | cons {map next last : LeaderMap} {call : IndexCall}
      {answer : IndexAnswer} {calls : List IndexCall}
      {answers : List IndexAnswer} (hfirst : Responds map call answer next)
      (hrest : RespondsAll next calls answers last) :
      RespondsAll map (call :: calls) (answer :: answers) last

theorem Leads.unique {map : LeaderMap} {key : Key} {first second : Nat}
    (hfirst : map.Leads key first) (hsecond : map.Leads key second) :
    first = second := by
  cases hfirst with
  | @nearest left _ hleft hleftLe hleftGreatest =>
      have hleftIn := Finmap.mem_of_lookup_eq_some hleft
      cases hsecond with
      | @nearest right _ hright hrightLe hrightGreatest =>
          have hrightIn := Finmap.mem_of_lookup_eq_some hright
          have hkey : left = right := Int64.le_antisymm
            (hrightGreatest left hleftIn hleftLe)
            (hleftGreatest right hrightIn hrightLe)
          rw [hkey, hright] at hleft
          exact (Option.some.inj hleft).symm
      | first habove =>
          exact absurd (habove left hleftIn) (Int64.not_lt.mpr hleftLe)
  | first habove =>
      cases hsecond with
      | @nearest right _ hright hrightLe _ =>
          have hrightIn := Finmap.mem_of_lookup_eq_some hright
          exact absurd (habove right hrightIn) (Int64.not_lt.mpr hrightLe)
      | first => rfl

theorem Lists.unique {map : LeaderMap} {first second : List Leader}
    (hfirst : map.Lists first) (hsecond : map.Lists second) :
    first = second := by
  refine hfirst.1.eq_of_mem_iff hsecond.1 fun leader => ?_
  exact (hfirst.2 leader.1 leader.2).trans (hsecond.2 leader.1 leader.2).symm

theorem Responds.unique {map first second : LeaderMap} {call : IndexCall}
    {answer other : IndexAnswer} (hfirst : map.Responds call answer first)
    (hsecond : map.Responds call other second) :
    answer = other ∧ first = second := by
  cases hfirst with
  | predecessor hleft =>
      cases hsecond with
      | predecessor hright => exact ⟨congrArg _ (hleft.unique hright), rfl⟩
  | entries hleft =>
      cases hsecond with
      | entries hright => exact ⟨congrArg _ (hleft.unique hright), rfl⟩
  | insert | removeAny | update | clear | size | isEmpty =>
      cases hsecond
      exact ⟨rfl, rfl⟩

theorem RespondsAll.unique {map first second : LeaderMap}
    {calls : List IndexCall} {answers others : List IndexAnswer}
    (hfirst : map.RespondsAll calls answers first)
    (hsecond : map.RespondsAll calls others second) :
    answers = others ∧ first = second := by
  induction hfirst generalizing others with
  | nil =>
      cases hsecond
      exact ⟨rfl, rfl⟩
  | cons hcall _ ih =>
      cases hsecond with
      | cons hcall' hrest' =>
          obtain ⟨rfl, rfl⟩ := hcall.unique hcall'
          obtain ⟨rfl, rfl⟩ := ih hrest'
          exact ⟨rfl, rfl⟩

end LeaderMap

/-! ## Calls on an index -/

theorem floorSegment_cases {leaders : List Leader}
    (h : Ascending Prod.fst leaders) (key : Key) (best : Nat) :
    (∃ leader ∈ leaders, leader.1 ≤ key ∧
      (∀ other ∈ leaders, other.1 ≤ key → other.1 ≤ leader.1) ∧
        floorSegment key leaders best = leader.2) ∨
      (∀ leader ∈ leaders, key < leader.1) ∧
        floorSegment key leaders best = best := by
  induction leaders generalizing best with
  | nil => exact .inr ⟨by simp, rfl⟩
  | cons leader rest ih =>
      obtain ⟨hfirst, hrest⟩ := List.pairwise_cons.mp h
      rw [floorSegment]
      split
      · rename_i hlt
        exact .inr ⟨(h.lt_forall_cons_iff key).mpr hlt, rfl⟩
      · rename_i hnot
        have hle := Int64.not_lt.mp hnot
        obtain ⟨next, hmem, hnext, hgreatest, hfloor⟩ | ⟨habove, hfloor⟩ :=
          ih hrest leader.2
        · refine .inl ⟨next, List.mem_cons_of_mem _ hmem, hnext, ?_, hfloor⟩
          refine List.forall_mem_cons.mpr ⟨fun _ => ?_, hgreatest⟩
          exact Int64.le_of_lt (hfirst next hmem)
        · refine .inl ⟨leader, List.mem_cons_self, hle, ?_, hfloor⟩
          refine List.forall_mem_cons.mpr ⟨fun _ => Int64.le_refl _, ?_⟩
          intro other hother hotherLe
          exact absurd (habove other hother) (Int64.not_lt.mpr hotherLe)

namespace OrderIndex

section Calls

variable {ι : Type} [OrderIndex ι]

def isEmpty (index : ι) : Bool := size index == 0

def respond (index : ι) : IndexCall → IndexAnswer × ι
  | .insert key segment => (.done, insert index key segment)
  | .removeAny key =>
      let (segment, rest) := removeAny index key
      (.removed segment, rest)
  | .update old new => (.done, update index old new)
  | .clear => (.done, clear index)
  | .predecessor key => (.segment (predecessor index key), index)
  | .size => (.counted (size index), index)
  | .isEmpty => (.emptiness (isEmpty index), index)
  | .entries => (.listed (entries index), index)

def respondAll (index : ι) : List IndexCall → List IndexAnswer × ι
  | [] => ([], index)
  | call :: calls =>
      let (answer, next) := respond index call
      let (answers, last) := respondAll next calls
      (answer :: answers, last)

end Calls

structure Represents {ι : Type} [OrderIndex ι] (index : ι) (map : LeaderMap) :
    Prop where
  built : Built index
  mem_iff : ∀ key segment,
    (key, segment) ∈ entries index ↔ map.lookup key = some segment

variable {ι : Type} [OrderIndex ι] [LawfulIndex ι] {index : ι} {map : LeaderMap}

theorem represents_empty : Represents (empty : ι) ∅ := by
  refine ⟨.empty, fun key segment => ?_⟩
  rw [LawfulIndex.entries_empty, Finmap.lookup_empty]
  simp

namespace Represents

theorem lists (h : Represents index map) : map.Lists (entries index) :=
  ⟨LawfulIndex.ascending h.built.valid, h.mem_iff⟩

theorem length_entries (h : Represents index map) :
    (entries index).length = map.keys.card := by
  refine (h.lists.1.card_keys_eq fun key => ?_).symm
  rw [Finmap.mem_iff, List.mem_map]
  constructor
  · rintro ⟨segment, hsegment⟩
    exact ⟨(key, segment), (h.mem_iff key segment).mpr hsegment, rfl⟩
  · rintro ⟨⟨other, segment⟩, hmem, rfl⟩
    exact ⟨segment, (h.mem_iff other segment).mp hmem⟩

theorem insert (h : Represents index map) (key : Key) (segment : Nat) :
    Represents (OrderIndex.insert index key segment)
      (map.insert key segment) := by
  refine ⟨h.built.inserted key segment, fun other number => ?_⟩
  rw [LawfulIndex.mem_insert h.built.valid, h.mem_iff, Prod.mk.injEq]
  by_cases hkey : other = key
  · rw [hkey, Finmap.lookup_insert, Option.some.injEq]
    simp [eq_comm]
  · rw [Finmap.lookup_insert_of_ne _ hkey]
    simp [hkey]

theorem lookup_eq (h : Represents index map) (key : Key) :
    (OrderIndex.removeAny index key).1 = map.lookup key := by
  refine Option.ext fun segment => ?_
  rw [LawfulIndex.removeAny_eq_some_iff h.built.valid, h.mem_iff]

theorem erase (h : Represents index map) (key : Key) :
    Represents (OrderIndex.removeAny index key).2 (map.erase key) := by
  refine ⟨h.built.removed key, fun other segment => ?_⟩
  rw [LawfulIndex.mem_removeAny h.built.valid, h.mem_iff]
  by_cases hkey : other = key
  · rw [hkey, Finmap.lookup_erase]
    simp
  · rw [Finmap.lookup_erase_ne hkey]
    simp [hkey]

theorem rekey (h : Represents index map) (old new : Key) :
    Represents (OrderIndex.update index old new) (map.rekey old new) := by
  refine ⟨h.built.updated old new, fun key segment => ?_⟩
  unfold LeaderMap.rekey
  cases hlookup : map.lookup old with
  | none =>
      have habsent : ∀ number, (old, number) ∉ entries index := by
        intro number hmem
        rw [h.mem_iff, hlookup] at hmem
        contradiction
      rw [LawfulIndex.entries_update_of_absent h.built.valid habsent,
        h.mem_iff]
  | some number =>
      have hmem := (h.mem_iff old number).mpr hlookup
      rw [LawfulIndex.mem_update h.built.valid hmem, h.mem_iff, Prod.mk.injEq]
      by_cases hnew : key = new
      · rw [hnew, Finmap.lookup_insert, Option.some.injEq]
        simp [eq_comm]
      · rw [Finmap.lookup_insert_of_ne _ hnew]
        by_cases hold : key = old
        · rw [hold, Finmap.lookup_erase]
          simp [← hold, hnew]
        · rw [Finmap.lookup_erase_ne hold]
          simp [hnew, hold]

theorem clear (h : Represents index map) :
    Represents (OrderIndex.clear index) ∅ := by
  refine ⟨h.built.cleared, fun key segment => ?_⟩
  rw [LawfulIndex.entries_clear, Finmap.lookup_empty]
  simp

theorem leads (h : Represents index map) (key : Key) :
    map.Leads key (predecessor index key) := by
  have hvalid := h.built.valid
  rw [LawfulIndex.predecessor_eq hvalid]
  obtain ⟨leader, hmem, hle, hgreatest, hfloor⟩ | ⟨habove, hfloor⟩ :=
    floorSegment_cases (LawfulIndex.ascending hvalid) key 0
  · rw [hfloor]
    refine .nearest ((h.mem_iff leader.1 leader.2).mp hmem) hle ?_
    intro other hother hotherLe
    obtain ⟨segment, hsegment⟩ := Finmap.mem_iff.mp hother
    exact hgreatest _ ((h.mem_iff other segment).mpr hsegment) hotherLe
  · rw [hfloor]
    refine .first fun other hother => ?_
    obtain ⟨segment, hsegment⟩ := Finmap.mem_iff.mp hother
    exact habove _ ((h.mem_iff other segment).mpr hsegment)

variable [CountingIndex ι]

theorem size_eq (h : Represents index map) :
    size index = map.keys.card := by
  rw [CountingIndex.size_eq h.built, h.length_entries]

theorem isEmpty_eq (h : Represents index map) :
    isEmpty index = decide (map = ∅) := by
  rw [isEmpty, h.size_eq, Bool.eq_iff_iff, beq_iff_eq, decide_eq_true_iff,
    card_keys_eq_zero_iff]

theorem responds (h : Represents index map) (call : IndexCall) :
    ∃ next, map.Responds call (respond index call).1 next ∧
      Represents (respond index call).2 next := by
  cases call with
  | insert key segment => exact ⟨_, .insert key segment, h.insert key segment⟩
  | removeAny key =>
      have hremoved := h.lookup_eq key
      refine ⟨map.erase key, ?_, h.erase key⟩
      simp only [respond, hremoved]
      exact .removeAny key
  | update old new => exact ⟨_, .update old new, h.rekey old new⟩
  | clear => exact ⟨∅, .clear, h.clear⟩
  | predecessor key => exact ⟨map, .predecessor (h.leads key), h⟩
  | size =>
      refine ⟨map, ?_, h⟩
      rw [respond, h.size_eq]
      exact .size
  | isEmpty =>
      refine ⟨map, ?_, h⟩
      rw [respond, h.isEmpty_eq]
      exact .isEmpty
  | entries => exact ⟨map, .entries h.lists, h⟩

theorem respondsAll (h : Represents index map) (calls : List IndexCall) :
    ∃ last, map.RespondsAll calls (respondAll index calls).1 last ∧
      Represents (respondAll index calls).2 last := by
  induction calls generalizing index map with
  | nil => exact ⟨map, .nil map, h⟩
  | cons call calls ih =>
      obtain ⟨next, hfirst, hnext⟩ := h.responds call
      obtain ⟨last, hrest, hlast⟩ := ih hnext
      exact ⟨last, .cons hfirst hrest, hlast⟩

end Represents

/-! ## The two kinds -/

theorem Built.paired {index : SortedIndex} (h : Built index) :
    index.keys.size = index.segments.size ∧
      index.keys.toList.Pairwise (· < ·) := by
  obtain ⟨hlists, hascending⟩ := h.valid
  refine ⟨hlists.size_eq, ?_⟩
  rw [hlists.1]
  exact List.pairwise_map.mpr hascending

/--
Whatever calls are made, indexes of both kinds answer them like one finite map
and end with its leaders; the arrays of a sorted index stay side by side.
-/
theorem sorted_tree_like_map (calls : List IndexCall) :
    ∃ answers map sorted tree,
      respondAll (empty : SortedIndex) calls = (answers, sorted) ∧
      respondAll (empty : TreeIndex) calls = (answers, tree) ∧
      LeaderMap.RespondsAll ∅ calls answers map ∧
      entries sorted = entries tree ∧ map.Lists (entries sorted) ∧
      sorted.keys.size = sorted.segments.size ∧
      sorted.keys.toList.Pairwise (· < ·) := by
  obtain ⟨map, hresponds, hsorted⟩ :=
    (represents_empty : Represents (empty : SortedIndex) ∅).respondsAll calls
  obtain ⟨other, hresponds', htree⟩ :=
    (represents_empty : Represents (empty : TreeIndex) ∅).respondsAll calls
  obtain ⟨hanswers, rfl⟩ := hresponds.unique hresponds'
  exact ⟨_, map, _, _, rfl, Prod.ext hanswers.symm rfl, hresponds,
    hsorted.lists.unique htree.lists, hsorted.lists, hsorted.built.paired⟩

/-- A key that goes past one neighbour and takes the place of another. -/
example :
    (respondAll (empty : SortedIndex) [.insert 1 0, .insert 5 1, .insert 9 2,
      .update 1 9, .predecessor 8, .entries]).1 =
        [.done, .done, .done, .done, .segment 1, .listed [(5, 1), (9, 0)]] := by
  decide +kernel

end OrderIndex

end PackedMemory
