import PackedMemory.Proofs.Index.Lawful
import PackedMemory.Storage.Window

/-!
# Leaders of parts

Entries stand in consecutive parts, one for each segment.  The first key of each
nonempty part leads to the only part in which a key can stand.
-/

namespace PackedMemory

open Storage (firstKeys)

theorem firstKeys_append (start : Nat) (left right : List (List Entry)) :
    firstKeys start (left ++ right) =
      firstKeys start left ++ firstKeys (start + left.length) right := by
  induction left generalizing start with
  | nil => rfl
  | cons part left ih =>
      have hlength : start + (part :: left).length =
          start + 1 + left.length := by
        rw [List.length_cons]
        omega
      cases part with
      | nil => rw [List.cons_append, firstKeys, ih, firstKeys, hlength]
      | cons entry rest =>
          rw [List.cons_append, firstKeys, ih, firstKeys, hlength,
            List.cons_append]

theorem firstKeys_replicate_nil (start count : Nat) :
    firstKeys start (List.replicate count []) = [] := by
  induction count generalizing start with
  | zero => rfl
  | succ count ih => exact ih (start + 1)

theorem firstKeys_eq_filterMap (start : Nat) (parts : List (List Entry)) :
    firstKeys start parts = (parts.zipIdx start).filterMap fun (part, number) =>
      (part.head?.map Entry.key).map fun key => (key, number) := by
  induction parts generalizing start with
  | nil => rfl
  | cons part parts ih =>
      rw [List.zipIdx_cons, List.filterMap_cons, ← ih (start + 1)]
      cases part <;> rfl

theorem firstKeys_entries (start : Nat) (segments : List Segment) :
    firstKeys start (segments.map Segment.entries) =
      (segments.zipIdx start).filterMap fun (segment, number) =>
        segment.minimum?.map fun key => (key, number) := by
  rw [firstKeys_eq_filterMap, List.zipIdx_map, List.filterMap_map]
  rfl

theorem firstKeys_window {parts middle : List (List Entry)}
    {start length : Nat} (h : start + length ≤ parts.length)
    (hmiddle : middle.length = length) :
    firstKeys 0
        (parts.take start ++ middle ++ parts.drop (start + length)) =
      firstKeys 0 (parts.take start) ++ firstKeys start middle ++
        firstKeys (start + length) (parts.drop (start + length)) := by
  have hstart : (parts.take start).length = start := by
    rw [List.length_take]
    omega
  rw [firstKeys_append, firstKeys_append, List.length_append, hstart, hmiddle,
    Nat.zero_add, Nat.zero_add]

theorem map_fst_firstKeys_sublist (start : Nat) (parts : List (List Entry)) :
    ((firstKeys start parts).map Prod.fst).Sublist
      (parts.flatten.map Entry.key) := by
  induction parts generalizing start with
  | nil => exact List.nil_sublist _
  | cons part parts ih =>
      cases part with
      | nil => exact ih (start + 1)
      | cons entry rest =>
          rw [firstKeys, List.flatten_cons, List.cons_append, List.map_cons,
            List.map_cons, List.map_append]
          exact ((ih (start + 1)).trans
            (List.sublist_append_right _ _)).cons_cons _

theorem ascending_firstKeys {parts : List (List Entry)}
    (h : Ascending Entry.key parts.flatten) (start : Nat) :
    Ascending Prod.fst (firstKeys start parts) := by
  have hkeys : (parts.flatten.map Entry.key).Pairwise (· < ·) :=
    List.pairwise_map.mpr h
  exact List.pairwise_map.mp
    (hkeys.sublist (map_fst_firstKeys_sublist start parts))

theorem take_cons_drop {parts : List (List Entry)} {number : Nat}
    {part : List Entry} (h : parts[number]? = some part) :
    parts = parts.take number ++ part :: parts.drop (number + 1) := by
  obtain ⟨hnumber, hpart⟩ := List.getElem?_eq_some_iff.mp h
  rw [← hpart, ← List.drop_eq_getElem_cons hnumber, List.take_append_drop]

theorem set_eq_take_cons_drop {parts : List (List Entry)} {number : Nat}
    (h : number < parts.length) (part : List Entry) :
    parts.set number part =
      parts.take number ++ part :: parts.drop (number + 1) := by
  rw [List.set_eq_take_append_cons_drop, if_pos h]

theorem firstKeys_take_cons_drop {parts : List (List Entry)} {number : Nat}
    (h : number < parts.length) (part : List Entry) :
    firstKeys 0 (parts.take number ++ part :: parts.drop (number + 1)) =
      firstKeys 0 (parts.take number) ++
        firstKeys number (part :: parts.drop (number + 1)) := by
  rw [firstKeys_append, List.length_take, Nat.min_eq_left (by omega),
    Nat.zero_add]

theorem firstKeys_cons (start : Nat) (part : List Entry)
    (parts : List (List Entry)) :
    firstKeys start (part :: parts) =
      ((part.head?.map Entry.key).map fun key => (key, start)).toList ++
        firstKeys (start + 1) parts := by
  cases part <;> rfl

theorem exists_firstKeys_set {parts : List (List Entry)} {number : Nat}
    {old : List Entry} (hold : parts[number]? = some old) :
    ∃ before after,
      firstKeys 0 parts = before ++
        ((old.head?.map Entry.key).map fun key => (key, number)).toList ++
          after ∧
      ∀ new, firstKeys 0 (parts.set number new) = before ++
        ((new.head?.map Entry.key).map fun key => (key, number)).toList ++
          after := by
  obtain ⟨hnumber, -⟩ := List.getElem?_eq_some_iff.mp hold
  refine ⟨firstKeys 0 (parts.take number),
    firstKeys (number + 1) (parts.drop (number + 1)), ?_, fun new => ?_⟩
  · conv => left; rw [take_cons_drop hold]
    rw [firstKeys_take_cons_drop hnumber, firstKeys_cons, List.append_assoc]
  · rw [set_eq_take_cons_drop hnumber, firstKeys_take_cons_drop hnumber,
      firstKeys_cons, List.append_assoc]

theorem firstKeys_set_of_head?_eq {parts : List (List Entry)} {number : Nat}
    {old new : List Entry} (hold : parts[number]? = some old)
    (hhead : new.head?.map Entry.key = old.head?.map Entry.key) :
    firstKeys 0 (parts.set number new) = firstKeys 0 parts := by
  obtain ⟨before, after, hparts, hset⟩ := exists_firstKeys_set hold
  rw [hset, hhead, hparts]

theorem filter_firstKeys_congr (kept : Nat → Bool) {start : Nat}
    {old new : List (List Entry)} (hlength : new.length = old.length)
    (hsame : ∀ offset, kept (start + offset) = true →
      new[offset]? = old[offset]?) :
    ((firstKeys start new).filter fun leader => kept leader.2) =
      (firstKeys start old).filter fun leader => kept leader.2 := by
  induction old generalizing start new with
  | nil => rw [List.length_eq_zero_iff.mp hlength]
  | cons part old ih =>
      cases new with
      | nil => contradiction
      | cons part' new =>
          rw [firstKeys_cons, firstKeys_cons, List.filter_append,
            List.filter_append, ih (Nat.succ_injective hlength)]
          · congr 1
            cases hkept : kept start with
            | true =>
                have hpart := hsame 0 hkept
                rw [List.getElem?_cons_zero, List.getElem?_cons_zero,
                  Option.some.injEq] at hpart
                rw [hpart]
            | false =>
                cases part <;> cases part' <;> simp [hkept]
          · intro offset hkept
            have hrest := hsame (offset + 1)
            rw [← Nat.add_assoc, Nat.add_right_comm] at hrest
            exact hrest hkept

/-! ## Owners -/

def Reaches (parts : List (List Entry)) (key : Key) (number : Nat) : Prop :=
  ∃ part, parts[number]? = some part ∧ ∃ entry ∈ part, entry.key ≤ key

/-- The part in which a key stands, if it stands in any. -/
structure Owns (parts : List (List Entry)) (key : Key) (number : Nat) :
    Prop where
  lt_length : number < parts.length
  below : ∀ entry ∈ (parts.take number).flatten, entry.key < key
  above : ∀ entry ∈ (parts.drop (number + 1)).flatten, key < entry.key
  reaches : number = 0 ∨ Reaches parts key number

/--
The search for the owner, after it has gone through `before` and has come upon
no part with entries behind `best`.
-/
theorem owns_floorSegment_append {before rest : List (List Entry)} {key : Key}
    {best : Nat} (h : Ascending Entry.key (before ++ rest).flatten)
    (hbest : best < (before ++ rest).length)
    (hbelow : ∀ entry ∈ ((before ++ rest).take best).flatten, entry.key < key)
    (hreaches : best = 0 ∨ Reaches (before ++ rest) key best)
    (hvoid : (before.drop (best + 1)).flatten = []) :
    Owns (before ++ rest) key
      (floorSegment key (firstKeys before.length rest) best) := by
  induction rest generalizing before best with
  | nil =>
      refine ⟨hbest, hbelow, ?_, hreaches⟩
      rw [firstKeys, floorSegment, List.append_nil, hvoid]
      simp
  | cons part rest ih =>
      have hassoc : before ++ part :: rest = before ++ [part] ++ rest := by simp
      have hlength : before.length + 1 = (before ++ [part]).length := by simp
      cases part with
      | nil =>
          rw [firstKeys, hassoc, hlength]
          refine ih (hassoc ▸ h) (hassoc ▸ hbest) (hassoc ▸ hbelow)
            (hassoc ▸ hreaches) ?_
          rw [List.drop_append, List.flatten_append, hvoid]
          cases best + 1 - before.length <;> simp
      | cons entry others =>
          rw [List.flatten_append, List.flatten_cons, List.cons_append] at h
          obtain ⟨-, -, hleft, -⟩ := (ascending_append_cons_iff _ _ _).mp h
          have hright := h.sublist (List.sublist_append_right _ _)
          rw [firstKeys, floorSegment]
          split
          · rename_i hkey
            refine ⟨hbest, hbelow, ?_, hreaches⟩
            intro other hother
            rw [List.drop_append, List.flatten_append, hvoid,
              List.nil_append] at hother
            have hmem : other ∈ ((entry :: others) :: rest).flatten :=
              (List.drop_sublist _ _).flatten.mem hother
            rw [List.flatten_cons, List.cons_append] at hmem
            exact (Ascending.lt_forall_cons_iff hright key).mpr hkey other hmem
          · rename_i hkey
            rw [hassoc, hlength]
            have hle := Int64.not_lt.mp hkey
            refine ih ?_ (by simp) ?_ ?_ (by simp)
            · rw [← hassoc, List.flatten_append, List.flatten_cons,
                List.cons_append]
              exact h
            · intro other hother
              rw [List.append_assoc, List.take_left] at hother
              exact Int64.lt_of_lt_of_le (hleft other hother) hle
            · rw [← hassoc]
              exact .inr ⟨entry :: others, by simp, entry,
                List.mem_cons_self, hle⟩

/-- The greatest leader up to a key leads to the owner of the key. -/
theorem owns_floorSegment {parts : List (List Entry)}
    (h : Ascending Entry.key parts.flatten) (hparts : parts ≠ [])
    (key : Key) : Owns parts key (floorSegment key (firstKeys 0 parts) 0) :=
  @owns_floorSegment_append [] parts key 0 h
    (List.length_pos_iff.mpr hparts) (by simp) (.inl rfl) rfl

namespace Owns

variable {parts : List (List Entry)} {key : Key} {number : Nat}
  {part : List Entry} {entry : Entry}

theorem mem_part (h : Owns parts key number)
    (hpart : parts[number]? = some part) (hentry : entry ∈ parts.flatten)
    (hkey : entry.key = key) : entry ∈ part := by
  rw [take_cons_drop hpart, List.flatten_append, List.flatten_cons] at hentry
  rcases List.mem_append.mp hentry with hentry | hentry
  · have hlt := h.below entry hentry
    rw [hkey] at hlt
    exact absurd hlt Int64.lt_irrefl
  · rcases List.mem_append.mp hentry with hentry | hentry
    · exact hentry
    · have hlt := h.above entry hentry
      rw [hkey] at hlt
      exact absurd hlt Int64.lt_irrefl

theorem eq_of_mem (h : Owns parts key number) {other : Nat}
    (hpart : parts[other]? = some part) (hentry : entry ∈ part)
    (hkey : entry.key = key) : other = number := by
  obtain ⟨hother, hvalue⟩ := List.getElem?_eq_some_iff.mp hpart
  rcases Nat.lt_trichotomy other number with hlt | heq | hgt
  · have hbelow := h.below entry (List.mem_flatten.mpr ⟨part,
      List.mem_take_iff_getElem.mpr ⟨other, by omega, hvalue⟩, hentry⟩)
    rw [hkey] at hbelow
    exact absurd hbelow Int64.lt_irrefl
  · exact heq
  · have hdrop : (parts.drop (number + 1))[other - (number + 1)]? =
        some part := by
      rw [List.getElem?_drop, Nat.add_sub_cancel' hgt, hpart]
    have habove := h.above entry (List.mem_flatten.mpr ⟨part,
      List.mem_of_getElem? hdrop, hentry⟩)
    rw [hkey] at habove
    exact absurd habove Int64.lt_irrefl

theorem within {before old new after : List (List Entry)} {number' : Nat}
    (hold : Owns (before ++ old ++ after) key number)
    (hnew : Owns (before ++ new ++ after) key number')
    (hlow : before.length ≤ number)
    (hhigh : number < before.length + old.length)
    (hlength : new.length = old.length) (hflat : new.flatten = old.flatten) :
    before.length ≤ number' ∧ number' < before.length + old.length := by
  constructor
  · by_contra hlt
    rcases hold.reaches with hzero | ⟨part, hpart, entry, hentry, hle⟩
    · omega
    · have hmem : entry ∈ new.flatten := by
        rw [List.append_assoc, List.getElem?_append_right hlow,
          List.getElem?_append_left (by omega)] at hpart
        rw [hflat]
        exact List.mem_flatten.mpr ⟨part, List.mem_of_getElem? hpart, hentry⟩
      have habove := hnew.above entry (by
        rw [List.append_assoc, List.drop_append_of_le_length (by omega)]
        simp [hmem])
      exact Int64.lt_irrefl (Int64.lt_of_lt_of_le habove hle)
  · by_contra hge
    rcases hnew.reaches with hzero | ⟨part, hpart, entry, hentry, hle⟩
    · omega
    · rw [List.getElem?_append_right (by simp; omega)] at hpart
      have hmem : entry ∈ after.flatten :=
        List.mem_flatten.mpr ⟨part, List.mem_of_getElem? hpart, hentry⟩
      have habove := hold.above entry (by
        rw [List.drop_append_of_le_length (by simp; omega)]
        simp [hmem])
      exact Int64.lt_irrefl (Int64.lt_of_lt_of_le habove hle)

end Owns

section OneMore

variable {parts : List (List Entry)} {number : Nat} {part new : List Entry}
  {entry : Entry}

theorem inserts_flatten_set (hpart : parts[number]? = some part)
    (h : Inserts entry part new) :
    Inserts entry parts.flatten (parts.set number new).flatten := by
  obtain ⟨hnumber, -⟩ := List.getElem?_eq_some_iff.mp hpart
  conv => arg 2; rw [take_cons_drop hpart]
  rw [set_eq_take_cons_drop hnumber]
  simp only [List.flatten_append, List.flatten_cons, ← List.append_assoc]
  exact h.append _ _

theorem flatten_set_inserts (hpart : parts[number]? = some part)
    (h : Inserts entry new part) :
    Inserts entry (parts.set number new).flatten parts.flatten := by
  obtain ⟨hnumber, rfl⟩ := List.getElem?_eq_some_iff.mp hpart
  have hset := inserts_flatten_set
    (List.getElem?_set_self (a := new) hnumber) h
  rw [List.set_set, List.set_getElem_self] at hset
  exact hset

theorem ascending_flatten_set
    (h : Ascending Entry.key parts.flatten)
    (howns : Owns parts entry.key number)
    (hpart : parts[number]? = some part) (hinserts : Inserts entry part new)
    (hnew : Ascending Entry.key new) :
    Ascending Entry.key (parts.set number new).flatten := by
  rw [take_cons_drop hpart, List.flatten_append, List.flatten_cons,
    ← List.append_assoc] at h
  obtain ⟨hleft, -, hright, hbefore, hcross, hafter⟩ :=
    (ascending_append_append_iff _ _ _).mp h
  rw [set_eq_take_cons_drop howns.lt_length, List.flatten_append,
    List.flatten_cons, ← List.append_assoc]
  refine (ascending_append_append_iff _ _ _).mpr
    ⟨hleft, hnew, hright, ?_, hcross, ?_⟩
  · intro first hfirst second hsecond
    rcases (hinserts.mem_iff second).mp hsecond with rfl | hsecond
    · exact howns.below first hfirst
    · exact hbefore first hfirst second hsecond
  · intro first hfirst second hsecond
    rcases (hinserts.mem_iff first).mp hfirst with rfl | hfirst
    · exact howns.above second hsecond
    · exact hafter first hfirst second hsecond

end OneMore

/-! ## Change of a leader -/

section Lead

variable {ι : Type} [OrderIndex ι] [LawfulIndex ι] {index : ι}
  {parts : List (List Entry)} {number : Nat} {old new : List Entry}
  {first entry : Entry}

theorem entries_insert_lead (h : LawfulIndex.Valid index)
    (hindex : OrderIndex.entries index = firstKeys 0 parts)
    (hpart : parts[number]? = some [])
    (hnew : Ascending Entry.key (parts.set number (entry :: new)).flatten) :
    OrderIndex.entries (OrderIndex.insert index entry.key number) =
      firstKeys 0 (parts.set number (entry :: new)) := by
  obtain ⟨before, after, hold, hset⟩ := exists_firstKeys_set hpart
  have hleaders := ascending_firstKeys hnew 0
  rw [hset, List.append_assoc] at hleaders ⊢
  rw [hold, List.append_assoc] at hindex
  exact LawfulIndex.entries_insert_of_append h hindex hleaders

theorem entries_update_lead (h : LawfulIndex.Valid index)
    (hindex : OrderIndex.entries index = firstKeys 0 parts)
    (hpart : parts[number]? = some (first :: old))
    (hnew : Ascending Entry.key (parts.set number (entry :: new)).flatten) :
    OrderIndex.entries (OrderIndex.update index first.key entry.key) =
      firstKeys 0 (parts.set number (entry :: new)) := by
  obtain ⟨before, after, hold, hset⟩ := exists_firstKeys_set hpart
  have hleaders := ascending_firstKeys hnew 0
  rw [hset, List.append_assoc] at hleaders ⊢
  rw [hold, List.append_assoc] at hindex
  exact LawfulIndex.entries_update_of_append h hindex hleaders

theorem entries_removeAny_lead (h : LawfulIndex.Valid index)
    (hindex : OrderIndex.entries index = firstKeys 0 parts)
    (hpart : parts[number]? = some (first :: old)) :
    OrderIndex.entries (OrderIndex.removeAny index first.key).2 =
      firstKeys 0 (parts.set number []) := by
  obtain ⟨before, after, hold, hset⟩ := exists_firstKeys_set hpart
  rw [hold, List.append_assoc] at hindex
  rw [hset, List.append_assoc]
  exact LawfulIndex.entries_removeAny_of_append h hindex

end Lead

end PackedMemory
