import Mathlib
import PackedMemory.Slot

/-!
# Ascending lists

Lists of items in strictly ascending order of their keys, how one item goes into
such a list or out of it, and how many keys a finite map has that it lists.
-/

namespace PackedMemory

variable {α : Type} {key : α → Key}

def Ascending (key : α → Key) (items : List α) : Prop :=
  items.Pairwise fun first second => key first < key second

/-- An ascending list is determined by its members. -/
theorem Ascending.eq_of_mem_iff {first second : List α}
    (hfirst : Ascending key first) (hsecond : Ascending key second)
    (h : ∀ item, item ∈ first ↔ item ∈ second) : first = second := by
  have hirrefl : Std.Irrefl fun left right => key left < key right :=
    ⟨fun _ => Int64.lt_irrefl⟩
  have hantisymm : Std.Antisymm fun left right => key left < key right :=
    ⟨fun _ _ hleft hright =>
      absurd (Int64.lt_trans hleft hright) Int64.lt_irrefl⟩
  exact List.Pairwise.eq_of_mem_iff hfirst hsecond h

theorem Ascending.eq_of_key_eq {items : List α} (h : Ascending key items)
    {first second : α} (hfirst : first ∈ items) (hsecond : second ∈ items)
    (hkey : key first = key second) : first = second := by
  induction items with
  | nil => simp at hfirst
  | cons item rest ih =>
      obtain ⟨hhead, hrest⟩ := List.pairwise_cons.mp h
      rcases List.mem_cons.mp hfirst with hleft | hleft
      · rcases List.mem_cons.mp hsecond with hright | hright
        · rw [hleft, hright]
        · have hlt := hhead second hright
          rw [← hleft, hkey] at hlt
          exact absurd hlt Int64.lt_irrefl
      · rcases List.mem_cons.mp hsecond with hright | hright
        · have hlt := hhead first hleft
          rw [← hright, hkey] at hlt
          exact absurd hlt Int64.lt_irrefl
        · exact ih hrest hleft hright

theorem ascending_append_cons_iff (left : List α) (item : α)
    (right : List α) :
    Ascending key (left ++ item :: right) ↔
      Ascending key left ∧ Ascending key right ∧
        (∀ other ∈ left, key other < key item) ∧
          ∀ other ∈ right, key item < key other := by
  rw [Ascending, List.pairwise_append, List.pairwise_cons]
  constructor
  · rintro ⟨hleft, ⟨hhead, hright⟩, hcross⟩
    exact ⟨hleft, hright,
      fun other hother => hcross other hother item List.mem_cons_self, hhead⟩
  · rintro ⟨hleft, hright, hbelow, habove⟩
    refine ⟨hleft, ⟨habove, hright⟩, ?_⟩
    intro first hfirst second hsecond
    rcases List.mem_cons.mp hsecond with rfl | hsecond
    · exact hbelow first hfirst
    · exact Int64.lt_trans (hbelow first hfirst) (habove second hsecond)

theorem ascending_append_append_iff (left middle right : List α) :
    Ascending key (left ++ middle ++ right) ↔
      Ascending key left ∧ Ascending key middle ∧ Ascending key right ∧
        (∀ first ∈ left, ∀ second ∈ middle, key first < key second) ∧
          (∀ first ∈ left, ∀ second ∈ right, key first < key second) ∧
            ∀ first ∈ middle, ∀ second ∈ right, key first < key second := by
  simp only [Ascending, List.pairwise_append, List.mem_append]
  constructor
  · rintro ⟨⟨hleft, hmiddle, hcross⟩, hright, houter⟩
    exact ⟨hleft, hmiddle, hright, hcross,
      fun first hfirst => houter first (.inl hfirst),
      fun first hfirst => houter first (.inr hfirst)⟩
  · rintro ⟨hleft, hmiddle, hright, hcross, houter, hinner⟩
    refine ⟨⟨hleft, hmiddle, hcross⟩, hright, ?_⟩
    rintro first (hfirst | hfirst)
    · exact houter first hfirst
    · exact hinner first hfirst

theorem Ascending.lt_forall_cons_iff {first : α} {rest : List α}
    (h : Ascending key (first :: rest)) (bound : Key) :
    (∀ item ∈ first :: rest, bound < key item) ↔ bound < key first := by
  rw [List.forall_mem_cons]
  refine ⟨And.left, fun hfirst => ⟨hfirst, fun item hitem => ?_⟩⟩
  exact Int64.lt_trans hfirst ((List.pairwise_cons.mp h).1 item hitem)

theorem Ascending.forall_lt_concat_iff {init : List α} {last : α}
    (h : Ascending key (init ++ [last])) (bound : Key) :
    (∀ item ∈ init ++ [last], key item < bound) ↔ key last < bound := by
  have hinit := (List.pairwise_append.mp h).2.2
  constructor
  · intro hall
    exact hall last (List.mem_append_right init List.mem_cons_self)
  · intro hlast item hitem
    rcases List.mem_append.mp hitem with hitem | hitem
    · exact Int64.lt_trans (hinit item hitem last List.mem_cons_self) hlast
    · rw [List.mem_singleton.mp hitem]
      exact hlast

theorem Ascending.key_notMem_middle {left middle right : List α}
    (h : Ascending key (left ++ middle ++ right)) {item : α}
    (hitem : item ∈ left ∨ item ∈ right) : key item ∉ middle.map key := by
  obtain ⟨-, -, -, hleft, -, hright⟩ :=
    (ascending_append_append_iff _ _ _).mp h
  intro hmem
  obtain ⟨other, hother, hkey⟩ := List.mem_map.mp hmem
  rcases hitem with hitem | hitem
  · exact Int64.ne_of_lt (hleft item hitem other hother) hkey.symm
  · exact Int64.ne_of_lt (hright other hother item hitem) hkey

/-! ## One item more -/

/-- `new` is `old` with one more item somewhere. -/
def Inserts (item : α) (old new : List α) : Prop :=
  ∃ before after, old = before ++ after ∧ new = before ++ item :: after

namespace Inserts

variable {item : α} {old new : List α}

theorem append (h : Inserts item old new) (left right : List α) :
    Inserts item (left ++ old ++ right) (left ++ new ++ right) := by
  obtain ⟨before, after, rfl, rfl⟩ := h
  exact ⟨left ++ before, after ++ right, by simp, by simp⟩

theorem length_eq (h : Inserts item old new) :
    new.length = old.length + 1 := by
  obtain ⟨before, after, rfl, rfl⟩ := h
  simp only [List.length_append, List.length_cons]
  omega

theorem mem_iff (h : Inserts item old new) (other : α) :
    other ∈ new ↔ other = item ∨ other ∈ old := by
  obtain ⟨before, after, rfl, rfl⟩ := h
  simp only [List.mem_append, List.mem_cons]
  tauto

theorem ascending (h : Inserts item old new) (hnew : Ascending key new) :
    Ascending key old := by
  obtain ⟨before, after, rfl, rfl⟩ := h
  exact hnew.sublist ((List.sublist_cons_self item after).append_left before)

theorem key_ne (h : Inserts item old new) (hnew : Ascending key new)
    {other : α} (hother : other ∈ old) : key other ≠ key item := by
  obtain ⟨before, after, rfl, rfl⟩ := h
  obtain ⟨-, -, hbelow, habove⟩ := (ascending_append_cons_iff _ _ _).mp hnew
  intro hkey
  rcases List.mem_append.mp hother with hother | hother
  · have hlt := hbelow other hother
    rw [hkey] at hlt
    exact Int64.lt_irrefl hlt
  · have hlt := habove other hother
    rw [hkey] at hlt
    exact Int64.lt_irrefl hlt

theorem unique {other : List α} (h : Inserts item old new)
    (hother : Inserts item other new) (hnew : Ascending key new) :
    old = other := by
  apply (h.ascending hnew).eq_of_mem_iff (hother.ascending hnew)
  intro candidate
  constructor
  · intro hmem
    have hnewmem := (h.mem_iff candidate).mpr (.inr hmem)
    rcases (hother.mem_iff candidate).mp hnewmem with rfl | hmem'
    · exact absurd rfl (h.key_ne hnew hmem)
    · exact hmem'
  · intro hmem
    have hnewmem := (hother.mem_iff candidate).mpr (.inr hmem)
    rcases (h.mem_iff candidate).mp hnewmem with rfl | hmem'
    · exact absurd rfl (hother.key_ne hnew hmem)
    · exact hmem'

end Inserts

section Maps

variable {β : Type} {map : Finmap fun _ : Key => β}

theorem card_keys_eq_zero_iff : map.keys.card = 0 ↔ map = ∅ := by
  rw [Finset.card_eq_zero]
  constructor
  · intro hkeys
    apply Finmap.ext_lookup
    intro other
    rw [Finmap.lookup_empty, Finmap.lookup_eq_none, ← Finmap.mem_keys, hkeys]
    exact Finset.notMem_empty other
  · rintro rfl
    exact Finmap.keys_empty

theorem Ascending.card_keys_eq {items : List α} (h : Ascending key items)
    (hmem : ∀ other, other ∈ map ↔ other ∈ items.map key) :
    map.keys.card = items.length := by
  have hnodup : (items.map key).Nodup :=
    List.pairwise_map.mpr (h.imp Int64.ne_of_lt)
  have hkeys : map.keys = (items.map key).toFinset := by
    ext other
    rw [Finmap.mem_keys, List.mem_toFinset, hmem]
  rw [hkeys, List.toFinset_card_of_nodup hnodup, List.length_map]

end Maps

end PackedMemory
