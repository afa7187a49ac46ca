import PackedMemory.PackedArray.Basic

/-!
# Checking an array

Whether counters, order of keys and index agree with the slots.
-/

namespace PackedMemory

def isIncreasing : List Key → Bool
  | first :: second :: rest =>
      decide (first < second) && isIncreasing (second :: rest)
  | _ => true

theorem isIncreasing_iff (keys : List Key) :
    isIncreasing keys = true ↔ keys.Pairwise (· < ·) := by
  induction keys with
  | nil => simp [isIncreasing]
  | cons first rest ih =>
      cases rest with
      | nil => simp [isIncreasing]
      | cons second rest =>
          rw [isIncreasing, Bool.and_eq_true, ih, decide_eq_true_iff]
          constructor
          · rintro ⟨hfirst, hrest⟩
            refine List.pairwise_cons.mpr ⟨?_, hrest⟩
            intro key hkey
            rcases List.mem_cons.mp hkey with rfl | hkey
            · exact hfirst
            · have hsecond := (List.pairwise_cons.mp hrest).1 key hkey
              grind
          · intro hkeys
            obtain ⟨hfirst, hrest⟩ := List.pairwise_cons.mp hkeys
            exact ⟨hfirst second List.mem_cons_self, hrest⟩

namespace Storage

def miscount? (storage : Storage) : Option Corruption :=
  storage.segments.toList.zipIdx.findSome? fun (segment, number) =>
    let counted := storage.counts.leaf number
    let held := segment.entries.length
    if held = counted then none else some (.wrongCount number counted held)

def isSorted (storage : Storage) : Bool :=
  isIncreasing (storage.entries.map Entry.key)

end Storage

namespace PackedArray

variable {ρ ι : Type} [Quantity ρ] [OrderIndex ι]

def validate (array : PackedArray ρ ι) : Except Fault Unit := do
  let storage := array.storage
  if storage.capacity < storage.total then
    .error (.corrupted (.excess storage.total storage.capacity))
  else
    match storage.miscount? with
    | some corruption => .error (.corrupted corruption)
    | none =>
        let held := storage.entries.length
        if held ≠ storage.total then
          .error (.corrupted (.wrongTotal held storage.total))
        else if !storage.isSorted then
          .error (.corrupted .unsorted)
        else
          let expected ← storage.leaders (List.range storage.segmentCount)
          let actual := OrderIndex.entries array.index
          if actual = expected then
            .ok ()
          else
            .error (.corrupted (.wrongIndex actual expected))

end PackedArray

end PackedMemory
