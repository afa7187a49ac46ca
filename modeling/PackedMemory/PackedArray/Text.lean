import PackedMemory.PackedArray.Basic

/-!
# Texts of an array

The layout shows every slot, with a bar before each segment and one at the end;
the listing shows the entries alone.
-/

namespace PackedMemory

namespace Storage

def layoutText (storage : Storage) : String :=
  let shown := storage.segments.foldl (fun text segment =>
    segment.foldl (fun text slot => text ++ slot.text ++ " ") (text ++ "| ")) ""
  shown ++ "|"

def listingText (storage : Storage) : String :=
  let pairs := storage.entries.map fun entry =>
    toString entry.key ++ ": " ++ toString entry.value
  "\x7b" ++ ", ".intercalate pairs ++ "\x7d"

end Storage

namespace PackedArray

variable {ρ ι : Type}

def report (array : PackedArray ρ ι) : Event :=
  let storage := array.storage
  .layout storage.layoutText storage.capacity storage.segmentCapacity
    storage.total storage.height

end PackedArray

end PackedMemory
