import PackedMemory.Shares
import PackedMemory.Storage.Basic

/-!
# Draining and filling windows

A window is emptied into a list of its entries, and an empty window is filled
with a list: every segment gets an equal share, spread evenly over its slots.
-/

namespace PackedMemory

namespace Storage

/-- The end of a window, as far as a machine word can tell. -/
def windowEnd (window : Window) : Nat :=
  min (window.start + window.length) (wordLimit - 1)

def checkWindow (storage : Storage) (window : Window) : Except Fault Unit :=
  if 0 < window.length ∧
      window.start + window.length ≤ storage.segmentCount then
    .ok ()
  else
    .error (storage.outOfRange (windowEnd window))

def segmentsOf (storage : Storage) (window : Window) : List Segment :=
  (storage.segments.extract window.start (window.start + window.length)).toList

def replace (storage : Storage) (start : Nat) (segments : List Segment)
    (counts : List Nat) : Storage :=
  { storage with
    segments := overwrite storage.segments start segments
    counts := storage.counts.record start counts }

def drain (storage : Storage) (window : Window) :
    Except Fault (List Entry) × Storage :=
  match storage.checkWindow window with
  | .error fault => (.error fault, storage)
  | .ok () =>
      (.ok ((storage.segmentsOf window).flatMap Segment.entries),
        storage.replace window.start
          (List.replicate window.length (Segment.blank storage.segmentCapacity))
          (List.replicate window.length 0))

def firstKeys : Nat → List (List Entry) → List Leader
  | _, [] => []
  | segment, [] :: rest => firstKeys (segment + 1) rest
  | segment, (entry :: _) :: rest =>
      (entry.key, segment) :: firstKeys (segment + 1) rest

/--
Writes entries into an empty window, and gives the first key written to each
segment that got any.
-/
def fill (storage : Storage) (window : Window) (entries : List Entry) :
    Except Fault (List Leader) × Storage :=
  let slots := window.length * storage.segmentCapacity
  match storage.checkWindow window with
  | .error fault => (.error fault, storage)
  | .ok () =>
      if slots < entries.length then
        (.error (.corrupted (.overfilling entries.length window.length
          storage.segmentCapacity)), storage)
      else if storage.counts.elements window.start window.length ≠ 0 then
        (.error (.misuse (.windowOccupied window.start window.length)), storage)
      else
        let parts := shares entries.length window.length
        let dealt := deal parts entries
        (.ok (firstKeys window.start dealt),
          storage.replace window.start
            (dealt.map (Segment.layOut storage.segmentCapacity)) parts)

def clear (storage : Storage) : Storage :=
  { storage with
    segments := storage.segments.map fun segment =>
      Segment.blank segment.length
    counts := storage.counts.clear }

@[simp] theorem segmentCount_replace (storage : Storage) (start : Nat)
    (segments : List Segment) (counts : List Nat) :
    (storage.replace start segments counts).segmentCount =
      storage.segmentCount := by
  simp [replace, segmentCount]

theorem segmentCount_drain (storage : Storage) (window : Window) :
    (storage.drain window).2.segmentCount = storage.segmentCount := by
  unfold drain
  split <;> simp

theorem segmentCount_fill (storage : Storage) (window : Window)
    (entries : List Entry) :
    (storage.fill window entries).2.segmentCount = storage.segmentCount := by
  simp only [fill]
  split
  · rfl
  · split
    · rfl
    · split <;> simp

theorem segmentCount_clear (storage : Storage) :
    storage.clear.segmentCount = storage.segmentCount := by
  simp [clear, segmentCount]

@[simp] theorem entries_clear (storage : Storage) :
    storage.clear.entries = [] := by
  simp [clear, entries]

end Storage

end PackedMemory
