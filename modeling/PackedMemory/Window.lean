import PackedMemory.Fault

/-!
# Windows

A window is a run of consecutive segments.  The windows of the tree over the
segments are aligned: at level `l` they have `2 ^ (l - 1)` segments and start at
a multiple of that length.
-/

namespace PackedMemory

structure Window where
  start : Nat
  length : Nat
deriving DecidableEq, Repr

namespace Window

def lengthAt (level : Nat) : Nat := Nat.pow 2 (level - 1)

def around (segment level : Nat) : Window :=
  ⟨segment - segment % lengthAt level, lengthAt level⟩

/-- Segments are numbered in 64 bits, so no window is higher than 64 levels. -/
def maximalLevel : Nat := 64

def atLevel (segment level : Nat) : Except Fault Window :=
  if 1 ≤ level ∧ level ≤ maximalLevel then
    .ok (around segment level)
  else
    .error (.misuse (.levelOutside level maximalLevel))

def segments (window : Window) : List Nat :=
  List.range' window.start window.length

theorem around_start (segment level : Nat) :
    (around segment level).start =
      segment / lengthAt level * lengthAt level := by
  have h := Nat.div_add_mod segment (lengthAt level)
  rw [Nat.mul_comm] at h
  simp only [around]
  omega

end Window

end PackedMemory
