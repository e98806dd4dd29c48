import Mathlib.Order.Basic

/-! # Growable buffers

The length and the capacity of a growable array, and what its `reserve` operation promises: room for
the requested number of further elements, and no change when that room is already there. How much
more an implementation allocates is left open; a `Growth` is any choice that keeps the promise. -/

/-- A choice of the capacity after `reserve`. -/
structure Growth where
  /-- The new capacity, from the length, the old capacity and the room asked for. -/
  reserve : (len cap additional : Nat) → Nat
  enough : ∀ len cap additional, len + additional ≤ reserve len cap additional
  idle : ∀ len cap additional, len + additional ≤ cap → reserve len cap additional = cap

namespace Growth

/-- Allocates exactly what is asked for. -/
def exact : Growth where
  reserve := fun len cap additional => if len + additional ≤ cap then cap else len + additional
  enough := by
    intro len cap additional
    split <;> omega
  idle := by
    intro len cap additional h
    exact if_pos h

end Growth
