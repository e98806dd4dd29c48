import Mathlib.Data.List.Nodup

/-! # Enumerating PCI

`enumerate_pci` (`pci/mod.rs`) goes through the entries of the firmware's table and the buses of
each. For every function on them `ExpressPCI::get_address` (`pci/express.rs`) searches the entries
again. The loop leaves out the last bus of an entry, and the search ends at the first entry of the
segment, whatever buses that one is for. -/

namespace Fioxa.Pci

open List

/-- The buses of a segment from `busNumberStart` to `busNumberEnd`, both included. -/
structure MCFGEntry where
  baseAddress : Nat
  pciSegmentGroup : Nat
  busNumberStart : Nat
  busNumberEnd : Nat
  busNumberEnd_lt : busNumberEnd < 0x100

namespace MCFGEntry

variable (entry : MCFGEntry)

def Declares (bus : Nat) : Prop := entry.busNumberStart ≤ bus ∧ bus ≤ entry.busNumberEnd

/-- The calls of `enumerate_bus` for this entry: a segment and a bus each. -/
def enumerate : List (Nat × Nat) :=
  (range' entry.busNumberStart (entry.busNumberEnd - entry.busNumberStart)).map fun busNumber =>
    (entry.pciSegmentGroup, busNumber)

end MCFGEntry

variable (entries : List MCFGEntry)

def enumeratePci : List (Nat × Nat) := entries.flatMap MCFGEntry.enumerate

/-- Where the configuration space of a function is from the base address of its segment. -/
def configOffset (bus device function : Nat) : Nat :=
  bus <<< 20 ||| device <<< 15 ||| function <<< 12

/-- `none` is the overflow of the sum of two `u64`. -/
def getAddress (segment bus device function : Nat) : Option (Option Nat) :=
  match entries.find? (·.pciSegmentGroup = segment) with
  | none => some none
  | some entry =>
    let address := entry.baseAddress + configOffset bus device function
    if address < 0x10000000000000000 then some (some address) else none

/-- No bus of a segment is in two entries. -/
def DisjointBuses : Prop :=
  entries.Pairwise fun e f => e.pciSegmentGroup = f.pciSegmentGroup →
    ∀ bus, e.Declares bus → ¬ f.Declares bus

/-- The bus is enumerated once, and its functions are looked for where its own entry says. -/
def Enumerated (entry : MCFGEntry) (bus : Nat) : Prop :=
  (enumeratePci entries).count (entry.pciSegmentGroup, bus) = 1 ∧
    ∀ device < 32, ∀ function < 8, getAddress entries entry.pciSegmentGroup bus device function
      = some (some (entry.baseAddress + configOffset bus device function))

variable {entries} {entry : MCFGEntry} {segment bus : Nat}

theorem mem_enumerate : (segment, bus) ∈ entry.enumerate ↔
    entry.pciSegmentGroup = segment ∧ entry.busNumberStart ≤ bus ∧ bus < entry.busNumberEnd := by
  simp only [MCFGEntry.enumerate, mem_map, mem_range'_1, Prod.mk.injEq]
  constructor
  · rintro ⟨_, hbus, rfl, rfl⟩
    exact ⟨rfl, by omega⟩
  · rintro ⟨rfl, hbus⟩
    exact ⟨bus, by omega, rfl, rfl⟩

theorem count_enumerate (h : entry.Declares bus) :
    entry.enumerate.count (entry.pciSegmentGroup, bus)
      = if bus < entry.busNumberEnd then 1 else 0 := by
  have hnodup : entry.enumerate.Nodup :=
    .map (fun _ _ heq => (Prod.mk.inj heq).2) (nodup_range' 1)
  split
  · next hlt => exact count_eq_one_of_mem hnodup (mem_enumerate.2 ⟨rfl, h.1, hlt⟩)
  · next hlt => exact count_eq_zero.2 fun hmem => hlt (mem_enumerate.1 hmem).2.2

/-- Entries that do not declare the bus do not enumerate it. -/
theorem count_enumeratePci (hd : DisjointBuses entries) (he : entry ∈ entries)
    (h : entry.Declares bus) : (enumeratePci entries).count (entry.pciSegmentGroup, bus)
      = if bus < entry.busNumberEnd then 1 else 0 := by
  induction entries with
  | nil => cases he
  | cons e es ih =>
    obtain ⟨hhead, htail⟩ := pairwise_cons.1 hd
    rw [enumeratePci, flatMap_cons, count_append]
    rcases mem_cons.1 he with rfl | he
    · rw [count_enumerate h, count_eq_zero.2, Nat.add_zero]
      intro hmem
      obtain ⟨f, hf, hmem⟩ := mem_flatMap.1 hmem
      obtain ⟨hsegment, hstart, hend⟩ := mem_enumerate.1 hmem
      exact hhead f hf hsegment.symm bus h ⟨hstart, Nat.le_of_lt hend⟩
    · rw [count_eq_zero.2, Nat.zero_add]
      · exact ih htail he
      · intro hmem
        obtain ⟨hsegment, hstart, hend⟩ := mem_enumerate.1 hmem
        exact hhead entry he hsegment bus ⟨hstart, Nat.le_of_lt hend⟩ h

theorem configOffset_lt {device function : Nat} (hbus : bus < 0x100) (hdevice : device < 32)
    (hfunction : function < 8) : configOffset bus device function < 0x10000000 := by
  refine Nat.or_lt_two_pow (n := 28) (Nat.or_lt_two_pow ?_ ?_) ?_ <;>
  · omega

/-- A segment whose buses are in two entries with one base address. -/
def segments : List MCFGEntry :=
  [⟨0xB0000000, 0, 0, 127, by decide⟩, ⟨0xB0000000, 0, 128, 255, by decide⟩,
    ⟨0xE0000000, 1, 0, 255, by decide⟩]

end Fioxa.Pci
