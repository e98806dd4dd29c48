import Fioxa.Fs.Disk

/-! # The firmware's table of interrupt controllers

`Madt::get_lapid_ids` and `Madt::find_ioapic` (`ioapic.rs`) walk the table by the length byte of
each entry. `rest` is what is left of it: its first byte is the one at `start_ptr`, and its length
is `length_left`. -/

namespace Fioxa.Madt

open List
open Fs (le16 le32)

structure IOApic where
  apicId : UInt8
  apicAddr : Nat
  interruptBase : Nat

structure ApicInterruptOveride where
  busSource : UInt8
  irqSource : UInt8
  interruptNum : Nat
  flags : Nat

/-- What `find_ioapic` returns. -/
structure Found where
  lapicAddr : Nat
  lapicIds : List UInt8
  ioApics : List IOApic
  apicOveride : List ApicInterruptOveride

/-- The loop of both functions. `arm` is the `match` on the type of an entry, and `reads` the number
    of bytes that are read from the start of the entry on. `none` is a read behind the table, an
    underflow of `length_left` or a walk that goes on. -/
def walk {R : Type} (reads : UInt8 → Nat) (arm : List UInt8 → R → R) :
    Nat → List UInt8 → R → Option R
  | 0, _, _ => none
  | fuel + 1, rest, r =>
    if rest = [] then some r
    else if rest.length < reads (rest.getD 0 0) ∨ rest.length < (rest.getD 1 0).toNat then none
    else walk reads arm fuel (rest.drop (rest.getD 1 0).toNat) (arm rest r)

/-- The id of an entry of type 0 that is enabled. -/
def lapicId (rest : List UInt8) : Option UInt8 :=
  if rest.getD 0 0 = 0 ∧ rest.getD 4 0 &&& 1 > 0 ∧ rest.getD 3 0 ≤ 8 then some (rest.getD 3 0)
  else none

def lapicReads (entry : UInt8) : Nat := if entry = 0 then 5 else 2

def getLapidIds : Nat → List UInt8 → List UInt8 → Option (List UInt8) :=
  walk lapicReads fun rest ids => ids ++ (lapicId rest).toList

def ioapicArm (rest : List UInt8) (found : Found) : Found :=
  match rest.getD 0 0 with
  | 0 => { found with lapicIds := found.lapicIds ++ (lapicId rest).toList }
  | 1 => { found with ioApics := found.ioApics ++ [⟨rest.getD 2 0, le32 rest 4, le32 rest 8⟩] }
  | 2 => { found with apicOveride := found.apicOveride ++
      [⟨rest.getD 2 0, rest.getD 3 0, le32 rest 4, le16 rest 8⟩] }
  | 5 => { found with lapicAddr := le32 rest 4 + 0x100000000 * le32 rest 8 }
  | _ => found

def ioapicReads (entry : UInt8) : Nat :=
  if entry = 1 ∨ entry = 5 then 12 else if entry = 2 then 10 else lapicReads entry

def findIoapic : Nat → List UInt8 → Found → Option Found := walk ioapicReads ioapicArm

/-- Both walks come to an end in the table, with the same local APICs. -/
def Walked (localApicAddress : Nat) (table ids : List UInt8) : Prop :=
  ∃ fuel found, getLapidIds fuel table [] = some ids ∧
    findIoapic fuel table ⟨localApicAddress, [], [], []⟩ = some found ∧ found.lapicIds = ids

/-- The table is made of entries one after the other: the length of none is zero, the last one ends
    with the table, and the fields of each are in it. The list is what is left of the table from the
    start of each entry on. -/
inductive Entries (reads : UInt8 → Nat) : List UInt8 → List (List UInt8) → Prop where
  | nil : Entries reads [] []
  | cons {rest starts} (hpos : 0 < rest.getD 1 0) (hlen : (rest.getD 1 0).toNat ≤ rest.length)
      (hfields : reads (rest.getD 0 0) ≤ rest.length)
      (h : Entries reads (rest.drop (rest.getD 1 0).toNat) starts) :
      Entries reads rest (rest :: starts)

variable {R : Type} {reads : UInt8 → Nat} {arm : List UInt8 → R → R} {r r' : R} {fuel : Nat}
  {rest ids : List UInt8} {starts : List (List UInt8)}

theorem entries_of_walk (h : walk reads arm fuel rest r = some r') :
    ∃ starts, Entries reads rest starts ∧ starts.foldl (fun r s => arm s r) r = r' := by
  induction fuel generalizing rest r with
  | zero => cases h
  | succ fuel ih =>
    rw [walk] at h
    split at h
    · next hnil =>
      cases h
      exact ⟨[], hnil ▸ .nil, rfl⟩
    · next hne =>
      split at h
      · cases h
      · obtain ⟨starts, hentries, hfold⟩ := ih h
        refine ⟨rest :: starts, .cons (UInt8.pos_iff_ne_zero.2 fun hzero => ?_) (by omega)
          (by omega) hentries, hfold⟩
        -- an entry of length zero is followed by itself, and the walk does not end
        rw [hzero] at hentries
        cases hentries with
        | nil => exact hne rfl
        | cons hpos => exact absurd hzero (UInt8.pos_iff_ne_zero.1 hpos)

theorem Entries.walk (h : Entries reads rest starts) : walk reads arm (starts.length + 1) rest r
    = some (starts.foldl (fun r s => arm s r) r) := by
  induction h generalizing r with
  | nil => rfl
  | @cons rest _ hpos hlen hfields _ ih =>
    have hne : rest ≠ [] := by rintro rfl; exact absurd hpos (by decide)
    rw [length_cons, Madt.walk, if_neg hne, if_neg (by omega), ih]
    rfl

theorem Entries.lapic (h : Entries ioapicReads rest starts) : Entries lapicReads rest starts := by
  induction h with
  | nil => exact .nil
  | cons hpos hlen hfields _ ih =>
    refine .cons hpos hlen (Nat.le_trans ?_ hfields) ih
    unfold ioapicReads lapicReads
    split_ifs <;> omega

theorem foldl_lapicId : starts.foldl (fun ids s => ids ++ (lapicId s).toList) ids
    = ids ++ starts.filterMap lapicId := by
  induction starts generalizing ids with
  | nil => simp
  | cons s starts ih => cases h : lapicId s <;> simp [ih, h]

theorem lapicIds_foldl {found : Found} :
    (starts.foldl (fun found s => ioapicArm s found) found).lapicIds
      = found.lapicIds ++ starts.filterMap lapicId := by
  induction starts generalizing found with
  | nil => simp
  | cons s starts ih =>
    have hids : (ioapicArm s found).lapicIds = found.lapicIds ++ (lapicId s).toList := by
      unfold ioapicArm lapicId
      split <;> simp_all
    rw [foldl_cons, ih, hids]
    cases h : lapicId s <;> simp [h]

end Fioxa.Madt
