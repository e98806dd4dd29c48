import Mathlib.Tactic.Common
import Mathlib.Data.List.Flatten

/-! # Reading from a disk of AHCI

What `Port::read` (`driver/disk/ahci/port.rs`) leaves in the slot for the disk: the list of the
pieces of memory that the bytes go to, and the command. The buffer is cut at the boundaries of its
pages. In the command the sector number is cut into two words of 32 bits, of which three bytes each
are taken, while an address of 48 bits has four bytes of the lower word and two of the upper one. -/

namespace Fioxa.Ahci

open List

/-! ## The scatter list -/

/-- `PRDT_LENGTH` -/
def prdtLength : Nat := 8

/-- `byteCount` is one less than the number of bytes. -/
structure HBAPRDTEntry where
  dataBaseAddress : Nat
  byteCount : Nat

namespace HBAPRDTEntry

def bytes (e : HBAPRDTEntry) : List Nat := range' e.dataBaseAddress (e.byteCount + 1)

def InOnePage (e : HBAPRDTEntry) : Prop :=
  e.dataBaseAddress / 0x1000 = (e.dataBaseAddress + e.byteCount) / 0x1000

end HBAPRDTEntry

section

-- `address_of` of the page at an address
variable (addressOf : Nat → Option Nat)

/-- The entry behind those that have been set. `none` is the `unwrap` of a page that is not mapped,
    or an index out of range. The sum does not overflow, since `left` is an offset in a page. -/
def setEntry (prdt : List HBAPRDTEntry) (ptrAddr left byteCount : Nat) :
    Option (List HBAPRDTEntry) := do
  let physAddr ← addressOf ptrAddr
  if prdt.length < prdtLength then some (prdt ++ [⟨physAddr + left, byteCount⟩]) else none

/-- `none` is the overflow of the sum. -/
def nextPage (ptrAddr : Nat) : Option Nat :=
  if ptrAddr + 0x1000 < 0x10000000000000000 then some (ptrAddr + 0x1000) else none

def setFirstPage (buffer bytesToRead : Nat) : Option (List HBAPRDTEntry × Nat × Nat) :=
  let leftAlignSize := buffer % 0x1000
  if 0 < leftAlignSize then do
    let ptrAddr := buffer - leftAlignSize
    let prdt ← setEntry addressOf [] ptrAddr leftAlignSize (0xFFF - leftAlignSize)
    let ptrAddr ← nextPage ptrAddr
    some (prdt, ptrAddr, bytesToRead - (0x1000 - leftAlignSize))
  else some ([], buffer, bytesToRead)

def setFullPages (prdt : List HBAPRDTEntry) (ptrAddr bytesToRead : Nat) :
    Option (List HBAPRDTEntry × Nat × Nat) :=
  if h : 0x1000 < bytesToRead then do
    let prdt ← setEntry addressOf prdt ptrAddr 0 0xFFF
    let ptrAddr ← nextPage ptrAddr
    setFullPages prdt ptrAddr (bytesToRead - 0x1000)
  else some (prdt, ptrAddr, bytesToRead)
termination_by bytesToRead
decreasing_by exact Nat.sub_lt (Nat.zero_lt_of_lt h) (by decide)

/-- The entries that `Port::read` sets for a buffer of `len` bytes. `none` is also its `todo!` or
    its assertion. -/
def readPrdt (buffer len sectorCount : Nat) : Option (List HBAPRDTEntry) := do
  if (prdtLength - 1) * 8 < sectorCount ∨ len < sectorCount * 512 then none
  else
    let (prdt, ptrAddr, bytesToRead) ← setFirstPage addressOf buffer (512 * sectorCount)
    let (prdt, ptrAddr, bytesToRead) ← setFullPages addressOf prdt ptrAddr bytesToRead
    if 0 < bytesToRead then setEntry addressOf prdt ptrAddr 0 (bytesToRead - 1) else some prdt

/-- Where the byte at an address is in memory. -/
def physOf (address : Nat) : Nat :=
  (addressOf (address - address % 0x1000)).getD 0 + address % 0x1000

/-- The page of an address is mapped to a page. -/
def Mapped (address : Nat) : Prop :=
  ∃ physAddr, addressOf (address - address % 0x1000) = some physAddr ∧ physAddr % 0x1000 = 0

/-- The entries are the bytes from `buffer` up to `stop`, cut at the boundaries of pages. -/
structure Covers (buffer stop : Nat) (prdt : List HBAPRDTEntry) : Prop where
  bytes : prdt.flatMap HBAPRDTEntry.bytes = (range' buffer (stop - buffer)).map (physOf addressOf)
  pages : ∀ e ∈ prdt, e.InOnePage
  length_le : prdt.length ≤ (stop + 0xFFF) / 0x1000 - buffer / 0x1000

end

variable {addressOf : Nat → Option Nat} {prdt : List HBAPRDTEntry} {buffer stop address n : Nat}

/-- The bytes of a piece of a page follow each other in memory. -/
theorem map_physOf (hpage : address % 0x1000 + n ≤ 0x1000) :
    (range' address n).map (physOf addressOf) = range' (physOf addressOf address) n := by
  rw [range'_eq_map_range, range'_eq_map_range, map_map]
  refine map_congr_left fun i hi => ?_
  have hi := mem_range.1 hi
  have hmod : (address + i) % 0x1000 = address % 0x1000 + i := by omega
  have hsub : address + i - (address % 0x1000 + i) = address - address % 0x1000 := by omega
  simp only [Function.comp, physOf, hmod, hsub]
  omega

/-- The entry for the next piece, which is behind the boundary of a page or the first one. -/
theorem Covers.setEntry (h : Covers addressOf buffer address prdt) (hle : buffer ≤ address)
    (hstart : prdt.length ≤ address / 0x1000 - buffer / 0x1000) (hmapped : Mapped addressOf address)
    (hpos : 0 < n) (hpage : address % 0x1000 + n ≤ 0x1000) (hroom : address < buffer + 0x7000) :
    ∃ prdt', setEntry addressOf prdt (address - address % 0x1000) (address % 0x1000) (n - 1)
      = some prdt' ∧ Covers addressOf buffer (address + n) prdt' := by
  obtain ⟨physAddr, haddr, haligned⟩ := hmapped
  have hphys : physOf addressOf address = physAddr + address % 0x1000 := by
    rw [physOf, haddr, Option.getD_some]
  have hlen : prdt.length < prdtLength := by
    unfold prdtLength
    omega
  rw [Ahci.setEntry, haddr, Option.bind_eq_bind, Option.bind_some, if_pos hlen]
  refine ⟨_, rfl, ?_, ?_, ?_⟩
  · have hsplit : range' buffer (address + n - buffer)
        = range' buffer (address - buffer) ++ range' address n := by
      have happend := range'_append_1 (s := buffer) (m := address - buffer) (n := n)
      rw [Nat.add_sub_cancel' hle] at happend
      rw [happend, Nat.sub_add_comm hle]
    rw [flatMap_append, h.bytes, hsplit, map_append, map_physOf hpage, hphys, flatMap_singleton,
      HBAPRDTEntry.bytes, Nat.sub_add_cancel hpos]
  · intro e he
    rcases mem_append.1 he with he | he
    · exact h.pages e he
    · rw [mem_singleton.1 he]
      unfold HBAPRDTEntry.InOnePage
      dsimp only
      omega
  · rw [length_append, length_singleton]
    omega

theorem setFirstPage_covers (hmapped : Mapped addressOf buffer)
    (hspace : buffer % 0x1000 = 0 ∨ buffer < 0x10000000000000000 - 0x1000) : ∃ prdt address,
      setFirstPage addressOf buffer n = some (prdt, address, buffer + n - address) ∧
      Covers addressOf buffer address prdt ∧ buffer ≤ address ∧ address ≤ buffer + 0x1000 ∧
      address % 0x1000 = 0 := by
  have hempty : Covers addressOf buffer buffer [] := ⟨by simp, nofun, Nat.zero_le _⟩
  unfold setFirstPage
  dsimp only
  split
  · next hleft =>
    obtain ⟨prdt, hset, h⟩ := hempty.setEntry (n := 0x1000 - buffer % 0x1000) (Nat.le_refl _)
      (Nat.zero_le _) hmapped (by omega) (by omega) (by omega)
    have hnext : nextPage (buffer - buffer % 0x1000)
        = some (buffer + (0x1000 - buffer % 0x1000)) := by
      rw [nextPage, if_pos (by omega), Option.some.injEq]
      omega
    rw [show 0x1000 - buffer % 0x1000 - 1 = 0xFFF - buffer % 0x1000 by omega] at hset
    rw [hset, hnext, Option.bind_eq_bind, Option.bind_some, Option.bind_eq_bind, Option.bind_some]
    exact ⟨prdt, _, by rw [Nat.add_sub_add_left], h, by omega, by omega, by omega⟩
  · exact ⟨[], buffer, by rw [Nat.add_sub_cancel_left], hempty, Nat.le_refl _, by omega, by omega⟩

theorem setFullPages_covers (last : Nat) (h : Covers addressOf buffer address prdt)
    (hle : buffer ≤ address) (haligned : address % 0x1000 = 0)
    (hmapped : ∀ a, address ≤ a → a < last → Mapped addressOf a)
    (hlast : last ≤ buffer + 0x7000) (hspace : last ≤ 0x10000000000000000) :
    ∃ prdt' address', setFullPages addressOf prdt address (last - address)
        = some (prdt', address', last - address') ∧ Covers addressOf buffer address' prdt' ∧
      address ≤ address' ∧ (address' = address ∨ address' < last) ∧ address' % 0x1000 = 0 ∧
      last ≤ address' + 0x1000 := by
  induction hn : last - address using Nat.strongRecOn generalizing prdt address with
  | ind m ih =>
    subst hn
    rw [setFullPages]
    split
    · have hlen := h.length_le
      obtain ⟨prdt₁, hset, h₁⟩ := h.setEntry (n := 0x1000) hle (by omega)
        (hmapped address (Nat.le_refl _) (by omega)) (by decide) (by omega) (by omega)
      rw [haligned, Nat.sub_zero] at hset
      have hnext : nextPage address = some (address + 0x1000) := if_pos (by omega)
      rw [hset, hnext, Option.bind_eq_bind, Option.bind_some, Option.bind_eq_bind, Option.bind_some,
        Nat.sub_sub]
      obtain ⟨prdt₂, address₂, hrest, h₂, hle₂, hlt₂, haligned₂, hlast₂⟩ := ih _ (by omega) h₁
        (by omega) (by omega) (fun a ha hlt => hmapped a (by omega) hlt) rfl
      exact ⟨prdt₂, address₂, hrest, h₂, by omega, by omega, haligned₂, hlast₂⟩
    · exact ⟨prdt, address, rfl, h, Nat.le_refl _, .inl rfl, haligned, by omega⟩

/-- **The list covers the buffer**, unless that starts inside the last page of the address space. Of
    an empty buffer, the page of its address has to be mapped too. -/
theorem readPrdt_covers {addressOf : Nat → Option Nat} {buffer len sectorCount : Nat}
    (hcount : sectorCount ≤ 56) (hlen : 512 * sectorCount ≤ len)
    (hspace : buffer + len ≤ 0x10000000000000000)
    (hlast : buffer % 0x1000 = 0 ∨ buffer < 0x10000000000000000 - 0x1000)
    (hmapped : ∀ a, a = buffer ∨ buffer ≤ a ∧ a < buffer + len → Mapped addressOf a) :
    ∃ prdt, readPrdt addressOf buffer len sectorCount = some prdt ∧ prdt.length ≤ prdtLength ∧
      (∀ e ∈ prdt, e.InOnePage) ∧
      (prdt.flatMap HBAPRDTEntry.bytes).take (512 * sectorCount)
        = (range' buffer (512 * sectorCount)).map (physOf addressOf) := by
  obtain ⟨prdt₀, address₀, hfirst, h₀, hle₀, hnear₀, haligned₀⟩ :=
    setFirstPage_covers (hmapped buffer (.inl rfl)) hlast
  obtain ⟨prdt₁, address₁, hfull, h₁, hle₁, hlt₁, haligned₁, hlast₁⟩ := setFullPages_covers
    (buffer + 512 * sectorCount) h₀ hle₀ haligned₀
    (fun a ha hlt => hmapped a (.inr (by omega))) (by omega) (by omega)
  have hchecks : ¬ ((prdtLength - 1) * 8 < sectorCount ∨ len < sectorCount * 512) := by
    unfold prdtLength
    omega
  rw [readPrdt, if_neg hchecks, hfirst, Option.bind_eq_bind, Option.bind_some]
  dsimp only
  rw [hfull]
  obtain ⟨prdt, stop, hread, h, hstop, hnear⟩ : ∃ prdt stop,
      (if 0 < buffer + 512 * sectorCount - address₁ then
        setEntry addressOf prdt₁ address₁ 0 (buffer + 512 * sectorCount - address₁ - 1)
      else some prdt₁) = some prdt ∧ Covers addressOf buffer stop prdt ∧
      buffer + 512 * sectorCount ≤ stop ∧ stop ≤ buffer + 0x7000 := by
    split
    · next hrest =>
      have hlength := h₁.length_le
      obtain ⟨prdt, hset, h⟩ := h₁.setEntry
        (by omega) (by omega) (hmapped address₁ (.inr (by omega))) hrest (by omega) (by omega)
      rw [haligned₁] at hset
      exact ⟨prdt, _, hset, h, by omega, by omega⟩
    · exact ⟨prdt₁, address₁, rfl, h₁, by omega, by omega⟩
  refine ⟨prdt, hread, ?_, h.pages, ?_⟩
  · have hlength := h.length_le
    unfold prdtLength
    omega
  · rw [h.bytes, ← map_take, take_range'_of_length_ge (by omega)]

/-- A buffer of 18 sectors that starts inside a page, and whose pages are in memory the other way
    round. -/
theorem readPrdt_covers_reversed : ∃ prdt,
    readPrdt (fun page => some (0x1000000 - page)) 0x7E00 0x2400 18 = some prdt ∧
      prdt.length ≤ prdtLength ∧ (∀ e ∈ prdt, e.InOnePage) ∧
      (prdt.flatMap HBAPRDTEntry.bytes).take 0x2400
        = (range' 0x7E00 0x2400).map (physOf fun page => some (0x1000000 - page)) :=
  readPrdt_covers (by decide) (by decide) (by decide) (.inr (by decide))
    fun a _ => ⟨_, rfl, by omega⟩

/-- The page of an empty buffer is looked up, and the address behind the last page is computed. -/
theorem readPrdt_stops : readPrdt (fun _ => none) 1 0 0 = none ∧
    readPrdt (fun page => some (page % 0x10000000)) 0xFFFFFFFFFFFFF200 512 1 = none := by
  decide

/-! ## The command -/

/-- `FisRegH2D` -/
structure FisRegH2D where
  fisType : UInt8
  portMultiplier : Fin 16
  commandControl : Bool
  command : UInt8
  featureLow : UInt8
  lba0 : UInt8
  lba1 : UInt8
  lba2 : UInt8
  deviceRegister : UInt8
  lba3 : UInt8
  lba4 : UInt8
  lba5 : UInt8
  featureHigh : UInt8
  countl : UInt8
  counth : UInt8
  isoCommandCompletion : UInt8
  control : UInt8
deriving DecidableEq

namespace FisRegH2D

/-- What `Port::read` writes over the command that was in the slot before. -/
def read (old : FisRegH2D) (sector sectorCount : Nat) : FisRegH2D :=
  let sectorLow := sector % 0x100000000
  let sectorHigh := sector / 0x100000000 % 0x100000000
  { old with
    fisType := 0x27
    control := 1
    command := 0x25
    commandControl := true
    lba0 := .ofNat sectorLow
    lba1 := .ofNat (sectorLow / 0x100)
    lba2 := .ofNat (sectorLow / 0x10000)
    lba3 := .ofNat sectorHigh
    lba4 := .ofNat (sectorHigh / 0x100)
    lba5 := .ofNat (sectorHigh / 0x10000)
    deviceRegister := 0x40
    countl := .ofNat (sectorCount % 0x100)
    counth := .ofNat (sectorCount / 0x100 % 0x100) }

/-- The number of the first sector, as the disk reads it. -/
def lba48 (fis : FisRegH2D) : Nat :=
  fis.lba0.toNat + 0x100 * fis.lba1.toNat + 0x10000 * fis.lba2.toNat +
    0x1000000 * fis.lba3.toNat + 0x100000000 * fis.lba4.toNat + 0x10000000000 * fis.lba5.toNat

def count (fis : FisRegH2D) : Nat := fis.countl.toNat + 0x100 * fis.counth.toNat

theorem lba48_read {old : FisRegH2D} {sector n : Nat} :
    (old.read sector n).lba48 =
      sector % 0x1000000 + 0x1000000 * (sector / 0x100000000 % 0x1000000) := by
  simp only [lba48, read, UInt8.toNat_ofNat']
  omega

theorem count_read {old : FisRegH2D} {sector n : Nat} :
    (old.read sector n).count = n % 0x10000 := by
  simp only [count, read, UInt8.toNat_ofNat']
  omega

/-- The command is for the sectors that were asked for exactly if the number has 24 bits: the next
    eight are not in it, and those behind them are in their place. -/
theorem read_addresses_iff {old : FisRegH2D} {sector sectorCount : Nat}
    (hsector : sector < 0x1000000000000) (hcount : 1 ≤ sectorCount ∧ sectorCount ≤ 56) :
    (old.read sector sectorCount).lba48 = sector ∧
        (old.read sector sectorCount).count = sectorCount ↔ sector < 0x1000000 := by
  rw [lba48_read, count_read]
  -- the upper part of the number is itself without its last byte only if it is 0
  have hupper : sector / 0x100000000 % 0x1000000 = sector / 0x1000000 / 0x100 := by omega
  omega

/-- The command before the first one. -/
def zeroed : FisRegH2D := ⟨0, 0, false, 0, 0, 0, 0, 0, 0, 0, 0, 0, 0, 0, 0, 0, 0⟩

theorem read_addresses_last :
    (zeroed.read 0xFFFFFF 56).lba48 = 0xFFFFFF ∧ (zeroed.read 0xFFFFFF 56).count = 56 :=
  (read_addresses_iff (by decide) (by decide)).2 (by decide)

/-- The first sector behind 8 GiB is taken for the first one of the disk. -/
theorem read_misses_sector :
    (zeroed.read 0x1000000 1).lba48 = 0 ∧ (zeroed.read 0x100000000 1).lba48 = 0x1000000 := by
  decide

end FisRegH2D

end Fioxa.Ahci
