import Mathlib.Tactic.Common

/-! # Pages

`Page<Size4KB>` (`paging/page.rs`): an address that is a multiple of the page size, canonical (the
bits above the 48 that are translated repeat the last of them) and not zero. `Page::new` panics on
any other address, so a page carries this check. The four indices of an address select the entries
of the tables of level 1 to 4, and a page is determined by them. -/

namespace Fioxa.Paging

open Nat

/-- The checks of `Page::<Size4KB>::new`. -/
def pageOk (address : Nat) : Bool :=
  let lvl4 := (address >>> (12 + 9 + 9 + 9)) &&& 0x1ff
  let sign := address >>> (12 + 9 + 9 + 9 + 9)
  address &&& (0x1000 - 1) = 0 ∧ ((sign = 0 ∧ lvl4 ≤ 255) ∨ (sign = 0xFFFF ∧ 255 < lvl4)) ∧
    address ≠ 0

theorem pageOk_iff {address : Nat} : pageOk address = true ↔
    address % 0x1000 = 0 ∧ 0 < address ∧
      (address < 0x800000000000 ∨
        0xFFFF800000000000 ≤ address ∧ address < 0x10000000000000000) := by
  have hmask : address &&& (0x1000 - 1) = address % 0x1000 :=
    and_two_pow_sub_one_eq_mod address 12
  have hlvl4 : (address >>> (12 + 9 + 9 + 9)) &&& 0x1ff = address / 0x8000000000 % 0x200 := by
    rw [shiftRight_eq_div_pow]
    exact and_two_pow_sub_one_eq_mod _ 9
  have hsign : address >>> (12 + 9 + 9 + 9 + 9) = address / 0x1000000000000 := by
    rw [shiftRight_eq_div_pow]
  unfold pageOk
  simp only [hmask, hlvl4, hsign, decide_eq_true_eq]
  omega

/-- `MemoryLoc::PerCpuMem`. The page there, which is that of the first core, is in all address
    spaces. -/
def perCpuMem : Nat := 0xFFFFAC0000000000

/-- A page of 4 KiB. -/
structure Page where
  address : Nat
  ok : pageOk address = true
deriving DecidableEq

/-- `Page::new`; `none` when it panics. -/
def Page.new (address : Nat) : Option Page :=
  if h : pageOk address = true then some ⟨address, h⟩ else none

theorem Page.new_address (p : Page) : Page.new p.address = some p :=
  dif_pos p.ok

/-- `TableLevel::calculate_index`, with `INDEXER = LEVEL * 9 + 3` and the mask `0x1ff`. -/
def calculateIndex (level address : Nat) : Fin 512 := Fin.ofNat 512 (address >>> (level * 9 + 3))

/-- The indices of an address; the table of level `n + 1` is indexed by `addressKey a n`. -/
def addressKey (a n : Nat) : Fin 512 := calculateIndex (n + 1) a

theorem calculateIndex_succ (n a : Nat) : calculateIndex (n + 1) a = addressKey a n := rfl

theorem addressKey_val (a n : Nat) :
    (addressKey a n).val = (a >>> ((n + 1) * 9 + 3)) % 512 := rfl

theorem Page.eq_of_key {v v' : Page}
    (h : ∀ n < 4, addressKey v.address n = addressKey v'.address n) : v = v' := by
  have hkey : ∀ n < 4, (v.address >>> ((n + 1) * 9 + 3)) % 512
      = (v'.address >>> ((n + 1) * 9 + 3)) % 512 := by
    intro n hn
    rw [← addressKey_val, ← addressKey_val, h n hn]
  simp only [shiftRight_eq_div_pow] at hkey
  have h0 := hkey 0 (by decide)
  have h1 := hkey 1 (by decide)
  have h2 := hkey 2 (by decide)
  have h3 := hkey 3 (by decide)
  have hv := pageOk_iff.1 v.ok
  have hv' := pageOk_iff.1 v'.ok
  have haddr : v.address = v'.address := by omega
  cases v
  cases v'
  congr

end Fioxa.Paging
