import Fioxa.Lib.Faults

/-! # ELF files

The headers of an ELF64 file (`kernel_userspace/src/elf.rs`) as `load_elf` reads them: `Elf64Ehdr`
and `Elf64Phdr` are packed records that are laid over the bytes of the file, so that reading a field
reads its bytes, whether they belong to the file or not. A read that is not inside the file is a
fault here, because nothing is known about what it gives. The fields that are not read are left
out. -/

namespace Fioxa.Elf

open Faults List

inductive LoadElfError where
  | elfHeaderSigInvalid (signature : List UInt8)
  | eType (found : Nat)
  | eMachine (found : Nat)
  | elfVersion (found : Nat)
  | internalError
deriving DecidableEq

/-- What can end `load_elf` besides its errors. -/
inductive Fault where
  /-- A read of the input that is not inside it. -/
  | readOutside (offset size : Nat)
  /-- A copy that leaves the mapping that has been inserted for it. -/
  | writeOutside (address size : Nat)
  | overflow
  /-- `step_by(0)` -/
  | zeroStep
  /-- An `unwrap`, `expect` or assertion that fails, a page fault that cannot be resolved, or memory
      that has run out. -/
  | panic
deriving DecidableEq

/-- A run of `load_elf`, or of a part of it. -/
abbrev Run (α : Type) := Except (Stop LoadElfError Fault) α

/-! ## Reading -/

/-- The bytes at an offset. To read no bytes is possible anywhere. -/
def readBytes (data : List UInt8) (offset size : Nat) : Run (List UInt8) := do
  ensure (size = 0 ∨ offset + size ≤ data.length) (.fault (.readOutside offset size))
  return (data.drop offset).take size

/-- A number from its bytes, the lowest one first. -/
def littleEndian : List UInt8 → Nat
  | [] => 0
  | b :: rest => b.toNat + 256 * littleEndian rest

/-- A field of a packed record: its offset in the record, and its size. -/
structure Field where
  offset : Nat
  size : Nat
deriving DecidableEq

namespace Field

/-- The value of the field in a record that starts at `header`. -/
def value (f : Field) (data : List UInt8) (header : Nat) : Nat :=
  littleEndian ((data.drop (header + f.offset)).take f.size)

def read (f : Field) (data : List UInt8) (header : Nat) : Run Nat := do
  return littleEndian (← readBytes data (header + f.offset) f.size)

/-- The field is inside the file. -/
def Inside (f : Field) (data : List UInt8) (header : Nat) : Prop :=
  header + f.offset + f.size ≤ data.length

instance (f : Field) (data : List UInt8) (header : Nat) : Decidable (f.Inside data header) :=
  inferInstanceAs (Decidable (_ ≤ _))

end Field

namespace Elf64Ehdr

def eType : Field := ⟨16, 2⟩
def eMachine : Field := ⟨18, 2⟩
def eVersion : Field := ⟨20, 4⟩
def eEntry : Field := ⟨24, 8⟩
def ePhoff : Field := ⟨32, 8⟩
def ePhentsize : Field := ⟨54, 2⟩
def ePhnum : Field := ⟨56, 2⟩

end Elf64Ehdr

namespace Elf64Phdr

def pType : Field := ⟨0, 4⟩
def pFlags : Field := ⟨4, 4⟩
def pOffset : Field := ⟨8, 8⟩
def pVaddr : Field := ⟨16, 8⟩
def pFilesz : Field := ⟨32, 8⟩
def pMemsz : Field := ⟨40, 8⟩

end Elf64Phdr

/-- `Executable file` -/
def etExec : Nat := 2

def emX8664 : Nat := 62

/-- A loadable segment. -/
def ptLoad : Nat := 1

/-- `0x7F`, `ELF`, 64 bit, least significant byte first. -/
def elfHeaderSig : List UInt8 := [0x7F, 0x45, 0x4C, 0x46, 2, 1]

open Elf64Ehdr in
def validateElfHeader (data : List UInt8) : Run Unit := do
  let signature ← readBytes data 0 6
  ensure (signature = elfHeaderSig) (.err (.elfHeaderSigInvalid signature))
  let found ← eType.read data 0
  ensure (found = etExec) (.err (.eType found))
  let found ← eMachine.read data 0
  ensure (found = emX8664) (.err (.eMachine found))
  let found ← eVersion.read data 0
  ensure (found = 1) (.err (.elfVersion found))

/-! ## What a read gives -/

variable {data : List UInt8} {offset size header : Nat} {f : Field} {β : Type}

theorem sound_readBytes_bind {k : List UInt8 → Run β} :
    Sound (readBytes data offset size >>= k) ↔
      (size = 0 ∨ offset + size ≤ data.length) ∧ Sound (k ((data.drop offset).take size)) := by
  unfold readBytes
  rw [bind_assoc, sound_ensure_bind]
  rfl

theorem readBytes_bind_eq_ok {k : List UInt8 → Run β} {b : β} :
    (readBytes data offset size >>= k) = .ok b ↔
      (size = 0 ∨ offset + size ≤ data.length) ∧ k ((data.drop offset).take size) = .ok b := by
  unfold readBytes
  rw [bind_assoc, ensure_bind_eq_ok]
  rfl

namespace Field

theorem inside_of_size (hf : 0 < f.size) :
    (f.size = 0 ∨ header + f.offset + f.size ≤ data.length) ↔ f.Inside data header :=
  or_iff_right (Nat.ne_of_gt hf)

theorem sound_read_bind {k : Nat → Run β} (hf : 0 < f.size) :
    Sound (f.read data header >>= k) ↔ f.Inside data header ∧ Sound (k (f.value data header)) := by
  unfold read
  rw [bind_assoc, sound_readBytes_bind, inside_of_size hf]
  rfl

theorem read_bind_eq_ok {k : Nat → Run β} {b : β} (hf : 0 < f.size) :
    (f.read data header >>= k) = .ok b ↔
      f.Inside data header ∧ k (f.value data header) = .ok b := by
  unfold read
  rw [bind_assoc, readBytes_bind_eq_ok, inside_of_size hf]
  rfl

end Field

/-! ## The header -/

/-- The fields at the start of the file that `validate_elf_header` compares. -/
structure ValidHeader (data : List UInt8) : Prop where
  signature : data.take 6 = elfHeaderSig
  type : Elf64Ehdr.eType.value data 0 = etExec
  machine : Elf64Ehdr.eMachine.value data 0 = emX8664
  version : Elf64Ehdr.eVersion.value data 0 = 1

/-- What has to be inside the file for the header to be compared: each field that is read, after the
    ones before it have been accepted. -/
def HeaderInside (data : List UInt8) : Prop :=
  6 ≤ data.length ∧ (data.take 6 = elfHeaderSig →
    Elf64Ehdr.eType.Inside data 0 ∧ (Elf64Ehdr.eType.value data 0 = etExec →
      Elf64Ehdr.eMachine.Inside data 0 ∧ (Elf64Ehdr.eMachine.value data 0 = emX8664 →
        Elf64Ehdr.eVersion.Inside data 0)))

theorem sound_validateElfHeader_bind {k : Unit → Run β} :
    Sound (validateElfHeader data >>= k) ↔
      HeaderInside data ∧ (ValidHeader data → Sound (k ())) := by
  have hvalid : ValidHeader data ↔ data.take 6 = elfHeaderSig ∧
      Elf64Ehdr.eType.value data 0 = etExec ∧ Elf64Ehdr.eMachine.value data 0 = emX8664 ∧
      Elf64Ehdr.eVersion.value data 0 = 1 :=
    ⟨fun h => ⟨h.1, h.2, h.3, h.4⟩, fun h => ⟨h.1, h.2.1, h.2.2.1, h.2.2.2⟩⟩
  have hsix : (6 = 0 ∨ 0 + 6 ≤ data.length) ↔ 6 ≤ data.length := by omega
  simp only [validateElfHeader, bind_assoc, sound_readBytes_bind, sound_reject_bind, hsix,
    Field.sound_read_bind (f := Elf64Ehdr.eType) (by decide),
    Field.sound_read_bind (f := Elf64Ehdr.eMachine) (by decide),
    Field.sound_read_bind (f := Elf64Ehdr.eVersion) (by decide), hvalid, HeaderInside,
    drop_zero]
  tauto

theorem validateElfHeader_bind_eq_ok {k : Unit → Run β} {b : β} :
    (validateElfHeader data >>= k) = .ok b ↔
      ValidHeader data ∧ 24 ≤ data.length ∧ k () = .ok b := by
  have hsix : (6 = 0 ∨ 0 + 6 ≤ data.length) ↔ 6 ≤ data.length := by omega
  simp only [validateElfHeader, bind_assoc, readBytes_bind_eq_ok, ensure_bind_eq_ok, hsix,
    Field.read_bind_eq_ok (f := Elf64Ehdr.eType) (by decide),
    Field.read_bind_eq_ok (f := Elf64Ehdr.eMachine) (by decide),
    Field.read_bind_eq_ok (f := Elf64Ehdr.eVersion) (by decide), drop_zero]
  constructor
  · rintro ⟨-, hsig, -, htype, -, hmachine, hinside, hversion, hk⟩
    exact ⟨⟨hsig, htype, hmachine, hversion⟩, hinside, hk⟩
  · rintro ⟨hvalid, hlen, hk⟩
    have hinside : Elf64Ehdr.eType.Inside data 0 ∧ Elf64Ehdr.eMachine.Inside data 0 := by
      simp only [Field.Inside, Elf64Ehdr.eType, Elf64Ehdr.eMachine]
      omega
    exact ⟨by omega, hvalid.signature, hinside.1, hvalid.type, hinside.2, hvalid.machine, hlen,
      hvalid.version, hk⟩

end Fioxa.Elf
