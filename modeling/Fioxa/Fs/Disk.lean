import Fioxa.Lib.Faults

/-! # Disks

The disk below a partition (`DiskDevice`, `driver/disk.rs`; the only one is the AHCI port,
`driver/disk/ahci/port.rs`) and the partition as the file systems see it (`FSPartitionDisk`,
`fs/mod.rs`). A read can fail at any time. It then returns `None`, and what is in the buffer is not
specified. The callers of this development do not look at the result of a read, so each byte of a
buffer carries whether it came from a read that succeeded. -/

namespace Fioxa.Fs

open Faults List

inductive FSServiceError where
  | noSuchPartition (id : Nat)
  | couldNotFollowPath
  | fileNotFound
  | invalidRequestForFileType
deriving DecidableEq

/-- How the kernel panics, or a loop goes on for longer than the model follows it. -/
inductive Fault where
  | overflow
  | divideByZero
  | assertion
  | outOfRange
  | unsupported
  | outOfFuel
deriving DecidableEq

abbrev Run (α : Type) := Except (Stop FSServiceError Fault) α

/-! ## Bytes -/

/-- A byte of a buffer. The source has no `good`: the byte was written by a disk read that
    succeeded. -/
structure Cell where
  value : UInt8
  good : Bool
deriving DecidableEq

def values (buffer : List Cell) : List UInt8 := buffer.map Cell.value

def marked (good : Bool) (bytes : List UInt8) : List Cell := bytes.map fun b => ⟨b, good⟩

/-- A buffer that has not been read into. -/
def blank (n : Nat) : List Cell := marked false (replicate n 0)

def byteAt (bytes : List UInt8) (i : Nat) : Nat := (bytes.getD i 0).toNat

/-- Words are little-endian. -/
def le16 (bytes : List UInt8) (i : Nat) : Nat := byteAt bytes i + 0x100 * byteAt bytes (i + 1)

def le32 (bytes : List UInt8) (i : Nat) : Nat := le16 bytes i + 0x10000 * le16 bytes (i + 2)

variable {bytes : List UInt8} {buffer : List Cell} {b : Bool} {i n : Nat}

@[simp] theorem values_marked : values (marked b bytes) = bytes := by
  simp [values, marked, Function.comp_def]

@[simp] theorem values_append {c c' : List Cell} : values (c ++ c') = values c ++ values c' := by
  simp [values]

theorem marked_append {bytes' : List UInt8} :
    marked b (bytes ++ bytes') = marked b bytes ++ marked b bytes' := by
  simp [marked]

@[simp] theorem length_values : (values buffer).length = buffer.length := by
  simp [values]

@[simp] theorem length_marked : (marked b bytes).length = bytes.length := by
  simp [marked]

@[simp] theorem length_blank : (blank n).length = n := by
  simp [blank]

theorem byteAt_lt : byteAt bytes i < 0x100 := UInt8.toNat_lt _

theorem le16_lt : le16 bytes i < 0x10000 := by
  have h0 : byteAt bytes i < 0x100 := byteAt_lt
  have h1 : byteAt bytes (i + 1) < 0x100 := byteAt_lt
  unfold le16
  omega

theorem le32_lt : le32 bytes i < 0x100000000 := by
  have h0 : le16 bytes i < 0x10000 := le16_lt
  have h1 : le16 bytes (i + 2) < 0x10000 := le16_lt
  unfold le32
  omega

/-! ## The disk -/

/-- A disk, with what happens at each read: the reads are numbered, `fails` says which of them fail,
    and `residue` what these leave in the part of the buffer they were to fill. -/
structure DiskDevice where
  sector : Nat → List UInt8
  fails : Nat → Bool
  residue : Nat → List UInt8 → List UInt8
  length_sector : ∀ s, (sector s).length = 512
  length_residue : ∀ t bytes, (residue t bytes).length = bytes.length

namespace DiskDevice

/-- A disk of which no read fails, with the given sectors, filled up with zeros. -/
def ofImage (image : Nat → List UInt8) : DiskDevice where
  sector s := (image s).take 512 ++ replicate (512 - (image s).length) 0
  fails _ := false
  residue _ bytes := bytes
  length_sector s := by
    rw [length_append, length_take, length_replicate]
    omega
  length_residue _ _ := rfl

/-- The contents of consecutive sectors. -/
def sectors (d : DiskDevice) (s n : Nat) : List UInt8 :=
  (List.range n).flatMap fun i => d.sector (s + i)

/-- What a read returns and leaves in the buffer. -/
def outcome (d : DiskDevice) (t s n : Nat) (buffer : List Cell) : Option Unit × List Cell :=
  if d.fails t then
    (none, marked false (d.residue t (values (buffer.take (512 * n)))) ++ buffer.drop (512 * n))
  else (some (), marked true (d.sectors s n) ++ buffer.drop (512 * n))

/-- `read`, as `Port::read` does it for sectors below `2 ^ 24`, which it addresses rightly
    (`Fs/CommandFis.lean`). The port cannot transfer more than 56 sectors at once. -/
def read (d : DiskDevice) (t s n : Nat) (buffer : List Cell) :
    Run (Option Unit × List Cell) := do
  ensure (n ≤ 56) (.fault .unsupported)
  ensure (512 * n ≤ buffer.length) (.fault .assertion)
  return d.outcome t s n buffer

end DiskDevice

/-- The length of a partition is a word of the master boot record. -/
structure FSPartitionDisk where
  backingDisk : DiskDevice
  partitionOffset : Nat
  partitionLength : Nat
  length_lt : partitionLength < 0x100000000

namespace FSPartitionDisk

/-- The partition of the first 5000 sectors of a disk. -/
def start (disk : DiskDevice) : FSPartitionDisk := ⟨disk, 0, 5000, by decide⟩

def read (d : FSPartitionDisk) (t s n : Nat) (buffer : List Cell) :
    Run (Option Unit × List Cell) := do
  ensure (s + n ≤ d.partitionLength) (.fault .outOfRange)
  d.backingDisk.read t (s + d.partitionOffset) n buffer

/-- The contents of consecutive sectors of the partition. -/
def sectors (d : FSPartitionDisk) (s n : Nat) : List UInt8 :=
  d.backingDisk.sectors (s + d.partitionOffset) n

/-- No read fails. -/
def Reliable (d : FSPartitionDisk) : Prop := ∀ t, d.backingDisk.fails t = false

variable {d : FSPartitionDisk} {s t : Nat}

theorem sectors_succ : d.sectors s (n + 1) = d.sectors s n ++ d.sectors (s + n) 1 := by
  simp only [sectors, DiskDevice.sectors, range_succ, flatMap_append, range_zero,
    nil_append, flatMap_cons, flatMap_nil, append_nil, Nat.add_zero]
  congr 2
  omega

@[simp] theorem length_sectors : (d.sectors s n).length = 512 * n := by
  induction n with
  | zero => simp [sectors, DiskDevice.sectors]
  | succ n ih =>
    rw [sectors_succ, length_append, ih]
    simp [sectors, DiskDevice.sectors, d.backingDisk.length_sector]
    omega

theorem sectors_add {m : Nat} : d.sectors s (m + n) = d.sectors s m ++ d.sectors (s + m) n := by
  induction n with
  | zero => simp [sectors, DiskDevice.sectors]
  | succ n ih =>
    rw [← Nat.add_assoc, sectors_succ, ih, sectors_succ (s := s + m), append_assoc, Nat.add_assoc]

theorem read_exact {c : List Cell} : Exact (d.read t s n c)
    (s + n ≤ d.partitionLength ∧ n ≤ 56 ∧ 512 * n ≤ c.length)
    (· = d.backingDisk.outcome t (s + d.partitionOffset) n c) := by
  have hreturn : Exact (.ok (d.backingDisk.outcome t (s + d.partitionOffset) n c) : Run _)
      True (· = d.backingDisk.outcome t (s + d.partitionOffset) n c) := Exact.pure rfl
  have hall := (Exact.ensure (F := Fault) (E := FSServiceError) (p := s + n ≤ d.partitionLength)
    (f := .outOfRange) (Q := fun _ => True) fun _ => trivial).bind fun _ _ =>
    (Exact.ensure (p := n ≤ 56) (f := .unsupported) (Q := fun _ => True) fun _ => trivial).bind
      fun _ _ => (Exact.ensure (p := 512 * n ≤ c.length) (f := .assertion)
        (Q := fun _ => True) fun _ => trivial).bind fun _ _ => hreturn
  exact hall.congr (by simp) fun _ _ h => h

end FSPartitionDisk

end Fioxa.Fs
