import Fioxa.Fs.Contents

/-! # Reading a file sector by sector

A client can read a file at once (`read_file`) or ask for its sectors one after the other
(`read_file_sector`). Both go along the same chain. The last sector is returned with `length % 512`
bytes, which is 0 for a file that ends at the end of a sector. -/

namespace Fioxa.Fs.FAT

open Faults List Option Nat

variable {fat fat' : FAT} {c n k fuel id length : Nat} {b : List Cell} {secs : List Nat}
  {file : FATFile}

/-- The sectors are read into the same buffer, and what is returned of each is put together. -/
def readSectors (id : Nat) : List Nat → List Cell → FAT → Run (List Cell × FAT)
  | [], _, fat => .ok ([], fat)
  | k :: rest, buffer, fat => do
      let (n, buffer, fat) ← fat.readFileSector id k buffer
      let (tail, fat) ← readSectors id rest buffer fat
      return (buffer.take (n.getD 0) ++ tail, fat)

theorem sectorAt_eq (hsecs : fat.fileSectors fuel n c = some secs) (hfuel : n ≤ fuel) (hk : k < n)
    (hlt : k < 0x100000000) : fat.sectorAt c k = secs[k]? := by
  induction fuel generalizing n c k secs with
  | zero => omega
  | succ fuel ih =>
    have hspc := fat.sectorsPerCluster_pos
    rcases fileSectors_succ_eq_some.1 hsecs with ⟨rfl, -⟩ | ⟨-, s, secs', hs, hfit, hsecs', rfl⟩
    · omega
    · by_cases hfirst : k < fat.bpb.sectorsPerCluster
      · -- the sector is in the first cluster
        have hmin : k < min n fat.bpb.sectorsPerCluster := by omega
        rw [List.getElem?_append_left (by simpa using hmin), List.getElem?_range' hmin]
        simp only [sectorAt, div_eq_of_lt hfirst, nthCluster, bind_some, hs,
          mod_eq_of_lt hlt, mod_eq_of_lt hfirst]
        rw [if_pos (by omega), Nat.one_mul]
      · have hmin : min n fat.bpb.sectorsPerCluster = fat.bpb.sectorsPerCluster := by omega
        rw [hmin] at hfit hsecs' ⊢
        have hdiv : k / fat.bpb.sectorsPerCluster
            = (k - fat.bpb.sectorsPerCluster) / fat.bpb.sectorsPerCluster + 1 := by
          rw [div_eq_sub_div hspc (by omega)]
        have hmod : k % fat.bpb.sectorsPerCluster
            = (k - fat.bpb.sectorsPerCluster) % fat.bpb.sectorsPerCluster :=
          mod_eq_sub_mod (by omega)
        have hstep : fat.sectorAt c k
            = fat.sectorAt (fat.link c) (k - fat.bpb.sectorsPerCluster) := by
          rw [sectorAt, sectorAt, hdiv, nthCluster, if_pos (hasLink_of_lt hs (by omega)),
            mod_eq_of_lt hlt, mod_eq_of_lt (Nat.lt_of_le_of_lt (sub_le _ _) hlt),
            hmod]
        rw [hstep, ih hsecs' (by omega) (by omega) (by omega),
          List.getElem?_append_right (by simpa using hfirst), length_range']

/-- What is returned of the sectors of a file. -/
def sectorBytes (fat : FAT) (secs : List Nat) (length k : Nat) : List UInt8 :=
  (fat.disk.sectors (secs.getD k 0) 1).take (sectorLength length k)

theorem readSectors_eq (ks : List Nat) (h : fat.Cached) (hfile : fat.fileIdLookup id = some file)
    (htype : file.entryType = .file length) (hround : length + 511 < 0x100000000)
    (hsecs : fat.sectorsOf file.cluster length = some secs) (hb : b.length = 512)
    (hks : ∀ k ∈ ks, k < sectorCount length) :
    ∃ fat', readSectors id ks b fat
      = .ok (marked true (ks.flatMap (fat.sectorBytes secs length)), fat') ∧ Kept fat fat' := by
  induction ks generalizing fat b with
  | nil => exact ⟨fat, rfl, .refl h⟩
  | cons k ks ih =>
    obtain ⟨hk, hrest⟩ := forall_mem_cons.1 hks
    have hcount : sectorCount length < 0x100000000 := by
      unfold sectorCount
      omega
    have hlen : secs.length = sectorCount length := length_fileSectors (Nat.le_refl _) hsecs
    have hat : fat.sectorAt file.cluster k = some (secs.getD k 0) := by
      rw [sectorAt_eq hsecs (Nat.le_refl _) hk (by omega), getD_eq_getElem?_getD,
        List.getElem?_eq_getElem (by omega)]
      rfl
    obtain ⟨⟨r, b1, fat₁⟩, hok, s, hs, hr, hbytes, hkept⟩ :=
      (readFileSector_exact (k := k) h hfile htype (by omega) hb).returns
        ⟨hround, by omega, by rw [hat]; rfl⟩
    obtain rfl := Option.some.inj (hat.symm.trans hs)
    have hr : r = some (sectorLength length k) := hr
    have hbytes : b1 = marked true (fat.disk.sectors (secs.getD k 0) 1) := hbytes
    have hsame : fat₁.sectorBytes = fat.sectorBytes := by
      funext secs length k
      rw [sectorBytes, sectorBytes, show fat₁.disk = fat.disk from hkept.disk]
    have hb1 : b1.length = 512 := by
      rw [hbytes]
      simp
    obtain ⟨fat₂, hok2, hkept2⟩ := ih hkept.cached ((congrFun hkept.fileIdLookup id).trans hfile)
      ((hkept.toSamePartition.fileSectors_eq ..).trans hsecs) hb1 hrest
    refine ⟨fat₂, ?_, hkept.trans hkept2⟩
    refine bind_eq_ok.2 ⟨_, hok, bind_eq_ok.2 ⟨_, hok2, ?_⟩⟩
    have hpart : (marked true (fat.disk.sectors (secs.getD k 0) 1)).take (sectorLength length k)
        = marked true (fat.sectorBytes secs length k) := map_take.symm
    rw [hr, hbytes, hsame, flatMap_cons, marked_append, ← hpart]
    rfl

theorem sectors_eq_slice {m : Nat} (hm : m < secs.length) :
    fat.disk.sectors (secs.getD m 0) 1 = ((fat.sectorData secs).drop (512 * m)).take 512 := by
  induction secs generalizing m with
  | nil => simp at hm
  | cons s secs ih =>
    have hcons : fat.sectorData (s :: secs) = fat.disk.sectors s 1 ++ fat.sectorData secs := rfl
    have hlen : (fat.disk.sectors s 1).length = 512 := by simp
    cases m with
    | zero => rw [hcons, drop_zero, take_left' hlen, getD_cons_zero]
    | succ =>
      rw [hcons, getD_cons_succ, ih (by simpa using hm), mul_succ, Nat.add_comm,
        ← drop_drop, drop_left' hlen]

theorem flatMap_sectorBytes {m : Nat} (hm : m < sectorCount length) (hlen : m ≤ secs.length) :
    (List.range m).flatMap (fat.sectorBytes secs length)
      = (fat.sectorData secs).take (512 * m) := by
  induction m with
  | zero => rfl
  | succ m ih =>
    have hfull : sectorLength length m = 512 := if_neg (by omega)
    rw [range_succ, flatMap_append, ih (by omega) (by omega), flatMap_singleton,
      sectorBytes, hfull, sectors_eq_slice (by omega), take_take, Nat.min_self, mul_succ,
      take_add]

theorem flatMap_sectorBytes_all (hpos : 0 < length) (hlen : secs.length = sectorCount length) :
    (List.range (sectorCount length)).flatMap (fat.sectorBytes secs length)
      = (fat.sectorData secs).take (if length % 512 = 0 then length - 512 else length) := by
  obtain ⟨m, hm⟩ : ∃ m, sectorCount length = m + 1 := ⟨sectorCount length - 1, by
    unfold sectorCount
    omega⟩
  have hlast : sectorLength length m = length % 512 := if_pos hm.symm
  have htotal : 512 * m + length % 512 = if length % 512 = 0 then length - 512 else length := by
    unfold sectorCount at hm
    split <;> omega
  rw [hm, range_succ, flatMap_append, flatMap_sectorBytes (by omega) (by omega),
    flatMap_singleton, sectorBytes, hlast, sectors_eq_slice (by omega), take_take,
    Nat.min_eq_left (Nat.le_of_lt (mod_lt _ (by decide))), ← take_add, htotal]

/-- Both ways of reading a file return the same bytes. -/
def ReadsAgree (fat : FAT) (id length : Nat) (buffer sector : List Cell) : Prop :=
  ∃ whole parts fat₁ fat₂, fat.readFile id buffer = .ok (whole, fat₁) ∧
    readSectors id (List.range (sectorCount length)) sector fat = .ok (parts, fat₂) ∧
    values parts = values whole

/-- For a file whose sectors can be read, both ways return the same bytes exactly if its length is
    not a multiple of the sector size, and rounding it up does not overflow. -/
theorem readFileSector_agrees_iff {buffer sector : List Cell} (h : fat.Cached)
    (hfile : fat.fileIdLookup id = some file) (htype : file.entryType = .file length)
    (hpos : 0 < length) (hreads : (fat.sectorsOf file.cluster length).isSome = true)
    (hsector : sector.length = 512) :
    fat.ReadsAgree id length buffer sector ↔ length + 511 < 0x100000000 ∧ length % 512 ≠ 0 := by
  obtain ⟨secs, hsecs⟩ := isSome_iff_exists.1 hreads
  have hlen : secs.length = sectorCount length := length_fileSectors (Nat.le_refl _) hsecs
  have hread := readFile_exact (b := buffer) h hfile htype
  have hparts : length + 511 < 0x100000000 → ∃ fat₂,
      readSectors id (List.range (sectorCount length)) sector fat = .ok (marked true
        ((fat.sectorData secs).take (if length % 512 = 0 then length - 512 else length)),
          fat₂) := by
    intro hround
    obtain ⟨fat₂, hok, -⟩ := readSectors_eq (List.range (sectorCount length)) h hfile htype hround
      hsecs hsector (by simp)
    exact ⟨fat₂, by rw [hok, flatMap_sectorBytes_all hpos hlen]⟩
  have hlong : length ≤ (fat.sectorData secs).length := by
    rw [length_sectorData, hlen, sectorCount]
    omega
  constructor
  · rintro ⟨whole, parts, fat₁, fat₂, hwhole, hsectors, hagree⟩
    obtain ⟨⟨hround, -⟩, secs', hsecs', hbytes, -⟩ := hread.of_ok hwhole
    obtain rfl := Option.some.inj (hsecs.symm.trans hsecs')
    refine ⟨hround, fun hzero => ?_⟩
    obtain ⟨fat3, hparts⟩ := hparts hround
    rw [if_pos hzero, hsectors] at hparts
    have hcount := congrArg List.length hagree
    rw [(Prod.mk.inj (Except.ok.inj hparts)).1, show whole = _ from hbytes, values_marked,
      values_marked, length_take, length_take] at hcount
    omega
  · rintro ⟨hround, hmod⟩
    obtain ⟨⟨whole, fat₁⟩, hwhole, secs', hsecs', hbytes, -⟩ := hread.returns ⟨hround, hreads⟩
    obtain rfl := Option.some.inj (hsecs.symm.trans hsecs')
    obtain ⟨fat₂, hsectors⟩ := hparts hround
    refine ⟨whole, _, fat₁, fat₂, hwhole, hsectors, ?_⟩
    rw [show whole = _ from hbytes, if_neg hmod]

/-- A disk of FAT16 with one file, which has the id 1 and starts at cluster 2. -/
def oneFile (length : Nat) : FAT where
  partitionId := 0
  bpb := ⟨512, 1, 1, 1, 16, 0x2000, 1, 0⟩
  ebr := .fat16
  disk :=
    { backingDisk :=
        { sector := fun s => replicate 512 (UInt8.ofNat s)
          fails := fun _ => false
          residue := fun _ bytes => bytes
          length_sector := fun _ => length_replicate
          length_residue := (DiskDevice.ofImage fun _ => []).length_residue }
      partitionOffset := 0
      partitionLength := 0x2000
      length_lt := by decide }
  fileIdLookup := fun id => if id = 1 then some ⟨2, .file length, true⟩ else none
  clusterChainBuffer := fun _ => none
  reads := 0
  nextFileId := 2
  trusted := true
  sectorsPerCluster_pos := Nat.one_pos

theorem oneFile_cached : (oneFile length).Cached := by
  refine ⟨fun _ => rfl, fun k b hb => ?_⟩
  cases hb

theorem oneFile_agrees : (oneFile 1500).ReadsAgree 1 1500 [] (blank 512) :=
  (readFileSector_agrees_iff oneFile_cached rfl rfl (by decide) (by decide +kernel) (by simp)).2
    ⟨by decide, by decide⟩

/-- Of a file of 512 bytes, no byte is returned for its only sector. -/
theorem oneFile_disagrees :
    ((oneFile 512).readFile (m := Run) 1 []).toOption.map (fun r => r.1.length) = some 512 ∧
    (readSectors 1 [0] (blank 512) (oneFile 512)).toOption.map (fun r => r.1.length) = some 0 ∧
    ¬ (oneFile 512).ReadsAgree 1 512 [] (blank 512) := by
  have hwhole : ((oneFile 512).readFile (m := Run) 1 []).toOption.map (fun r => r.1.length)
      = some 512 := by
    decide +kernel
  have hparts : (readSectors 1 [0] (blank 512) (oneFile 512)).toOption.map (fun r => r.1.length)
      = some 0 := by
    decide +kernel
  refine ⟨hwhole, hparts, ?_⟩
  rintro ⟨whole, parts, fat₁, fat₂, hw, hp, hagree⟩
  rw [hw] at hwhole
  rw [show [0] = List.range (sectorCount 512) by decide, hp] at hparts
  have hlen := congrArg List.length hagree
  have hwhole' : whole.length = 512 := Option.some.inj hwhole
  have hparts' : parts.length = 0 := Option.some.inj hparts
  rw [length_values, length_values] at hlen
  omega

end Fioxa.Fs.FAT
