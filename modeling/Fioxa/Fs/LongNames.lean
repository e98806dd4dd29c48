import Fioxa.Fs.SectorReads
import Fioxa.Fs.Requests

/-! # Long names

A long name is stored in UTF-16, in pieces of 13 units, each in a directory entry of its own, and
the last piece comes first. `parse_entries` decodes each piece on its own and puts the results
together. A character outside the basic plane takes two units. If these are in different pieces,
each of them becomes a replacement character. -/

namespace Fioxa.Fs

open Faults List DirectoryEntry

/-! ## UTF-16 -/

/-- The units of a character. -/
def encodeUtf16 (c : Char) : List Nat :=
  if c.toNat < 0x10000 then [c.toNat]
  else [0xD800 + (c.toNat - 0x10000) / 0x400, 0xDC00 + (c.toNat - 0x10000) % 0x400]

def nameUnits (name : Name) : List Nat := name.flatMap encodeUtf16

/-- The second half of a character of two units. -/
def isSecondHalf (u : Nat) : Bool := 0xDC00 ≤ u ∧ u ≤ 0xDFFF

variable {c : Char} {u r : Nat} {name lfn : Name} {units : List Nat}
  {es pre post : List DirectoryEntry}
  {e short : DirectoryEntry}

theorem toNat_cases (c : Char) : c.toNat < 0xD800 ∨ 0xDFFF < c.toNat ∧ c.toNat < 0x110000 := by
  exact c.valid

theorem encodeUtf16_cases (c : Char) :
    (encodeUtf16 c = [c.toNat] ∧ isSurrogate c.toNat = false ∧ c.toNat < 0x10000) ∨
    ∃ hi lo, encodeUtf16 c = [hi, lo] ∧ (0xD800 ≤ hi ∧ hi < 0xDC00) ∧ (0xDC00 ≤ lo ∧ lo ≤ 0xDFFF) ∧
      0x10000 + (hi - 0xD800) * 0x400 + (lo - 0xDC00) = c.toNat := by
  have hvalid := toNat_cases c
  unfold encodeUtf16
  split
  · refine .inl ⟨rfl, ?_, by assumption⟩
    simp only [isSurrogate, decide_eq_false_iff_not]
    omega
  · exact .inr ⟨_, _, rfl, by omega, by omega, by omega⟩

theorem decodeUtf16_unit (h : isSurrogate u = false) :
    decodeUtf16 (u :: units) = Char.ofNat u :: decodeUtf16 units := by
  rw [decodeUtf16.eq_def]
  simp only [h, Bool.not_false, if_true]

variable {hi lo : Nat}

theorem decodeUtf16_pair (hhi : 0xD800 ≤ hi ∧ hi < 0xDC00) (hlo : 0xDC00 ≤ lo ∧ lo ≤ 0xDFFF) :
    decodeUtf16 (hi :: lo :: units)
      = Char.ofNat (0x10000 + (hi - 0xD800) * 0x400 + (lo - 0xDC00)) :: decodeUtf16 units := by
  have hsurrogate : isSurrogate hi = true := by
    simp only [isSurrogate, decide_eq_true_eq]
    omega
  rw [decodeUtf16, hsurrogate]
  simp [hlo, Nat.not_le.2 hhi.2]

theorem decodeUtf16_first (hhi : 0xD800 ≤ hi ∧ hi < 0xDC00) : decodeUtf16 [hi] = [replacement] := by
  have hsurrogate : isSurrogate hi = true := by
    simp only [isSurrogate, decide_eq_true_eq]
    omega
  rw [decodeUtf16, hsurrogate]
  simp [Nat.not_le.2 hhi.2]

theorem decodeUtf16_second (hlo : 0xDC00 ≤ lo ∧ lo ≤ 0xDFFF) :
    decodeUtf16 (lo :: units) = replacement :: decodeUtf16 units := by
  have hsurrogate : isSurrogate lo = true := by
    simp only [isSurrogate, decide_eq_true_eq]
    omega
  rw [decodeUtf16.eq_def]
  simp [hsurrogate, hlo.1]

/-! ## Pieces -/

/-- The pieces of a name. -/
def lfnPieces (units : List Nat) : List (List Nat) :=
  (List.range ((units.length + 12) / 13)).map fun i => (units.drop (13 * i)).take 13

/-- What `parse_entries` makes of the pieces. -/
def assemble (units : List Nat) : Name := (lfnPieces units).flatMap decodeUtf16

/-- The same, if there is only room for `r` units in the first piece. -/
def assembleFrom (r : Nat) (units : List Nat) : Name :=
  decodeUtf16 (units.take r) ++ assemble (units.drop r)

theorem lfnPieces_eq_cons (h : units ≠ []) :
    lfnPieces units = units.take 13 :: lfnPieces (units.drop 13) := by
  have hlen := length_pos_iff.2 h
  have hcount : (units.length + 12) / 13 = ((units.drop 13).length + 12) / 13 + 1 := by
    rw [length_drop]
    omega
  rw [lfnPieces, hcount, range_succ_eq_map, map_cons, map_map, lfnPieces]
  simp only [Nat.mul_zero, drop_zero, Function.comp_def, drop_drop, Nat.mul_succ, Nat.add_comm 13]

theorem assemble_eq (units : List Nat) : assemble units = assembleFrom 13 units := by
  cases units with
  | nil => rfl
  | cons u units =>
    rw [assemble, lfnPieces_eq_cons (cons_ne_nil u units)]
    rfl

theorem assembleFrom_zero : assembleFrom 0 units = assembleFrom 13 units := by
  rw [← assemble_eq]
  rfl

theorem assembleFrom_split (hhi : 0xD800 ≤ hi ∧ hi < 0xDC00) (hlo : 0xDC00 ≤ lo ∧ lo ≤ 0xDFFF) :
    assembleFrom 1 (hi :: lo :: units) = replacement :: replacement :: assembleFrom 12 units := by
  rw [assembleFrom, take_succ_cons, take_zero, drop_succ_cons, drop_zero,
    decodeUtf16_first hhi, assemble_eq, assembleFrom, take_succ_cons, drop_succ_cons,
    decodeUtf16_second hlo]
  rfl

/-- No piece starts with the second half of a character, if there is only room for `r` units in the
    first one. -/
def WholeFrom (r : Nat) (units : List Nat) : Prop :=
  ∀ k, isSecondHalf (units.getD (r + 13 * k) 0) = false

theorem wholeFrom_zero (h : isSecondHalf (units.getD 0 0) = false) :
    WholeFrom 0 units ↔ WholeFrom 13 units := by
  constructor
  · intro hall k
    have hk := hall (k + 1)
    rwa [show 0 + 13 * (k + 1) = 13 + 13 * k by omega] at hk
  · intro hall k
    cases k with
    | zero => exact h
    | succ k =>
      have hk := hall k
      rwa [show 0 + 13 * (k + 1) = 13 + 13 * k by omega]

theorem wholeFrom_cons : WholeFrom (r + 1) (u :: units) ↔ WholeFrom r units := by
  refine forall_congr' fun k => ?_
  rw [show r + 1 + 13 * k = r + 13 * k + 1 by omega, getD_cons_succ]

theorem nameUnits_cons : nameUnits (c :: name) = encodeUtf16 c ++ nameUnits name := rfl

theorem isSecondHalf_head (name : Name) : isSecondHalf ((nameUnits name).getD 0 0) = false := by
  cases name with
  | nil => rfl
  | cons c =>
    rw [nameUnits_cons]
    rcases encodeUtf16_cases c with ⟨henc, hsurrogate, -⟩ | ⟨hi, lo, henc, hhi, -⟩
    · rw [henc]
      simp only [isSurrogate, decide_eq_false_iff_not] at hsurrogate
      simp only [isSecondHalf, decide_eq_false_iff_not, cons_append, getD_cons_zero]
      omega
    · rw [henc]
      simp only [isSecondHalf, decide_eq_false_iff_not, cons_append, getD_cons_zero]
      omega

/-- The pieces give the name back if none of them starts with a second half, and otherwise something
    longer. -/
def Reassembles (r : Nat) (name : Name) : Prop :=
  (WholeFrom r (nameUnits name) ∧ assembleFrom r (nameUnits name) = name) ∨
    (¬ WholeFrom r (nameUnits name) ∧ name.length < (assembleFrom r (nameUnits name)).length)

theorem Reassembles.length_le (h : Reassembles r name) :
    name.length ≤ (assembleFrom r (nameUnits name)).length := by
  rcases h with ⟨-, heq⟩ | ⟨-, hlt⟩
  · exact Nat.le_of_eq (by rw [heq])
  · exact Nat.le_of_lt hlt

theorem Reassembles.cons (hr : r ≤ 12) (ih : ∀ r' ≤ 13, Reassembles r' name) :
    Reassembles (r + 1) (c :: name) := by
  have hunits : nameUnits (c :: name) = encodeUtf16 c ++ nameUnits name := nameUnits_cons
  rcases encodeUtf16_cases c with ⟨henc, hsurrogate, -⟩ | ⟨hi, lo, henc, hhi, hlo, hchar⟩
  · rw [henc, singleton_append] at hunits
    have hstep : assembleFrom (r + 1) (c.toNat :: nameUnits name)
        = Char.ofNat c.toNat :: assembleFrom r (nameUnits name) := by
      rw [assembleFrom, take_succ_cons, decodeUtf16_unit hsurrogate]
      rfl
    rw [Reassembles, hunits, wholeFrom_cons, hstep, Char.ofNat_toNat, cons_inj_right,
      length_cons, length_cons, Nat.add_lt_add_iff_right]
    exact ih r (by omega)
  · rw [henc, cons_append, singleton_append] at hunits
    cases r with
    | zero =>
      -- the piece ends between the halves
      right
      rw [hunits, assembleFrom_split hhi hlo]
      refine ⟨fun hwhole => ?_, ?_⟩
      · have hlow := hwhole 0
        simp only [isSecondHalf, decide_eq_false_iff_not] at hlow
        exact hlow hlo
      · have hle := (ih 12 (by decide)).length_le
        simp only [length_cons]
        omega
    | succ r =>
      have hstep : assembleFrom (r + 2) (hi :: lo :: nameUnits name)
          = Char.ofNat (0x10000 + (hi - 0xD800) * 0x400 + (lo - 0xDC00)) ::
            assembleFrom r (nameUnits name) := by
        rw [assembleFrom, take_succ_cons, take_succ_cons, drop_succ_cons, drop_succ_cons,
          decodeUtf16_pair hhi hlo]
        rfl
      rw [hchar, Char.ofNat_toNat] at hstep
      rw [Reassembles, hunits, wholeFrom_cons, wholeFrom_cons, hstep, cons_inj_right,
        length_cons, length_cons, Nat.add_lt_add_iff_right]
      exact ih r (by omega)

theorem reassembles (name : Name) (hr : r ≤ 13) : Reassembles r name := by
  induction name generalizing r with
  | nil =>
    refine .inl ⟨fun k => ?_, ?_⟩
    · simp [nameUnits, isSecondHalf]
    · rw [assembleFrom, nameUnits, flatMap_nil, take_nil, drop_nil]
      rfl
  | cons c name ih =>
    cases r with
    | zero =>
      rw [Reassembles, assembleFrom_zero, wholeFrom_zero (isSecondHalf_head (c :: name))]
      exact Reassembles.cons (by decide) fun r' hr' => ih hr'
    | succ => exact Reassembles.cons (by omega) fun r' hr' => ih hr'

/-- No piece of the name starts with the second half of a character. -/
def Whole (name : Name) : Prop := ∀ k, isSecondHalf ((nameUnits name).getD (13 * k) 0) = false

theorem whole_iff : Whole name ↔ WholeFrom 13 (nameUnits name) := by
  rw [← wholeFrom_zero (isSecondHalf_head name)]
  simp only [Whole, WholeFrom, Nat.zero_add]

instance : Decidable (Whole name) :=
  decidable_of_iff (∀ k < (nameUnits name).length,
    isSecondHalf ((nameUnits name).getD (13 * k) 0) = false) <| by
    refine ⟨fun h k => ?_, fun h k _ => h k⟩
    by_cases hk : k < (nameUnits name).length
    · exact h k hk
    · rw [getD_eq_getElem?_getD, List.getElem?_eq_none (by omega)]
      rfl

/-- What is assembled, with a rest of something else behind it, is the name exactly if there is no
    such rest and no character is cut in two. -/
theorem assemble_append_eq_iff :
    assemble (nameUnits name) ++ lfn = name ↔ lfn = [] ∧ Whole name := by
  rw [assemble_eq, whole_iff]
  rcases reassembles name (Nat.le_refl 13) with ⟨hwhole, heq⟩ | ⟨hcut, hlt⟩
  · rw [heq]
    simp [hwhole]
  · simp only [hcut, and_false, iff_false]
    intro heq
    have hlen := congrArg List.length heq
    rw [length_append] at hlen
    omega

/-! ## Directory entries -/

/-- A unit, little-endian. -/
def unitBytes (u : Nat) : List UInt8 := [UInt8.ofNat (u % 0x100), UInt8.ofNat (u / 0x100)]

/-- An entry with 13 units of a long name. -/
def lfnEntry (order checksum : UInt8) (units : List Nat) : DirectoryEntry :=
  ⟨order :: (units.take 5).flatMap unitBytes ++ [0x0F, 0x00, checksum] ++
    ((units.drop 5).take 6).flatMap unitBytes ++ [0x00, 0x00] ++
    (units.drop 11).flatMap unitBytes, true⟩

/-- The last piece ends with a zero, if there is room for it, and the rest is filled up. -/
def padPiece (piece : List Nat) : List Nat :=
  if piece.length < 13 then piece ++ 0 :: replicate (12 - piece.length) 0xFFFF else piece

/-- The number of a piece, with the mark of the last one. -/
def lfnOrder (i n : Nat) : UInt8 := UInt8.ofNat (if i + 1 = n then i + 1 + 0x40 else i + 1)

/-- The entries of a long name as they are stored. -/
def longEntries (checksum : UInt8) (units : List Nat) : List DirectoryEntry :=
  ((lfnPieces units).mapIdx fun i piece =>
    lfnEntry (lfnOrder i (lfnPieces units).length) checksum (padPiece piece)).reverse

variable {order checksum : UInt8}

theorem lfnChars_lfnEntry (hlen : units.length = 13) (hunits : ∀ u ∈ units, u < 0x10000) :
    (lfnEntry order checksum units).lfnChars = units := by
  match units, hlen, hunits with
  | [u0, u1, u2, u3, u4, u5, u6, u7, u8, u9, u10, u11, u12], _, hunits =>
    have hall : ∀ u ∈ [u0, u1, u2, u3, u4, u5, u6, u7, u8, u9, u10, u11, u12],
        (UInt8.ofNat (u % 0x100)).toNat + 0x100 * (UInt8.ofNat (u / 0x100)).toNat = u := by
      intro u hu
      have hlt := hunits u hu
      rw [UInt8.toNat_ofNat', UInt8.toNat_ofNat']
      omega
    exact (map_congr_left hall).trans (map_id _)

theorem lfnEntry_fields (hlen : units.length = 13) :
    (lfnEntry order checksum units).first = order.toNat ∧
      (lfnEntry order checksum units).attributes = 0x0F := by
  match units, hlen with
  | [_, _, _, _, _, _, _, _, _, _, _, _, _], _ => exact ⟨rfl, rfl⟩

theorem length_padPiece (h : units.length ≤ 13) : (padPiece units).length = 13 := by
  unfold padPiece
  split
  · rw [length_append, length_cons, length_replicate]
    omega
  · omega

theorem lt_of_mem_padPiece (h : ∀ u ∈ units, u < 0x10000) : ∀ u ∈ padPiece units, u < 0x10000 := by
  unfold padPiece
  split
  · refine forall_mem_append.2 ⟨h, forall_mem_cons.2 ⟨by decide, fun u hu => ?_⟩⟩
    rw [eq_of_mem_replicate hu]
    decide
  · exact h

theorem takeWhile_padPiece (h : ∀ u ∈ units, u ≠ 0) :
    (padPiece units).takeWhile (· ≠ 0) = units := by
  have hall : ∀ u ∈ units, decide (u ≠ 0) = true := fun u hu => decide_eq_true (h u hu)
  unfold padPiece
  split
  · rw [takeWhile_append_of_pos hall, takeWhile_cons_of_neg (by simp), append_nil]
  · have hself : (units ++ []).takeWhile (· ≠ 0) = units ++ [].takeWhile (· ≠ 0) :=
      takeWhile_append_of_pos hall
    rwa [takeWhile_nil, append_nil] at hself

/-- The entry has a part of a long name. -/
structure IsLong (e : DirectoryEntry) : Prop where
  notLast : e.isLast = false
  used : e.first ≠ 0xE5
  attributes : e.attributes = 0x0F

/-- The entry is that of a file or a folder. -/
structure IsLive (e : DirectoryEntry) : Prop where
  notLast : e.isLast = false
  used : e.first ≠ 0xE5
  attributes : e.attributes ≠ 0x0F

theorem named_of_isLong (h : ∀ e ∈ es, IsLong e) :
    named (es ++ post) lfn = named post (es.reverse.flatMap longNamePart ++ lfn) := by
  induction es generalizing lfn with
  | nil => rfl
  | cons e es ih =>
    obtain ⟨he, hrest⟩ := forall_mem_cons.1 h
    rw [cons_append, named, he.notLast, if_neg Bool.false_ne_true, if_neg he.used,
      if_pos he.attributes, ih hrest, reverse_cons, flatMap_append,
      flatMap_singleton, append_assoc]

theorem flatMap_mapIdx {α β γ : Type} {l : List α} {f : Nat → α → β} {g : β → List γ}
    {k : α → List γ} (h : ∀ i, ∀ x ∈ l, g (f i x) = k x) :
    (l.mapIdx f).flatMap g = l.flatMap k := by
  induction l generalizing f with
  | nil => rfl
  | cons x l ih =>
    obtain ⟨hx, hl⟩ : g (f 0 x) = k x ∧ ∀ i, ∀ y ∈ l, g (f (i + 1) y) = k y :=
      ⟨h 0 x mem_cons_self, fun i y hy => h (i + 1) y (.tail x hy)⟩
    rw [mapIdx_cons, flatMap_cons, flatMap_cons, hx, ih hl]

theorem mem_lfnPieces {piece : List Nat} (h : piece ∈ lfnPieces units) :
    piece.length ≤ 13 ∧ ∀ u ∈ piece, u ∈ units := by
  obtain ⟨i, -, rfl⟩ := mem_map.1 h
  exact ⟨length_take_le _ _, fun u hu => mem_of_mem_drop (mem_of_mem_take hu)⟩

theorem lfnOrder_ne {i n : Nat} (hi : i < n) (hn : n ≤ 20) :
    (lfnOrder i n).toNat ≠ 0 ∧ (lfnOrder i n).toNat ≠ 0xE5 := by
  rw [lfnOrder, UInt8.toNat_ofNat']
  split <;> omega

theorem isLong_of_mem (hlen : units.length ≤ 255) (h : e ∈ longEntries checksum units) :
    IsLong e := by
  have hcount : (lfnPieces units).length ≤ 20 := by
    rw [lfnPieces, length_map, length_range]
    omega
  obtain ⟨i, hi, rfl⟩ := mem_mapIdx.1 (mem_reverse.1 h)
  obtain ⟨hpiece, -⟩ := mem_lfnPieces (getElem_mem hi)
  obtain ⟨hfirst, hattributes⟩ := lfnEntry_fields (length_padPiece hpiece)
  obtain ⟨hzero, hused⟩ := lfnOrder_ne hi hcount
  exact ⟨decide_eq_false (by rwa [hfirst]), by rwa [hfirst], hattributes⟩

theorem nameUnits_lt (hzero : Char.ofNat 0 ∉ name) : ∀ u ∈ nameUnits name, u ≠ 0 ∧ u < 0x10000 := by
  intro u hu
  obtain ⟨c, hc, hu⟩ := mem_flatMap.1 hu
  rcases encodeUtf16_cases c with ⟨henc, -, hlt⟩ | ⟨hi, lo, henc, hhi, hlo, -⟩
  · rw [henc, mem_singleton] at hu
    subst hu
    refine ⟨fun hnul => hzero ?_, hlt⟩
    rw [← hnul, Char.ofNat_toNat]
    exact hc
  · rw [henc] at hu
    simp only [mem_cons, not_mem_nil, or_false] at hu
    omega

theorem named_longEntries (hlen : (nameUnits name).length ≤ 255) (hzero : Char.ofNat 0 ∉ name) :
    named (longEntries checksum (nameUnits name) ++ post) lfn
      = named post (assemble (nameUnits name) ++ lfn) := by
  rw [named_of_isLong fun e he => isLong_of_mem hlen he, longEntries, reverse_reverse,
    flatMap_mapIdx (k := decodeUtf16) fun i piece hpiece => ?_, assemble]
  obtain ⟨hpieceLen, hsub⟩ := mem_lfnPieces hpiece
  have hunits : ∀ u ∈ piece, u ≠ 0 ∧ u < 0x10000 := fun u hu => nameUnits_lt hzero u (hsub u hu)
  rw [longNamePart, lfnChars_lfnEntry (length_padPiece hpieceLen)
    (lt_of_mem_padPiece fun u hu => (hunits u hu).2),
    takeWhile_padPiece fun u hu => (hunits u hu).1]

theorem named_live (h : IsLive e) (hlfn : lfn ≠ []) : named (e :: post) lfn
    = if isDots lfn then named post [] else (lfn, e) :: named post [] := by
  have hname : e.nameWith lfn = lfn := if_neg hlfn
  rw [named, h.notLast, if_neg Bool.false_ne_true, if_neg h.used, if_neg h.attributes, hname]

theorem assemble_ne_nil (h : name ≠ []) : assemble (nameUnits name) ++ lfn ≠ [] := by
  have hle := (reassembles name (Nat.le_refl 13)).length_le
  have hpos := length_pos_iff.2 h
  rw [← assemble_eq] at hle
  intro heq
  rw [(append_eq_nil_iff.1 heq).1] at hle
  exact absurd (Nat.lt_of_lt_of_le hpos hle) (by simp)

/-! ## Directories with long names -/

namespace FAT

variable {fat : FAT} {r : Listing × FAT}

/-- A directory with the entries `es` is read, with the result `r`. -/
inductive DirectoryRead (fat : FAT) : List DirectoryEntry → Listing × FAT → Prop where
  | clusters {fuel c : Nat} {es : List DirectoryEntry} {r : Listing × FAT}
      (hwalk : fat.walk fuel c = some es) (hok : fat.readDirectory fuel c = .ok r) :
      DirectoryRead fat es r
  | root {fuel : Nat} {es : List DirectoryEntry} {r : Listing × FAT}
      (hwalk : fat.rootWalk fuel = some es) (hok : fat.readRoot fuel = .ok r) :
      DirectoryRead fat es r

theorem DirectoryRead.readTo (h : fat.Cached) (hread : fat.DirectoryRead es r) :
    ReadTo r fat es noEntries [] := by
  cases hread with
  | clusters hwalk hok =>
    obtain ⟨-, es', hes', hr⟩ := (readDirectory_exact h _ _).of_ok hok
    obtain rfl := Option.some.inj (hwalk.symm.trans hes')
    exact hr
  | root hwalk hok =>
    obtain ⟨-, es', hes', hr⟩ := (readRoot_exact h).of_ok hok
    obtain rfl := Option.some.inj (hwalk.symm.trans hes')
    exact hr

/-- Reading a directory inserts the names of `named` for their entries, one after the other. For an
    entry with a long name this is the name exactly if no piece of it starts with the second half of
    a character, and there are no parts of another name in front of it. -/
theorem longName_listed_iff {checksum : UInt8} (h : fat.Cached) (hread : fat.DirectoryRead es r)
    (hes : es = pre ++ (longEntries checksum (nameUnits name) ++ short :: post))
    (hpre : pre.any isLast = false) (hne : name ≠ [])
    (hlen : (nameUnits name).length ≤ 255) (hzero : Char.ofNat 0 ∉ name)
    (hdots : isDots name = false) (hlive : IsLive short) :
    ReadTo r fat es noEntries [] ∧
      (named es [] = named pre [] ++ (name, short) :: named post [] ↔
        lfnAfter pre [] = [] ∧ Whole name) := by
  refine ⟨hread.readTo h, ?_⟩
  rw [hes, named_append hpre, named_longEntries hlen hzero, named_live hlive (assemble_ne_nil hne),
    append_cancel_left_eq, ← assemble_append_eq_iff]
  constructor
  · intro heq
    split at heq
    · have hcount := congrArg List.length heq
      rw [length_cons] at hcount
      omega
    · exact (Prod.mk.inj (List.cons.inj heq).1).1
  · intro heq
    rw [heq, hdots]
    rfl

/-! ### A name in a root directory -/

/-- The entry of the file with the long name. -/
def longShort : DirectoryEntry :=
  ⟨entryBytes "LONGNA~1TXT".toUTF8.toList 0x20 2 [5, 0, 0, 0], true⟩

/-- An image with a long name in its root directory. -/
def longImage (name : Name) : Nat → List UInt8
  | 0 => bootBytes
  | 21 => (longEntries 0 (nameUnits name)).flatMap DirectoryEntry.bytes ++ longShort.bytes
  | _ => []

def longVolume (name : Name) : FAT :=
  unmounted (.start (.ofImage (longImage name))) 0 1 1
    ⟨512, 1, 1, 1, 16, 5000, 20, 0⟩ .fat16 Nat.one_pos

/-- The entries of its root directory. -/
def longRoot (name : Name) : List DirectoryEntry := (longVolume name).sectorEntries 21 1

/-- A name in two pieces. -/
def twoPieces : Name := "Eine 🦀 ist hier.txt".toList

theorem twoPieces_values :
    (longVolume twoPieces).rootWalk 0 = some (longRoot twoPieces) ∧
    longRoot twoPieces = [] ++ (longEntries 0 (nameUnits twoPieces) ++
      longShort :: (longRoot twoPieces).drop 3) ∧
    ((nameUnits twoPieces).length ≤ 255 ∧ Char.ofNat 0 ∉ twoPieces ∧ isDots twoPieces = false ∧
      Whole twoPieces) ∧
    longShort.isLast = false ∧ longShort.first ≠ 0xE5 ∧ longShort.attributes ≠ 0x0F := by
  decide +kernel

theorem twoPieces_listed : ∃ r, (longVolume twoPieces).DirectoryRead (longRoot twoPieces) r ∧
    ReadTo r (longVolume twoPieces) (longRoot twoPieces) noEntries [] ∧
    named (longRoot twoPieces) [] = named [] [] ++
      (twoPieces, longShort) :: named ((longRoot twoPieces).drop 3) [] := by
  obtain ⟨hwalk, hes, ⟨hlen, hzero, hdots, hwhole⟩, hlast, hused, hattributes⟩ := twoPieces_values
  have hcached : (longVolume twoPieces).Cached := cached_unmounted fun _ => rfl
  obtain ⟨r, hok, -⟩ := (readRoot_exact hcached).returns (by rw [hwalk]; rfl)
  obtain ⟨hr, hiff⟩ := longName_listed_iff hcached (.root hwalk hok) hes rfl
    (cons_ne_nil _ _) hlen hzero hdots ⟨hlast, hused, hattributes⟩
  exact ⟨r, .root hwalk hok, hr, hiff.2 ⟨rfl, hwhole⟩⟩

/-- The last character has the units 12 and 13, which are in different pieces. -/
def cutName : Name := "zwölf Zeiche🦀".toList

/-- What it is listed as. -/
def cutListed : Name := "zwölf Zeiche".toList ++ [replacement, replacement]

theorem cutName_damaged :
    longRoot cutName = longEntries 0 (nameUnits cutName) ++ longShort :: (longRoot cutName).drop 3 ∧
    named (longRoot cutName) [] ≠ (cutName, longShort) :: named ((longRoot cutName).drop 3) [] ∧
    ((longVolume cutName).readRoot (m := Run) 0).toOption.map
      (fun r => (r.1 cutName, r.1 cutListed)) = some (none, some 1) := by
  decide +kernel

end FAT

end Fioxa.Fs
