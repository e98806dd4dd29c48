import Mathlib.Algebra.GroupWithZero.Nat
import Fioxa.Paging.OffsetMap

/-! # Cutting a region into pages

`get_chunked_page_range` takes pages of 4 KiB off both ends of a region up to boundaries of 2 MiB,
then pages of 2 MiB up to boundaries of 1 GiB, and the rest is pages of 1 GiB. Each of the five
ranges tiles an interval, the intervals follow each other, and together they are the region. -/

namespace Fioxa.Paging

open List Nat

variable {size larger : PageSize} {start stop mid a b p : Nat} {r : PageRange}

namespace PageSize

theorem bytes_pos (size : PageSize) : 0 < size.bytes := by
  cases size <;> decide

theorem and_mask (size : PageSize) (a : Nat) : a &&& (size.bytes - 1) = a % size.bytes := by
  cases size with
  | size4KB => exact and_two_pow_sub_one_eq_mod a 12
  | size2MB => exact and_two_pow_sub_one_eq_mod a 21
  | size1GB => exact and_two_pow_sub_one_eq_mod a 30

end PageSize

theorem alignDown_eq : alignDown size a = a - a % size.bytes := by
  rw [alignDown, PageSize.and_mask]

/-! ## Tiles -/

/-- The ends of an interval are boundaries of pages, or it is empty. -/
def Bounded (size : PageSize) (start stop : Nat) : Prop :=
  start = stop ∨ start % size.bytes = 0 ∧ stop % size.bytes = 0

/-- The pages of a range are those in an interval. -/
structure Tiled (size : PageSize) (start stop : Nat) (r : PageRange) : Prop where
  bounded : Bounded size start stop
  aligned : r.base % size.bytes = 0
  ends : r.count = 0 ∧ start = stop ∨ r.base = start ∧ start + size.bytes * r.count = stop
  nodup : (r.pages size).Nodup
  mem_iff : ∀ p, p ∈ r.pages size ↔ start ≤ p ∧ p < stop ∧ p % size.bytes = 0

theorem tiled_empty : Tiled size start start .empty where
  bounded := .inl rfl
  aligned := zero_mod _
  ends := .inl ⟨rfl, rfl⟩
  nodup := nodup_nil
  mem_iff p := by
    show p ∈ [] ↔ _
    simp only [not_mem_nil, false_iff]
    omega

theorem add_mul_div (hle : start ≤ stop) (hb : Bounded size start stop) :
    start + size.bytes * ((stop - start) / size.bytes) = stop := by
  rcases hb with rfl | ⟨hstart, hstop⟩
  · simp
  · have hdvd : size.bytes ∣ stop - start :=
      Nat.dvd_sub (dvd_of_mod_eq_zero hstop) (dvd_of_mod_eq_zero hstart)
    rw [Nat.mul_div_cancel' hdvd]
    omega

theorem tiled_range (hle : start ≤ stop) (hb : Bounded size start stop)
    (haligned : start % size.bytes = 0) :
    Tiled size start stop ⟨start, (stop - start) / size.bytes⟩ where
  bounded := hb
  aligned := haligned
  ends := .inr ⟨rfl, add_mul_div hle hb⟩
  nodup := Span.nodup_span size.bytes_pos
  mem_iff p := by
    show p ∈ Span.span size.bytes start ((stop - start) / size.bytes) ↔ _
    rw [Span.mem_span]
    have hstop := add_mul_div hle hb
    constructor
    · rintro ⟨k, hk, rfl⟩
      have hmul : size.bytes * (k + 1) ≤ size.bytes * ((stop - start) / size.bytes) :=
        Nat.mul_le_mul_left _ hk
      have hpos := size.bytes_pos
      rw [mul_succ] at hmul
      refine ⟨Nat.le_add_right _ _, by omega, ?_⟩
      rw [add_mul_mod_self_left, haligned]
    · rintro ⟨hle, hlt, hmod⟩
      have hdvd : size.bytes ∣ p - start :=
        Nat.dvd_sub (dvd_of_mod_eq_zero hmod) (dvd_of_mod_eq_zero haligned)
      refine ⟨(p - start) / size.bytes, ?_, ?_⟩
      · by_contra hcon
        have hmul : size.bytes * ((stop - start) / size.bytes)
            ≤ size.bytes * ((p - start) / size.bytes) :=
          Nat.mul_le_mul_left _ (Nat.le_of_not_lt hcon)
        rw [Nat.mul_div_cancel' hdvd] at hmul
        omega
      · rw [Nat.mul_div_cancel' hdvd]
        omega

/-! ## Taking pages off the ends -/

theorem mod_of_dvd (hdvd : size.bytes ∣ larger.bytes) (ha : a % larger.bytes = 0) :
    a % size.bytes = 0 :=
  mod_eq_zero_of_dvd (Nat.dvd_trans hdvd (dvd_of_mod_eq_zero ha))

theorem takeFront_spec {c : Prop} [Decidable c] (hdvd : size.bytes ∣ larger.bytes)
    (hle : start ≤ stop) (hb : Bounded size start stop) (haligned : c → start % size.bytes = 0)
    (hc : ¬ c → start % larger.bytes = 0 ∨ start = stop) :
    ∃ r mid, whenNeeded c (takeFront size larger start stop) start = some (r, mid) ∧
      start ≤ mid ∧ mid ≤ stop ∧ Tiled size start mid r ∧
      (mid % larger.bytes = 0 ∨ mid = stop) := by
  by_cases hcond : c
  · have hnext : (start - start % larger.bytes + larger.bytes) % larger.bytes = 0 := by
      rw [add_mod_right]
      exact sub_mod_eq_zero_of_mod_eq (mod_mod _ _).symm
    have hmod := mod_lt start larger.bytes_pos
    have hfront : start ≤ min (alignDown larger start + larger.bytes) stop := by
      rw [alignDown_eq]
      omega
    have hend : min (alignDown larger start + larger.bytes) stop % larger.bytes = 0 ∨
        min (alignDown larger start + larger.bytes) stop = stop := by
      rw [alignDown_eq]
      rcases Nat.le_total (start - start % larger.bytes + larger.bytes) stop with h | h
      · rw [Nat.min_eq_left h]
        exact .inl hnext
      · exact .inr (Nat.min_eq_right h)
    refine ⟨_, min (alignDown larger start + larger.bytes) stop, ?_, hfront, Nat.min_le_right _ _,
      tiled_range hfront ?_ (haligned hcond), hend⟩
    · rw [whenNeeded, if_pos hcond, takeFront, if_pos hfront]
    · rcases hb with rfl | ⟨hstart, hstop⟩
      · exact .inl (Nat.le_antisymm hfront (Nat.min_le_right _ _))
      · refine .inr ⟨hstart, ?_⟩
        rcases hend with hend | hend
        · exact mod_of_dvd hdvd hend
        · rw [hend]
          exact hstop
  · rw [whenNeeded, if_neg hcond]
    exact ⟨.empty, start, rfl, Nat.le_refl _, hle, tiled_empty, hc hcond⟩

theorem takeBack_spec {c : Prop} [Decidable c] (hdvd : size.bytes ∣ larger.bytes)
    (hle : start ≤ stop) (hb : Bounded size start stop)
    (hfront : start % larger.bytes = 0 ∨ start = stop) (hpos : c → start ≠ stop)
    (hc : ¬ c → stop % larger.bytes = 0 ∨ start = stop) :
    ∃ r mid, whenNeeded c (takeBack size larger start stop) stop = some (r, mid) ∧
      start ≤ mid ∧ mid ≤ stop ∧ Tiled size mid stop r ∧
      (mid % larger.bytes = 0 ∨ start = mid) := by
  by_cases hcond : c
  · have hne := hpos hcond
    have haligned := hfront.resolve_right hne
    have hback : (stop - stop % larger.bytes) % larger.bytes = 0 :=
      sub_mod_eq_zero_of_mod_eq (mod_mod _ _).symm
    -- the boundary before `stop` is not before `start`, which is one itself
    have hbefore : start ≤ stop - stop % larger.bytes := by
      have hdiv := Nat.div_le_div_right (c := larger.bytes) hle
      have hmul := Nat.mul_le_mul_left larger.bytes hdiv
      have hstart := div_add_mod start larger.bytes
      have hstop := div_add_mod stop larger.bytes
      omega
    have hend : max (alignDown larger stop) start = stop - stop % larger.bytes := by
      rw [alignDown_eq]
      exact Nat.max_eq_left hbefore
    have hle' : max (alignDown larger stop) start ≤ stop := by
      rw [hend]
      exact sub_le _ _
    refine ⟨_, stop - stop % larger.bytes, ?_, hbefore, sub_le _ _,
      tiled_range (sub_le _ _) ?_ (mod_of_dvd hdvd hback), .inl hback⟩
    · rw [whenNeeded, if_pos hcond, takeBack, if_pos hle', hend]
    · rcases hb with heq | ⟨-, hstop⟩
      · exact absurd heq hne
      · exact .inr ⟨mod_of_dvd hdvd hback, hstop⟩
  · rw [whenNeeded, if_neg hcond]
    exact ⟨.empty, stop, rfl, hle, Nat.le_refl _, tiled_empty, hc hcond⟩

/-! ## The whole region -/

/-- The cuts of a region. -/
structure Cut (start stop : Nat) (c : Chunks) (a b b' a' : Nat) : Prop where
  s4kb : Tiled .size4KB start a c.s4kb
  s2mb : Tiled .size2MB a b c.s2mb
  gb : Tiled .size1GB b b' c.gb
  e2mb : Tiled .size2MB b' a' c.e2mb
  e4kb : Tiled .size4KB a' stop c.e4kb
  order : start ≤ a ∧ a ≤ b ∧ b ≤ b' ∧ b' ≤ a' ∧ a' ≤ stop

theorem getChunkedPageRange_cut (hstart : start % 0x1000 = 0) (hstop : stop % 0x1000 = 0)
    (hle : start ≤ stop) :
    ∃ c a b b' a', getChunkedPageRange start stop = some c ∧ Cut start stop c a b b' a' := by
  have h4 : PageSize.size4KB.bytes ∣ PageSize.size2MB.bytes := by decide
  have h2 : PageSize.size2MB.bytes ∣ PageSize.size1GB.bytes := by decide
  have hmask4 : ∀ x, x &&& 0xFFF = x % 0x1000 := PageSize.and_mask .size4KB
  have hmask2 : ∀ x, x &&& 0x1fffff = x % PageSize.size2MB.bytes := PageSize.and_mask .size2MB
  have hmask1 : ∀ x, x &&& 0x3fffffff = x % PageSize.size1GB.bytes := PageSize.and_mask .size1GB
  obtain ⟨s4kb, a, hs4, hsa, hat, hts4, ha⟩ := takeFront_spec h4 hle
    (c := 0 < start % PageSize.size2MB.bytes) (.inr ⟨hstart, hstop⟩) (fun _ => hstart)
    (fun hc => .inl (Nat.eq_zero_of_not_pos hc))
  have hba : Bounded .size4KB a stop := by
    rcases ha with ha | ha
    · exact .inr ⟨mod_of_dvd h4 ha, hstop⟩
    · exact .inl ha
  obtain ⟨e4kb, a', he4, haa', ha't, hte4, ha'⟩ := takeBack_spec h4 hat
    (c := 0 < stop % PageSize.size2MB.bytes ∧ a ≠ stop) hba ha And.right (by
      intro hc
      by_cases heq : a = stop
      · exact .inr heq
      · exact .inl (Nat.eq_zero_of_not_pos fun hpos => hc ⟨hpos, heq⟩))
  have hbaa' : Bounded .size2MB a a' := by
    rcases ha' with ha' | ha'
    · rcases ha with ha | ha
      · exact .inr ⟨ha, ha'⟩
      · exact .inl (by omega)
    · exact .inl ha'
  obtain ⟨s2mb, b, hs2, hab, hba', hts2, hb⟩ := takeFront_spec h2 haa'
    (c := 0 < a % PageSize.size1GB.bytes ∧ a ≠ a') hbaa'
    (fun hc => (hbaa'.resolve_left hc.2).1) (by
      intro hc
      by_cases heq : a = a'
      · exact .inr heq
      · exact .inl (Nat.eq_zero_of_not_pos fun hpos => hc ⟨hpos, heq⟩))
  have hbba' : Bounded .size2MB b a' := by
    rcases hb with hb | hb
    · rcases hbaa' with heq | ⟨-, ha'⟩
      · exact .inl (by omega)
      · exact .inr ⟨mod_of_dvd h2 hb, ha'⟩
    · exact .inl hb
  obtain ⟨e2mb, b', he2, hbb', hb'a', hte2, hb'⟩ := takeBack_spec h2 hba'
    (c := 0 < a' % PageSize.size1GB.bytes ∧ b ≠ a') hbba' hb And.right (by
      intro hc
      by_cases heq : b = a'
      · exact .inr heq
      · exact .inl (Nat.eq_zero_of_not_pos fun hpos => hc ⟨hpos, heq⟩))
  have hgb : Tiled .size1GB b b' (if b < b' ∧ b ≠ b' then
      ⟨b, (b' - b) / PageSize.size1GB.bytes⟩ else .empty) := by
    by_cases hlt : b < b'
    · rw [if_pos ⟨hlt, Nat.ne_of_lt hlt⟩]
      have hbase : b % PageSize.size1GB.bytes = 0 := hb.resolve_right (by omega)
      exact tiled_range hbb' (.inr ⟨hbase, hb'.resolve_right (Nat.ne_of_lt hlt)⟩) hbase
    · obtain rfl : b = b' := by omega
      rw [if_neg (fun hc => hlt hc.1)]
      exact tiled_empty
  refine ⟨⟨s4kb, s2mb, if b < b' ∧ b ≠ b' then ⟨b, (b' - b) / PageSize.size1GB.bytes⟩ else .empty,
    e2mb, e4kb⟩, a, b, b', a', ?_,
    ⟨hts4, hts2, hgb, hte2, hte4, hsa, hab, hbb', hb'a', ha't⟩⟩
  simp only [getChunkedPageRange, hmask4, hmask2, hmask1, hstart, hstop, and_self, if_true, hs4,
    Option.bind_eq_bind, Option.bind_some, he4, hs2, he2, Option.pure_def]

/-! ## Pages as intervals -/

/-- A page of some size covers an address. -/
def CoversAddress (x : PageSize × Nat) (a : Nat) : Prop := x.2 ≤ a ∧ a < x.2 + x.1.bytes

/-- Two pages have no address in common. -/
def DisjointPages (x y : PageSize × Nat) : Prop := ∀ a, CoversAddress x a → ¬ CoversAddress y a

/-- The pages are those of a set of addresses. -/
structure Partition (S : Nat → Prop) (pages : List (PageSize × Nat)) : Prop where
  aligned : ∀ x ∈ pages, x.2 % x.1.bytes = 0
  covers : ∀ a, (∃ x ∈ pages, CoversAddress x a) ↔ S a
  disjoint : pages.Pairwise DisjointPages

theorem Partition.nil : Partition (fun _ => False) [] where
  aligned x hx := by cases hx
  covers a := by simp
  disjoint := Pairwise.nil

variable {S : Nat → Prop} {l : List (PageSize × Nat)}

theorem Partition.append {T : Nat → Prop} {l' : List (PageSize × Nat)} (h : Partition S l)
    (h' : Partition T l') (hdisjoint : ∀ a, S a → ¬ T a) :
    Partition (fun a => S a ∨ T a) (l ++ l') where
  aligned x hx := (mem_append.1 hx).elim (h.aligned x) (h'.aligned x)
  covers a := by
    rw [← h.covers, ← h'.covers]
    constructor
    · rintro ⟨x, hx, ha⟩
      exact (mem_append.1 hx).imp (fun hx => ⟨x, hx, ha⟩) (fun hx => ⟨x, hx, ha⟩)
    · rintro (⟨x, hx, ha⟩ | ⟨x, hx, ha⟩)
      · exact ⟨x, mem_append_left _ hx, ha⟩
      · exact ⟨x, mem_append_right _ hx, ha⟩
  disjoint := by
    rw [pairwise_append]
    refine ⟨h.disjoint, h'.disjoint, fun x hx y hy a hxa hya => ?_⟩
    exact hdisjoint a ((h.covers a).1 ⟨x, hx, hxa⟩) ((h'.covers a).1 ⟨y, hy, hya⟩)

theorem Partition.congr {T : Nat → Prop} (h : Partition S l) (hST : ∀ a, S a ↔ T a) :
    Partition T l :=
  ⟨h.aligned, fun a => (h.covers a).trans (hST a), h.disjoint⟩

theorem Partition.mem {x : PageSize × Nat} (h : Partition S l) (hx : x ∈ l)
    (ha : CoversAddress x a) : S a :=
  (h.covers a).1 ⟨x, hx, ha⟩

theorem Tiled.partition (h : Tiled size start stop r) :
    Partition (fun a => start ≤ a ∧ a < stop) ((r.pages size).map fun p => (size, p)) where
  aligned x hx := by
    obtain ⟨p, hp, rfl⟩ := mem_map.1 hx
    exact ((h.mem_iff p).1 hp).2.2
  covers a := by
    have hpos := size.bytes_pos
    constructor
    · rintro ⟨x, hx, hle, hlt⟩
      obtain ⟨p, hp, rfl⟩ := mem_map.1 hx
      obtain ⟨hstart, hstop, hmod⟩ := (h.mem_iff p).1 hp
      simp only at hle hlt
      refine ⟨Nat.le_trans hstart hle, ?_⟩
      -- the page ends at or before `stop`, which is a boundary
      rcases h.bounded with heq | ⟨-, hend⟩
      · omega
      · have hdvd : size.bytes ∣ stop - p :=
          Nat.dvd_sub (dvd_of_mod_eq_zero hend) (dvd_of_mod_eq_zero hmod)
        have hnext := le_of_dvd (by omega) hdvd
        omega
    · rintro ⟨hstart, hstop⟩
      rcases h.bounded with heq | ⟨hbegin, -⟩
      · omega
      · have hmod := mod_lt a hpos
        have hdivmod := div_add_mod a size.bytes
        have hdiv := Nat.mul_le_mul_left size.bytes (Nat.div_le_div_right (c := size.bytes) hstart)
        have hbase := div_add_mod start size.bytes
        have hpage : size.bytes * (a / size.bytes) ∈ r.pages size :=
          (h.mem_iff _).2 ⟨by omega, by omega, mul_mod_right _ _⟩
        refine ⟨_, mem_map.2 ⟨_, hpage, rfl⟩, ?_, ?_⟩
        · show size.bytes * (a / size.bytes) ≤ a
          omega
        · show a < size.bytes * (a / size.bytes) + size.bytes
          omega
  disjoint := by
    rw [pairwise_map]
    refine Pairwise.imp_of_mem ?_ h.nodup
    intro p q hp hq hne a hpa hqa
    have hp' := dvd_of_mod_eq_zero ((h.mem_iff p).1 hp).2.2
    have hq' := dvd_of_mod_eq_zero ((h.mem_iff q).1 hq).2.2
    unfold CoversAddress at hpa hqa
    simp only at hpa hqa
    rcases Nat.lt_or_gt_of_ne hne with hlt | hlt
    · have hle := le_of_dvd (by omega) (Nat.dvd_sub hq' hp')
      omega
    · have hle := le_of_dvd (by omega) (Nat.dvd_sub hp' hq')
      omega

theorem Cut.partition {c : Chunks} {b' a' : Nat} (h : Cut start stop c a b b' a') :
    Partition (fun x => start ≤ x ∧ x < stop) c.pages := by
  obtain ⟨ho1, ho2, ho3, ho4, ho5⟩ := h.order
  have h4 := h.s4kb.partition.append h.e4kb.partition (by intro x; omega)
  have h2 := h.s2mb.partition.append h.e2mb.partition (by intro x; omega)
  have h42 := h4.append h2 (by intro x; omega)
  have hall := (h42.append h.gb.partition (by intro x; omega)).congr
    (T := fun x => start ≤ x ∧ x < stop) (by intro x; omega)
  rw [Chunks.pages, map_append, map_append]
  exact hall

theorem getChunkedPageRange_partition (hstart : start % 0x1000 = 0) (hstop : stop % 0x1000 = 0)
    (hle : start ≤ stop) : ∃ c, getChunkedPageRange start stop = some c ∧
      Partition (fun x => start ≤ x ∧ x < stop) c.pages := by
  obtain ⟨c, a, b, b', a', hc, hcut⟩ := getChunkedPageRange_cut hstart hstop hle
  exact ⟨c, hc, hcut.partition⟩

/-! ## The ranges as they are returned -/

open PageSize in
/-- The ranges in the order of their addresses. -/
def Chunks.inOrder (c : Chunks) : List (PageSize × PageRange) :=
  [(size4KB, c.s4kb), (size2MB, c.s2mb), (size1GB, c.gb), (size2MB, c.e2mb), (size4KB, c.e4kb)]

/-- Without the empty ones, the ranges follow each other from `start` to `stop`. -/
def Consecutive (stop : Nat) : Nat → List (PageSize × PageRange) → Prop
  | start, [] => start = stop
  | start, (size, r) :: rest =>
    if r.count = 0 then Consecutive stop start rest
    else r.base = start ∧ Consecutive stop (start + size.bytes * r.count) rest

theorem Tiled.consecutive {rest : List (PageSize × PageRange)} (h : Tiled size start mid r)
    (hrest : Consecutive stop mid rest) : Consecutive stop start ((size, r) :: rest) := by
  rw [Consecutive]
  split
  · rename_i hzero
    rcases h.ends with ⟨-, rfl⟩ | ⟨-, rfl⟩
    · exact hrest
    · rwa [hzero, Nat.mul_zero, Nat.add_zero] at hrest
  · rename_i hne
    rcases h.ends with ⟨hzero, -⟩ | ⟨hbase, rfl⟩
    · exact absurd hzero hne
    · exact ⟨hbase, hrest⟩

/-- A region that ends a page of 1 GiB below the end of memory is cut into consecutive ranges of
    aligned pages, and none of the sums that this takes overflows. -/
theorem getChunkedPageRange_consecutive (start stop : Nat) (hstart : start % 0x1000 = 0)
    (hstop : stop % 0x1000 = 0) (hle : start ≤ stop) (hmax : stop ≤ 2 ^ 64 - 2 ^ 30) :
    (∃ c, getChunkedPageRange start stop = some c ∧ Consecutive stop start c.inOrder ∧
      ∀ x ∈ c.inOrder, x.2.base % x.1.bytes = 0) ∧
    ∀ (larger : PageSize) (x : Nat), x ≤ stop → x % larger.bytes ≠ 0 →
      alignDown larger x + larger.bytes < 2 ^ 64 := by
  constructor
  · obtain ⟨c, a, b, b', a', hc, hcut⟩ := getChunkedPageRange_cut hstart hstop hle
    refine ⟨c, hc, ?_, ?_⟩
    · exact hcut.s4kb.consecutive (hcut.s2mb.consecutive (hcut.gb.consecutive
        (hcut.e2mb.consecutive (hcut.e4kb.consecutive rfl))))
    · intro x hx
      simp only [Chunks.inOrder, mem_cons, not_mem_nil, or_false] at hx
      rcases hx with rfl | rfl | rfl | rfl | rfl
      · exact hcut.s4kb.aligned
      · exact hcut.s2mb.aligned
      · exact hcut.gb.aligned
      · exact hcut.e2mb.aligned
      · exact hcut.e4kb.aligned
  · intro larger x hx hmod
    rw [alignDown_eq]
    cases larger with
    | size4KB | size2MB | size1GB =>
      simp only [PageSize.bytes] at hmod ⊢
      omega

/-- From 2 MiB - 4 KiB to 1 GiB + 4 KiB: pages of 4 KiB at both ends, and of 2 MiB between. -/
theorem getChunkedPageRange_consecutive_gib :
    getChunkedPageRange 0x1FF000 0x40001000
        = some ⟨⟨0x1FF000, 1⟩, ⟨0x200000, 511⟩, .empty, .empty, ⟨0x40000000, 1⟩⟩ ∧
      ∃ c, getChunkedPageRange 0x1FF000 0x40001000 = some c ∧
        Consecutive 0x40001000 0x1FF000 c.inOrder := by
  refine ⟨rfl, ?_⟩
  obtain ⟨⟨c, hc, hcons, -⟩, -⟩ := getChunkedPageRange_consecutive 0x1FF000 0x40001000 (by decide)
    (by decide) (by decide) (by decide)
  exact ⟨c, hc, hcons⟩

end Fioxa.Paging
