import Fioxa.Elf.Load

/-! # Copying into a mapping

The copy of a segment writes to a mapping whose pages come into being on the way. Its state is
described in closed form (`Filled`): how many pages it has taken from the allocator, which are the
first pages of the mapping in this order, and what they hold. A byte that is stored either goes to a
page that is mapped already, or causes the page fault that adds the next one; the copy as a whole
follows by induction on its bytes. -/

namespace Fioxa.Elf

open Faults Paging List Option Nat PageMapperManager Function
open TableSystem (frameOk)

/-- The number of pages that `n` bytes touch, the first of which is `shift` bytes into its page. -/
def touched (shift n : Nat) : Nat := if n = 0 then 0 else (shift + n - 1) / 0x1000 + 1

/-- The pages of a mapping of `n` pages, the first `t` of which have been allocated. -/
def usedPages (supply : List Nat) (t n : Nat) : List (Option Nat) :=
  (List.range n).map fun k => if k < t then supply[k]? else none

/-- The bytes of a mapping into which `done` has been copied. -/
def image (shift : Nat) (done : List UInt8) (offset : Nat) : UInt8 :=
  if offset < shift then 0 else done[offset - shift]?.getD 0

section

variable {supply : List Nat} {t n k shift offset page : Nat} {done : List UInt8} {b : UInt8}

theorem getElem?_usedPages (hk : k < n) :
    (usedPages supply t n)[k]? = some (if k < t then supply[k]? else none) := by
  simp [usedPages, hk]

theorem usedPages_zero : usedPages supply 0 n = replicate n none := by
  simp [usedPages, map_const']

theorem set_usedPages (ht : supply[t]? = some page) :
    (usedPages supply t n).set t (some page) = usedPages supply (t + 1) n := by
  apply ext_getElem?
  intro k
  rw [List.getElem?_set]
  by_cases hk : k < n
  · rw [getElem?_usedPages hk, getElem?_usedPages hk]
    by_cases htk : t = k
    · subst htk
      simp [usedPages, hk, ht]
    · rw [if_neg htk]
      congr 2
      simp only [eq_iff_iff]
      omega
  · have hnone : ∀ u, (usedPages supply u n)[k]? = none := by
      intro u
      simpa [usedPages] using hk
    rw [hnone, hnone]
    simp only [ite_eq_right_iff, usedPages, length_map, length_range]
    intro htk hlt
    omega

theorem image_nil : image shift [] = fun _ => 0 := by
  funext offset
  simp [image]

theorem image_eq_zero (h : shift + done.length ≤ offset) : image shift done offset = 0 := by
  unfold image
  split
  · rfl
  · rw [List.getElem?_eq_none (by omega), getD_none]

theorem update_image :
    update (image shift done) (shift + done.length) b = image shift (done ++ [b]) := by
  funext offset
  by_cases h : offset = shift + done.length
  · subst h
    rw [update_self, image, if_neg (by omega), Nat.add_sub_cancel_left,
      List.getElem?_concat_length, getD_some]
  · rw [update_of_ne h]
    unfold image
    split
    · rfl
    · congr 1
      rcases Nat.lt_or_gt_of_ne h with hlt | hgt
      · rw [List.getElem?_append_left (by omega)]
      · rw [List.getElem?_eq_none (by omega), List.getElem?_eq_none]
        simp only [length_append, length_singleton]
        omega

theorem touched_succ : touched shift (n + 1) = (shift + n) / 0x1000 + 1 := by
  simp [touched, ← Nat.add_assoc]

theorem touched_bounds (hshift : shift < 0x1000) :
    (shift + n) / 0x1000 ≤ touched shift n ∧ touched shift n ≤ (shift + n) / 0x1000 + 1 := by
  unfold touched
  split <;> omega

theorem le_touched (shift n : Nat) : shift + n ≤ 0x1000 * touched shift n ∨ n = 0 := by
  unfold touched
  split <;> omega

end

namespace Loading

/-! ## The state of a copy -/

/-- `s` differs from `s₀` in the mapping `object`: the first `t` pages that the allocator had are
    its first pages, and its bytes are given by `img`. -/
structure Filled (s₀ : Loading) (object size t : Nat) (img : Nat → UInt8) (s : Loading) : Prop where
  enough : t ≤ s₀.supply.length
  supply : s.supply = s₀.supply.drop t
  heap : s.heap = s₀.heap
  process : s.process = s₀.process
  objects : s.objects = s₀.objects.set object
    ⟨size, .lazyMapping (usedPages s₀.supply t (pageCount size))⟩
  others : ∀ a, (∀ page ∈ s₀.supply.take t, a < page ∨ page + 0x1000 ≤ a) → s.bytes a = s₀.bytes a
  written : ∀ k page i, k < t → s₀.supply[k]? = some page → i < 0x1000 →
    s.bytes (page + i) = img (0x1000 * k + i)

/-- The mapping is in the address space of the loader, at `r`, and the pages it has are mapped. -/
structure Copied (s₀ : Loading) (r : MappedRange) (t : Nat) (img : Nat → UInt8) (s : Loading) :
    Prop extends Filled s₀ r.object (r.stop - r.start) t img s where
  mappings : s.loader.mappings = s₀.loader.mappings
  mapped : ∀ k page, k < t → s₀.supply[k]? = some page →
    s.loader.pageMapper (r.start + 0x1000 * k) = some (page, r.flags)
  unmapped : ∀ v, (∀ k < t, v ≠ r.start + 0x1000 * k) →
    s.loader.pageMapper v = s₀.loader.pageMapper v

/-- The state in which a new mapping has been inserted at `r`. -/
structure Opened (s : Loading) (r : MappedRange) : Prop where
  ordered : Ordered s.loader.mappings
  mem : r ∈ s.loader.mappings
  nodup : s.supply.Nodup
  ok : ∀ page ∈ s.supply, frameOk page = true
  unmapped : ∀ v, r.start ≤ v → v < r.stop → s.loader.pageMapper v = none
  object : s.objects[r.object]? = some (.newLazy (r.stop - r.start))

variable {s₀ s s' : Loading} {r : MappedRange} {t object size k page i off shift : Nat}
  {img : Nat → UInt8} {b : UInt8}

/-- Pages are aligned, so that an address of one is below or above all of another. -/
theorem apart_of_frameOk {q : Nat} (hne : page ≠ q) (hpage : frameOk page = true)
    (hq : frameOk q = true) (hi : i < 0x1000) : page + i < q ∨ q + 0x1000 ≤ page + i := by
  have hp := pageOk_iff.1 (frameOk_iff.1 hpage).1
  have hq' := pageOk_iff.1 (frameOk_iff.1 hq).1
  omega

theorem Opened.init (h : Opened s r) : Copied s r 0 (fun _ => 0) s where
  enough := Nat.zero_le _
  supply := rfl
  heap := rfl
  process := rfl
  objects := by
    obtain ⟨hlt, hget⟩ := List.getElem?_eq_some_iff.1 h.object
    rw [usedPages_zero]
    show s.objects = s.objects.set r.object (.newLazy (r.stop - r.start))
    rw [← hget, set_getElem_self]
  others _ _ := rfl
  written _ _ _ hk := absurd hk (Nat.not_lt_zero _)
  mappings := rfl
  mapped _ _ hk := absurd hk (Nat.not_lt_zero _)
  unmapped _ _ := rfl

/-! ## One byte -/

theorem Filled.poke (h : Filled s₀ object size t img s) (hnodup : s₀.supply.Nodup)
    (hok : ∀ page ∈ s₀.supply, frameOk page = true) (hk : k < t)
    (hpage : s₀.supply[k]? = some page) (hi : i < 0x1000) :
    Filled s₀ object size t (update img (0x1000 * k + i) b) (s.poke (page + i) b) where
  enough := h.enough
  supply := h.supply
  heap := h.heap
  process := h.process
  objects := h.objects
  others a ha := by
    have hmem : page ∈ s₀.supply.take t :=
      mem_of_getElem? ((List.getElem?_take_of_lt hk).trans hpage)
    have hne : a ≠ page + i := by
      have := ha page hmem
      omega
    show update s.bytes (page + i) b a = _
    rw [update_of_ne hne, h.others a ha]
  written k' page' i' hk' hpage' hi' := by
    show update s.bytes (page + i) b (page' + i') = _
    by_cases hkk : k' = k
    · subst hkk
      rw [hpage', Option.some.injEq] at hpage
      subst hpage
      by_cases hii : i' = i
      · subst hii
        rw [update_self, update_self]
      · rw [update_of_ne (by omega), update_of_ne (by omega)]
        exact h.written k' page' i' hk' hpage' hi'
    · have hpp : page' ≠ page := by
        rintro rfl
        exact hkk ((List.getElem?_inj (Nat.lt_of_lt_of_le hk' h.enough) hnodup).1
          (hpage'.trans hpage.symm))
      have hapart := apart_of_frameOk hpp (hok _ (mem_of_getElem? hpage'))
        (hok _ (mem_of_getElem? hpage)) hi'
      rw [update_of_ne (by omega), update_of_ne (by omega)]
      exact h.written k' page' i' hk' hpage' hi'

theorem Filled.allocate {u : Loading} (h : Filled s₀ object size t img s)
    (hnodup : s₀.supply.Nodup) (hok : ∀ page ∈ s₀.supply, frameOk page = true)
    (hpage : s₀.supply[t]? = some page) (himg : ∀ i < 0x1000, img (0x1000 * t + i) = 0)
    (hbytes : u.bytes = fun a => if page ≤ a ∧ a < page + 0x1000 then 0 else s.bytes a)
    (hsupply : u.supply = s₀.supply.drop (t + 1)) (hheap : u.heap = s.heap)
    (hprocess : u.process = s.process)
    (hobjects : u.objects = s.objects.set object
      ⟨size, .lazyMapping ((usedPages s₀.supply t (pageCount size)).set t (some page))⟩) :
    Filled s₀ object size (t + 1) img u where
  enough := (List.getElem?_eq_some_iff.1 hpage).1
  supply := hsupply
  heap := hheap.trans h.heap
  process := hprocess.trans h.process
  objects := by rw [hobjects, h.objects, set_set, set_usedPages hpage]
  others a ha := by
    have hlast : page ∈ s₀.supply.take (t + 1) :=
      mem_of_getElem? ((List.getElem?_take_of_lt (lt_succ_self t)).trans hpage)
    have hapart := ha page hlast
    have hless : ∀ q ∈ s₀.supply.take t, a < q ∨ q + 0x1000 ≤ a := fun q hq =>
      ha q ((take_sublist_take_left (le_succ t)).subset hq)
    simp only [hbytes]
    rw [if_neg (by omega), h.others a hless]
  written k page' i hk hpage' hi := by
    simp only [hbytes]
    rcases Nat.lt_succ_iff_lt_or_eq.1 hk with hk | rfl
    · have hpp : page' ≠ page := by
        rintro rfl
        have hkt := (List.getElem?_inj (Nat.lt_of_lt_of_le hk h.enough) hnodup).1
          (hpage'.trans hpage.symm)
        omega
      have hp' := pageOk_iff.1 (frameOk_iff.1 (hok _ (mem_of_getElem? hpage'))).1
      have hp := pageOk_iff.1 (frameOk_iff.1 (hok _ (mem_of_getElem? hpage))).1
      rw [if_neg (by omega)]
      exact h.written k page' i hk hpage' hi
    · rw [hpage', Option.some.injEq] at hpage
      subst hpage
      rw [if_pos (by omega), himg i hi]

/-- The state after `page` has become page `t` of the mapping at `r`, which is mapped there. -/
def addPage (s : Loading) (r : MappedRange) (supply : List Nat) (pages : List (Option Nat))
    (t page : Nat) : Loading :=
  let table := update s.loader.pageMapper (r.start + 0x1000 * t) (some (page, r.flags))
  { s with
    bytes := fun a => if page ≤ a ∧ a < page + 0x1000 then 0 else s.bytes a
    supply := supply
    objects := s.objects.set r.object ⟨r.stop - r.start, .lazyMapping (pages.set t (some page))⟩
    loader := { s.loader with pageMapper := table } }

theorem Copied.addPage (h : Copied s₀ r t img s) (hop : Opened s₀ r)
    (hpage : s₀.supply[t]? = some page) (himg : ∀ i < 0x1000, img (0x1000 * t + i) = 0) :
    Copied s₀ r (t + 1) img (s.addPage r (s₀.supply.drop (t + 1))
      (usedPages s₀.supply t (pageCount (r.stop - r.start))) t page) where
  toFilled := h.toFilled.allocate hop.nodup hop.ok hpage himg rfl rfl rfl rfl rfl
  mappings := h.mappings
  mapped k page' hk hpage' := by
    show update _ _ _ _ = _
    rcases Nat.lt_succ_iff_lt_or_eq.1 hk with hk | rfl
    · rw [update_of_ne (by omega)]
      exact h.mapped k page' hk hpage'
    · rw [hpage, Option.some.injEq] at hpage'
      rw [update_self, hpage']
  unmapped v hv := by
    show update _ _ _ _ = _
    rw [update_of_ne (hv t (lt_succ_self t))]
    exact h.unmapped v fun k hk => hv k (lt_succ_of_lt hk)

/-- The page fault on the first page that has not been used: it needs a page from the allocator, and
    an address that the handler serves. -/
theorem Copied.pageFault (hop : Opened s₀ r) (h : Copied s₀ r t img s)
    (hoff : off < r.stop - r.start) (ht : off / 0x1000 = t) :
    s.pageFault (r.start + off) =
      if r.start + off ≤ endUserMem ∧ pageOk (r.start + 0x1000 * t) = true then
        s₀.supply[t]?.map (s.addPage r (s₀.supply.drop (t + 1))
          (usedPages s₀.supply t (pageCount (r.stop - r.start))) t)
      else none := by
  have halign := (hop.ordered.valid r hop.mem).start_aligned
  have hbase : pageBase (r.start + off) = r.start + 0x1000 * t := by
    unfold pageBase
    omega
  have hcount : t < pageCount (r.stop - r.start) := by
    unfold pageCount
    omega
  have hnone : s.loader.pageMapper (r.start + 0x1000 * t) = none := by
    rw [h.unmapped _ (by omega), hop.unmapped _ (by omega) (by omega)]
  by_cases huser : r.start + off ≤ endUserMem
  · have hfaulting : s.loader.faulting (r.start + off) = some r :=
      faulting_of_mem (h.mappings ▸ hop.ordered) (h.mappings ▸ hop.mem) (by omega) (by omega) huser
    have hobject : s.objects[r.object]? = some ⟨r.stop - r.start,
        .lazyMapping (usedPages s₀.supply t (pageCount (r.stop - r.start)))⟩ := by
      rw [h.objects, List.getElem?_set_self (List.getElem?_eq_some_iff.1 hop.object).1]
    have hslot : (usedPages s₀.supply t (pageCount (r.stop - r.start)))[t]? = some none := by
      rw [getElem?_usedPages hcount, if_neg (Nat.lt_irrefl t)]
    by_cases hlt : t < s₀.supply.length
    · have hsupply : s.supply = s₀.supply[t] :: s₀.supply.drop (t + 1) := by
        rw [h.supply, drop_eq_getElem_cons hlt]
      simp only [Loading.pageFault, hfaulting, faultPage, hobject, Nat.add_sub_cancel_left, ht,
        hslot, allocatePage, hsupply, map_some, bind_eq_bind, bind_some,
        mapFault, hbase, Option.pure_def, List.getElem?_eq_getElem hlt]
      by_cases hpage : pageOk (r.start + 0x1000 * t) = true
      · have hmap : s.loader.map (r.start + 0x1000 * t) s₀.supply[t] r.flags = some (.ok _) :=
          map_eq_ok_iff.2 ⟨hpage, hop.ok _ (getElem_mem hlt), hnone, rfl⟩
        simp only [hmap, huser, hpage, and_self, if_true, bind_some]
        rfl
      · have hmap : s.loader.map (r.start + 0x1000 * t) s₀.supply[t] r.flags = none :=
          if_neg fun hok => hpage hok.1
        simp only [hmap, bind_none]
        rw [if_neg fun hok => hpage hok.2]
    · have hsupply : s.supply = [] := by
        rw [h.supply, drop_eq_nil_iff]
        omega
      simp only [Loading.pageFault, hfaulting, faultPage, hobject, Nat.add_sub_cancel_left, ht,
        hslot, allocatePage, hsupply, map_none, bind_eq_bind, bind_some,
        bind_none, List.getElem?_eq_none (Nat.not_lt.1 hlt), ite_self]
  · have hfaulting : s.loader.faulting (r.start + off) = none := if_pos (Nat.lt_of_not_le huser)
    simp only [Loading.pageFault, hfaulting, bind_eq_bind, bind_none]
    rw [if_neg fun hok => huser hok.1]

theorem Copied.poke (h : Copied s₀ r t img s) (hop : Opened s₀ r) (hk : off / 0x1000 < t)
    (hpage : s₀.supply[off / 0x1000]? = some page) :
    Copied s₀ r t (update img off b) (s.poke (page + off % 0x1000) b) where
  toFilled := by
    have hpoke := h.toFilled.poke (b := b) hop.nodup hop.ok hk hpage
      (mod_lt off (by decide : 0 < 0x1000))
    rwa [div_add_mod] at hpoke
  mappings := h.mappings
  mapped := h.mapped
  unmapped := h.unmapped

/-- A byte is stored when there is a page for it, in the part of memory that page faults are served
    in. -/
theorem Copied.store (hop : Opened s₀ r) (h : Copied s₀ r t img s) (hoff : off < r.stop - r.start)
    (ht : off / 0x1000 ≤ t) (himg : ∀ i, 0x1000 * t ≤ i → img i = 0)
    (hserved : ∀ k < t, r.start + 0x1000 * k ≤ endUserMem ∧ pageOk (r.start + 0x1000 * k) = true) :
    ((s.store (r.start + off) b).isSome ↔ r.start + off ≤ endUserMem ∧
      pageOk (r.start + 0x1000 * (off / 0x1000)) = true ∧ off / 0x1000 < s₀.supply.length) ∧
    ∀ s', s.store (r.start + off) b = some s' →
      Copied s₀ r (max t (off / 0x1000 + 1)) (update img off b) s' := by
  have halign := (hop.ordered.valid r hop.mem).start_aligned
  have hbase : pageBase (r.start + off) = r.start + 0x1000 * (off / 0x1000) := by
    unfold pageBase
    omega
  have hmod : (r.start + off) % 0x1000 = off % 0x1000 := by omega
  rcases Nat.lt_or_eq_of_le ht with hlt | heq
  · have hlen := Nat.lt_of_lt_of_le hlt h.enough
    have hpage := List.getElem?_eq_getElem hlen
    have hmapped := h.mapped _ _ hlt hpage
    have hstore : s.store (r.start + off) b
        = some (s.poke (s₀.supply[off / 0x1000] + off % 0x1000) b) := by
      simp only [Loading.store, hbase, hmapped, hmod]
    obtain ⟨hlow, hok⟩ := hserved _ hlt
    have huser : r.start + off ≤ endUserMem := by
      unfold endUserMem at *
      omega
    rw [hstore]
    refine ⟨⟨fun _ => ⟨huser, hok, hlen⟩, fun _ => rfl⟩, ?_⟩
    intro s' hs'
    cases hs'
    rw [Nat.max_eq_left hlt]
    exact h.poke hop hlt hpage
  · subst heq
    have hnone : s.loader.pageMapper (r.start + 0x1000 * (off / 0x1000)) = none := by
      rw [h.unmapped _ (by omega), hop.unmapped _ (by omega) (by omega)]
    rw [Loading.store, hbase, hnone]
    simp only [h.pageFault hop hoff rfl]
    by_cases hok : r.start + off ≤ endUserMem ∧
        pageOk (r.start + 0x1000 * (off / 0x1000)) = true
    · by_cases hlen : off / 0x1000 < s₀.supply.length
      · have hpage := List.getElem?_eq_getElem hlen
        have hadd := h.addPage hop hpage fun i _ => himg _ (Nat.le_add_right ..)
        have hmapped := hadd.mapped _ _ (lt_succ_self _) hpage
        rw [if_pos hok, hpage, map_some, bind_eq_bind, bind_some, hmapped, hmod]
        refine ⟨⟨fun _ => ⟨hok.1, hok.2, hlen⟩, fun _ => rfl⟩, ?_⟩
        intro s' hs'
        cases hs'
        rw [Nat.max_eq_right (le_succ _)]
        exact hadd.poke hop (lt_succ_self _) hpage
      · rw [if_pos hok, List.getElem?_eq_none (Nat.not_lt.1 hlen)]
        exact ⟨⟨nofun, fun hc => absurd hc.2.2 hlen⟩, nofun⟩
    · rw [if_neg hok]
      exact ⟨⟨nofun, fun hc => absurd ⟨hc.1, hc.2.1⟩ hok⟩, nofun⟩

/-! ## All bytes -/

/-- Page faults are served in the first `t` pages of the range. -/
def Served (r : MappedRange) (t : Nat) : Prop :=
  ∀ k < t, r.start + 0x1000 * k ≤ endUserMem ∧ pageOk (r.start + 0x1000 * k) = true

theorem Copied.copy {done : List UInt8} (bytes : List UInt8) (hop : Opened s₀ r)
    (hshift : shift < 0x1000)
    (h : Copied s₀ r (touched shift done.length) (image shift done) s)
    (hdone : Served r (touched shift done.length))
    (hfit : bytes = [] ∨ shift + (done.length + bytes.length) ≤ r.stop - r.start) :
    ((copyNonoverlapping bytes (r.start + shift + done.length) s).isSome ↔
      Served r (touched shift (done.length + bytes.length)) ∧
        touched shift (done.length + bytes.length) ≤ s₀.supply.length) ∧
    ∀ s', copyNonoverlapping bytes (r.start + shift + done.length) s = some s' →
      Copied s₀ r (touched shift (done.length + bytes.length)) (image shift (done ++ bytes))
        s' := by
  induction bytes generalizing done s with
  | nil =>
    refine ⟨⟨fun _ => ⟨hdone, h.enough⟩, fun _ => rfl⟩, ?_⟩
    intro s' hs'
    cases hs'
    rw [append_nil]
    exact h
  | cons b rest ih =>
    have halign := (hop.ordered.valid r hop.mem).start_aligned
    have hfit' : shift + (done.length + (rest.length + 1)) ≤ r.stop - r.start := by
      simpa using hfit
    obtain ⟨hbelow, habove⟩ := touched_bounds (n := done.length) hshift
    have haddr : r.start + shift + done.length = r.start + (shift + done.length) := by omega
    have hlen : done.length + (rest.length + 1) = done.length + 1 + rest.length := by omega
    have himg : ∀ i, 0x1000 * touched shift done.length ≤ i → image shift done i = 0 := by
      intro i hi
      rcases le_touched shift done.length with hle | hzero
      · exact image_eq_zero (Nat.le_trans hle hi)
      · rw [length_eq_zero_iff.1 hzero, image_nil]
    have hoff : shift + done.length < r.stop - r.start := by omega
    obtain ⟨hsome, hstep⟩ := h.store (b := b) hop hoff hbelow himg hdone
    rw [← haddr] at hsome hstep
    -- the page of this byte comes before those of the rest
    have hpage : (shift + done.length) / 0x1000
        < touched shift (done.length + 1 + rest.length) := by
      rw [← hlen, ← Nat.add_assoc, touched_succ]
      have := Nat.div_le_div_right (c := 0x1000)
        (Nat.add_le_add_left (Nat.le_add_right done.length rest.length) shift)
      omega
    rw [copyNonoverlapping, length_cons, hlen]
    cases hstore : s.store (r.start + shift + done.length) b with
    | none =>
      rw [hstore] at hsome
      refine ⟨⟨nofun, ?_⟩, nofun⟩
      rintro ⟨hserved, henough⟩
      obtain ⟨hlow, hok⟩ := hserved _ hpage
      refine absurd (hsome.2 ⟨?_, hok, by omega⟩) (by simp)
      unfold endUserMem at *
      omega
    | some s1 =>
      rw [hstore] at hsome
      obtain ⟨huser, hok, -⟩ := hsome.1 rfl
      have hnext := hstep s1 hstore
      have hmax : max (touched shift done.length) ((shift + done.length) / 0x1000 + 1)
          = touched shift (done ++ [b]).length := by
        rw [length_append, length_singleton, touched_succ]
        omega
      rw [hmax, update_image] at hnext
      have hserved : Served r (touched shift (done ++ [b]).length) := by
        intro k hk
        rw [← hmax] at hk
        by_cases hkd : k < touched shift done.length
        · exact hdone k hkd
        · have hkeq : k = (shift + done.length) / 0x1000 := by omega
          subst hkeq
          exact ⟨by omega, hok⟩
      have hcopy := ih hnext hserved (by
        right
        simp only [length_append, length_singleton]
        omega)
      simp only [length_append, length_singleton, append_assoc,
        singleton_append, ← Nat.add_assoc] at hcopy
      exact hcopy

end Loading

end Fioxa.Elf
