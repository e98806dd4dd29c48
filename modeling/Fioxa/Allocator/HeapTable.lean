import Fioxa.Allocator.Slab
import Fioxa.Paging.StoredTables

/-! # The table of the kernel heap

`KERNEL_HEAP_MAP` together with the frames of the pages that it maps. An address is looked up by its
three lower indices only, that is by its page within the 512 GiB of a slot: two addresses that are a
multiple of 512 GiB apart have the same entry. `Holds w root c` says that the tables store a tree,
and that the frames in use are those of the tables and of the mapped pages, each of them once.
Mapping a new page and freeing a mapped one keep it. -/

namespace Fioxa.Allocator

open Paging Paging.TableFrames Radix Radix.Tree Nat Heap

/-- The page of an address within its slot. -/
def slotPage (address : Nat) : Nat := address / 0x1000 % 0x8000000

theorem agree_addressKey_iff {a b : Nat} :
    Agree 0 3 (addressKey a) (addressKey b) ↔ slotPage a = slotPage b := by
  unfold slotPage
  constructor
  · intro h
    have h0 := congrArg Fin.val (h 0 (by decide) (by decide))
    have h1 := congrArg Fin.val (h 1 (by decide) (by decide))
    have h2 := congrArg Fin.val (h 2 (by decide) (by decide))
    simp only [addressKey_val, shiftRight_eq_div_pow] at h0 h1 h2
    omega
  · intro h m _ hm
    apply Fin.ext
    rw [addressKey_val, addressKey_val, shiftRight_eq_div_pow, shiftRight_eq_div_pow]
    match m, hm with
    | 0, _ => omega
    | 1, _ => omega
    | 2, _ => omega

theorem exists_addressKey (k : Nat → Fin 512) : ∃ a, Agree 0 3 k (addressKey a) := by
  refine ⟨0x1000 * (k 0).val + 0x200000 * (k 1).val + 0x40000000 * (k 2).val, ?_⟩
  have h0 := (k 0).isLt
  have h1 := (k 1).isLt
  have h2 := (k 2).isLt
  intro m _ hm
  apply Fin.ext
  rw [addressKey_val, shiftRight_eq_div_pow]
  match m, hm with
  | 0, _ => omega
  | 1, _ => omega
  | 2, _ => omega

variable {w w' : TableFrames} {root a base : Nat} {c : Fin 512 → PageTree 2}

/-- What the address is mapped to, a leaf of the tree. -/
def mappingAt (root : Nat) (c : Fin 512 → PageTree 2) (a : Nat) : Option (Nat × Mapping) :=
  lookup (addressKey a) (.table root c)

/-- The frame is that of a mapped page. -/
def Data (root : Nat) (c : Fin 512 → PageTree 2) (f : Nat) : Prop :=
  ∃ k r, lookup k (.table root c) = some r ∧ r.2.1 = f

/-- The frames are in use by the tables, or mapped, each of them once; the allocator has others. -/
structure Holds (w : TableFrames) (root : Nat) (c : Fin 512 → PageTree 2) : Prop where
  store : w.Store root c (Data root c)
  unshared : ∀ k k' r r', lookup k (.table root c) = some r → lookup k' (.table root c) = some r' →
    r.2.1 = r'.2.1 → Agree 0 3 k k'
  leaf : ∀ k r, lookup k (.table root c) = some r → r.1 = 0 ∧ r.2.2 = ⟨true, false⟩

namespace Holds

variable {v p : Page} {c' : Fin 512 → PageTree 2}

theorem withSupply {supply : List Nat} (h : Holds w root c) (hnodup : supply.Nodup)
    (hfresh : ∀ f ∈ supply, f ∉ w.used ∧ TableSystem.frameOk f = true) :
    Holds { w with supply := supply } root c :=
  { h with store := h.store.withSupply hnodup hfresh }

open scoped Classical in
/-- A page is mapped to the frame `p`, which was not in use. -/
theorem maps (h : Holds w root c) (hp : p.address ∉ w.used)
    (hstore : w'.Store root c' fun f => f = p.address ∨ Data root c f)
    (hnone : lookup (addressKey v.address) (.table root c) = none)
    (hlookup : ∀ k, lookup k (.table root c') = if Agree 0 3 (addressKey v.address) k
      then some (0, p.address, ⟨true, false⟩) else lookup k (.table root c)) :
    Holds w' root c' := by
  have hdata : ∀ k r, lookup k (.table root c) = some r → r.2.1 ≠ p.address :=
    fun k r hk heq => hp ((h.store.used _).2 (.inr ⟨k, r, hk, heq⟩))
  have hcases : ∀ k r, lookup k (.table root c') = some r →
      Agree 0 3 (addressKey v.address) k ∧ r = (0, p.address, ⟨true, false⟩) ∨
        lookup k (.table root c) = some r := by
    intro k r hk
    rw [hlookup] at hk
    split at hk
    · rename_i hagree
      exact .inl ⟨hagree, (Option.some.inj hk).symm⟩
    · exact .inr hk
  have hold : ∀ k r, lookup k (.table root c) = some r → lookup k (.table root c') = some r := by
    intro k r hk
    rw [hlookup, if_neg fun hagree => ?_, hk]
    rw [← (congr_of_agree hagree).1, hnone] at hk
    cases hk
  refine ⟨hstore.congr fun f => ⟨?_, ?_⟩, fun k k' r r' hk hk' heq => ?_, fun k r hk => ?_⟩
  · rintro (rfl | ⟨k, r, hk, hf⟩)
    · exact ⟨_, _, (hlookup _).trans (if_pos fun _ _ _ => rfl), rfl⟩
    · exact ⟨k, r, hold k r hk, hf⟩
  · rintro ⟨k, r, hk, rfl⟩
    rcases hcases k r hk with ⟨-, rfl⟩ | hk
    · exact .inl rfl
    · exact .inr ⟨k, r, hk, rfl⟩
  · rcases hcases k r hk with ⟨hagree, rfl⟩ | hk <;>
      rcases hcases k' r' hk' with ⟨hagree', rfl⟩ | hk'
    · exact fun j hj hlt => (hagree j hj hlt).symm.trans (hagree' j hj hlt)
    · exact absurd heq.symm (hdata k' r' hk')
    · exact absurd heq (hdata k r hk)
    · exact h.unshared k k' r r' hk hk' heq
  · rcases hcases k r hk with ⟨-, rfl⟩ | hk
    · exact ⟨rfl, rfl⟩
    · exact h.leaf k r hk

open scoped Classical in
theorem unmaps {r : Nat × Mapping} (h : Holds w root c)
    (hr : lookup (addressKey v.address) (.table root c) = some r)
    (hstore : w'.Store root c' (Data root c))
    (hlookup : ∀ k, lookup k (.table root c') = if Agree 0 3 (addressKey v.address) k then none
      else lookup k (.table root c)) : Holds (w'.freePage r.2.1) root c' := by
  have hold : ∀ k r', lookup k (.table root c') = some r' ↔
      lookup k (.table root c) = some r' ∧ r'.2.1 ≠ r.2.1 := by
    intro k r'
    rw [hlookup]
    by_cases hagree : Agree 0 3 (addressKey v.address) k
    · rw [if_pos hagree, ← (congr_of_agree hagree).1, hr]
      simp only [reduceCtorEq, Option.some.injEq, false_iff, not_and, not_not]
      rintro rfl
      rfl
    · rw [if_neg hagree, and_iff_left_of_imp fun hk heq => hagree ?_]
      exact h.unshared _ k r r' hr hk heq.symm
  refine ⟨(hstore.free ⟨_, r, hr, rfl⟩).congr fun f => ⟨?_, ?_⟩, fun k k' r1 r2 hk hk' => ?_,
    fun k r' hk => h.leaf k r' ((hold k r').1 hk).1⟩
  · rintro ⟨hne, k, r', hk, rfl⟩
    exact ⟨k, r', (hold k r').2 ⟨hk, hne⟩, rfl⟩
  · rintro ⟨k, r', hk, rfl⟩
    exact ⟨((hold k r').1 hk).2, k, r', ((hold k r').1 hk).1, rfl⟩
  · exact h.unshared k k' r1 r2 ((hold k r1).1 hk).1 ((hold k' r2).1 hk').1

/-! ## One page -/

theorem mappingAt_congr {b : Nat} (heq : slotPage a = slotPage b) :
    mappingAt root c a = mappingAt root c b :=
  (congr_of_agree (agree_addressKey_iff.2 heq)).1

/-- A page is mapped if its entry is free, and if there are frames for it and for the tables on the
    way. -/
theorem mapPage_cases (h : Holds w root c) :
    (mapPage w root v.address = none ∧
        ((mappingAt root c v.address).isSome ∨ w.supply.length < 3)) ∨
      ∃ w' c', mapPage w root v.address = some w' ∧ Holds w' root c' ∧
        mappingAt root c v.address = none ∧
        ∀ a, (mappingAt root c' a).isSome ↔
          (mappingAt root c a).isSome ∨ slotPage a = slotPage v.address := by
  cases hsupply : w.supply with
  | nil =>
    refine .inl ⟨?_, .inr (by simp)⟩
    simp only [mapPage, TableFrames.allocatePage, hsupply]
    rfl
  | cons frame rest =>
    obtain ⟨hfresh, hok⟩ := h.store.supply_fresh frame (hsupply ▸ .head _)
    obtain ⟨p, rfl⟩ : ∃ p : Page, p.address = frame := ⟨⟨frame, (of_decide_eq_true hok).1⟩, rfl⟩
    have hpage : mapPage w root v.address =
        (TableFrames.map 2 ⟨Function.update w.entry p.address fun _ => .zero,
          p.address :: w.used, rest⟩ root v p ⟨true, false⟩).bind unwrapFlusher := by
      simp only [mapPage, TableFrames.allocatePage, hsupply, Option.bind_eq_bind,
        Option.bind_some, Page.new_address]
    have hstore := h.store.allocate hsupply
    rw [hpage]
    cases hr : lookup (addressKey v.address) (.table root c) with
    | some r =>
      obtain ⟨m, q⟩ := r
      obtain rfl : m = 0 := (h.leaf _ _ hr).1
      rw [hstore.stored.map_of_lookup hr]
      exact .inl ⟨rfl, .inl (Option.isSome_iff_exists.2 ⟨_, hr⟩)⟩
    | none =>
      rcases hstore.map_cases hok hr with ⟨hnone, hlt⟩ | ⟨w', c', hmap, hstore', hlookup⟩
      · rw [hnone]
        exact .inl ⟨rfl, .inr (succ_lt_succ hlt)⟩
      · rw [hmap]
        refine .inr ⟨w', c', rfl, h.maps hfresh hstore' hr hlookup, hr, fun a => ?_⟩
        rw [mappingAt, hlookup, agree_addressKey_iff, eq_comm (a := slotPage a)]
        by_cases heq : slotPage v.address = slotPage a
        · simp [heq]
        · rw [if_neg heq, or_iff_left heq]
          rfl

theorem exists_page_of_mapPage (h : mapPage w root base = some w') :
    ∃ v : Page, v.address = base := by
  obtain ⟨_, -, h⟩ := Option.bind_eq_some_iff.1 h
  obtain ⟨_, -, h⟩ := Option.bind_eq_some_iff.1 h
  obtain ⟨v, hv, -⟩ := Option.bind_eq_some_iff.1 h
  refine ⟨v, ?_⟩
  unfold Page.new at hv
  split at hv
  · cases hv
    rfl
  · cases hv

theorem unmapPage_eq_some (h : Holds w root c) (hmapped : (mappingAt root c v.address).isSome) :
    ∃ w' c', unmapPage w root v.address = some w' ∧ Holds w' root c' ∧
      ∀ a, (mappingAt root c' a).isSome ↔
        (mappingAt root c a).isSome ∧ slotPage a ≠ slotPage v.address := by
  obtain ⟨⟨n, q⟩, hr⟩ := Option.isSome_iff_exists.1 hmapped
  have hr : lookup (addressKey v.address) (.table root c) = some (n, q) := hr
  obtain rfl : n = 0 := (h.leaf _ _ hr).1
  obtain ⟨w', c', hunmap, hstore, hlookup⟩ := h.store.unmap hr
  have hok := h.store.ok q.1 ((h.store.used _).2 (.inr ⟨_, _, hr, rfl⟩))
  have hnew : Page.new q.1 = some ⟨q.1, (of_decide_eq_true hok).1⟩ := dif_pos _
  have hsmall : ∀ r ∈ lookup (addressKey v.address) (.table root c), r.1 = 0 :=
    fun r hr => (h.leaf _ r hr).1
  refine ⟨w'.freePage q.1, c', ?_, h.unmaps hr hstore hlookup, fun a => ?_⟩
  · simp only [unmapPage, Option.bind_eq_bind, Option.bind_some, Page.new_address,
      h.store.stored.addressOf_eq hsmall, hr, Option.elim_some, hnew, Option.map_some, hunmap,
      unwrapFlusher]
    rfl
  · rw [mappingAt, hlookup, agree_addressKey_iff, ne_comm]
    by_cases heq : slotPage v.address = slotPage a
    · simp [heq]
    · rw [if_neg heq, and_iff_left heq]
      rfl

/-! ## Consecutive pages -/

variable {n : Nat}

theorem mapPages_eq_some (h : Holds w root c) (hok : Heap.mapPages root n w base = some w') :
    ∃ c', Holds w' root c' ∧
      (∀ a, (mappingAt root c' a).isSome ↔
        (mappingAt root c a).isSome ∨ ∃ j < n, slotPage a = slotPage (base + 0x1000 * j)) ∧
      (∀ j < n, mappingAt root c (base + 0x1000 * j) = none) ∧
      ∀ i j, i < j → j < n → slotPage (base + 0x1000 * i) ≠ slotPage (base + 0x1000 * j) := by
  induction n generalizing w c base with
  | zero =>
    cases hok
    exact ⟨c, h, by simp, by simp, by simp⟩
  | succ n ih =>
    obtain ⟨w1, hfirst, hrest⟩ := Option.bind_eq_some_iff.1 hok
    obtain ⟨v, rfl⟩ := exists_page_of_mapPage hfirst
    rcases h.mapPage_cases with ⟨hnone, -⟩ | ⟨w2, c1, hsome, h₁, hfree, hmap⟩
    · rw [hnone] at hfirst
      cases hfirst
    obtain rfl := Option.some.inj (hsome.symm.trans hfirst)
    obtain ⟨c', h', hmap', hfree', hne⟩ := ih h₁ hrest
    have hshift : ∀ j, v.address + 0x1000 + 0x1000 * j = v.address + 0x1000 * (j + 1) := by
      intro j
      omega
    simp only [hshift] at hmap' hfree' hne
    refine ⟨c', h', ?_, ?_, ?_⟩
    · intro a
      rw [hmap', hmap, or_assoc, exists_lt_succ_left]
      rfl
    · rw [forall_lt_succ_left]
      refine ⟨hfree, fun j hj => ?_⟩
      by_contra hsome
      have hmapped := (hmap (v.address + 0x1000 * (j + 1))).2
        (.inl (Option.isSome_iff_ne_none.2 hsome))
      rw [hfree' j hj] at hmapped
      cases hmapped
    · intro i j hij hj heq
      obtain ⟨j, rfl⟩ : ∃ k, j = k + 1 := ⟨j - 1, by omega⟩
      have hj' : j < n := by omega
      cases i with
      | zero =>
        have hmapped := (hmap (v.address + 0x1000 * (j + 1))).2 (.inr heq.symm)
        rw [hfree' j hj'] at hmapped
        cases hmapped
      | succ i => exact hne i j (by omega) hj' heq

theorem unmapPages_eq_some (h : Holds w root c)
    (hpages : ∀ j < n, pageOk (base + 0x1000 * j) = true)
    (hmapped : ∀ j < n, (mappingAt root c (base + 0x1000 * j)).isSome)
    (hne : ∀ i j, i < j → j < n → slotPage (base + 0x1000 * i) ≠ slotPage (base + 0x1000 * j)) :
    ∃ w' c', Heap.unmapPages root n w base = some w' ∧ Holds w' root c' ∧
      ∀ a, (mappingAt root c' a).isSome ↔
        (mappingAt root c a).isSome ∧ ∀ j < n, slotPage a ≠ slotPage (base + 0x1000 * j) := by
  induction n generalizing w c base with
  | zero => exact ⟨w, c, rfl, h, by simp⟩
  | succ n ih =>
    rw [forall_lt_succ_left] at hpages hmapped
    obtain ⟨w1, c1, hfirst, h₁, hmap⟩ :=
      h.unmapPage_eq_some (v := ⟨base, hpages.1⟩) hmapped.1
    have hshift : ∀ j, base + 0x1000 + 0x1000 * j = base + 0x1000 * (j + 1) := by
      intro j
      omega
    have hpages' : ∀ j < n, pageOk (base + 0x1000 + 0x1000 * j) = true := by
      intro j hj
      rw [hshift]
      exact hpages.2 j hj
    have hmapped' : ∀ j < n, (mappingAt root c1 (base + 0x1000 + 0x1000 * j)).isSome := by
      intro j hj
      rw [hshift, hmap]
      exact ⟨hmapped.2 j hj, (hne 0 (j + 1) (by omega) (by omega)).symm⟩
    have hne' : ∀ i j, i < j → j < n →
        slotPage (base + 0x1000 + 0x1000 * i) ≠ slotPage (base + 0x1000 + 0x1000 * j) := by
      intro i j hij hj
      rw [hshift, hshift]
      exact hne (i + 1) (j + 1) (by omega) (by omega)
    obtain ⟨w', c', hrest, h', hmap'⟩ := ih h₁ hpages' hmapped' hne'
    simp only [hshift] at hmap'
    refine ⟨w', c', ?_, h', fun a => ?_⟩
    · exact Option.bind_eq_some_iff.2 ⟨w1, hfirst, hrest⟩
    · rw [hmap', hmap, and_assoc, forall_lt_succ_left]
      rfl

end Holds

end Fioxa.Allocator
