import Fioxa.Lib.RadixTree
import Fioxa.Paging.OffsetMap

/-! # Page tables store radix trees

`Stored w e x` says that the entry `e` and the tables below it store the tree `x`, whose leaves are
pages: a leaf of height 0, 1 or 2 is a page of 4 KiB, 2 MiB or 1 GiB. The functions on stored tables
are then those on trees: translation is `lookup`, mapping inserts a leaf, with the frames that the
allocator returns, and `unmap` is `erase`, which frees the frames of the tables that become empty. A
function leaves all frames outside the tree alone, and since the tables of a tree are apart, a
change below one entry of a table leaves what is below the other entries as it was. -/

namespace Fioxa.Paging

open Radix Radix.Tree TableSystem Function

/-- The address that a page is mapped to, and the permissions. -/
abbrev Mapping := Nat × MemoryMappingFlags

abbrev PageTree (n : Nat) := Tree Nat (Fin 512) Mapping n

namespace TableFrames

variable {w w' : TableFrames} {e : PageDirectoryEntry} {n m d f g a p : Nat} {x : PageTree n}
  {c : Fin 512 → PageTree n} {v : Page} {flags : MemoryMappingFlags} {i : Fin 512}

/-- The entry refers to the table in a frame and restricts nothing. -/
structure Link (e : PageDirectoryEntry) (frame : Nat) : Prop where
  present : e.present = true
  largerPages : e.largerPages = false
  readWrite : e.readWrite = true
  userSuper : e.userSuper = true
  address : e.getAddress = frame

/-- The entry of a table of level `n + 1` maps a page. -/
structure Leaf (n : Nat) (e : PageDirectoryEntry) (q : Mapping) : Prop where
  present : e.present = true
  largerPages : e.largerPages = decide (n ≠ 0)
  readWrite : e.readWrite = q.2.writeable
  userSuper : e.userSuper = q.2.userspace
  address : e.getAddress = q.1

def Stored (w : TableFrames) : {n : Nat} → PageDirectoryEntry → PageTree n → Prop
  | _, e, .empty => e.present = false
  | n, e, .leaf q => Leaf n e q
  | _, e, .table f c => Link e f ∧ ∀ i, Stored w (w.entry f i) (c i)

/-- The table in the frame stores these entries. -/
def Stores (w : TableFrames) (f : Nat) (c : Fin 512 → PageTree n) : Prop :=
  ∀ i, Stored w (w.entry f i) (c i)

theorem Stored.present_eq_false_iff (h : Stored w e x) : e.present = false ↔ x = .empty := by
  cases x with
  | empty => exact iff_of_true h rfl
  | leaf => simp [Leaf.present h]
  | table => simp [h.1.present]

theorem Stored.congr (h : Stored w e x) (hsame : ∀ g ∈ frames x, w'.entry g = w.entry g) :
    Stored w' e x := by
  induction x generalizing e with
  | empty | leaf => exact h
  | table f c ih =>
    refine ⟨h.1, fun i => ?_⟩
    rw [hsame f (.inl rfl)]
    exact ih i (h.2 i) fun g hg => hsame g (.inr ⟨i, hg⟩)

section

variable (hc : w.Stores f c)
include hc

theorem Stores.congr (hsame : ∀ g ∈ frames (.table f c), w'.entry g = w.entry g) :
    w'.Stores f c := by
  intro i
  rw [hsame f (.inl rfl)]
  exact (hc i).congr fun g hg => hsame g (.inr ⟨i, hg⟩)

theorem Stores.update (hi : Stored w' (w'.entry f i) x)
    (hf : ∀ j, j ≠ i → w'.entry f j = w.entry f j)
    (hsame : ∀ j, j ≠ i → ∀ g ∈ frames (c j), w'.entry g = w.entry g) :
    w'.Stores f (update c i x) := by
  intro j
  by_cases hji : j = i
  · subst hji
    rwa [update_self]
  · rw [update_of_ne hji, hf j hji]
    exact (hc j).congr (hsame j hji)

theorem Stores.absent (hx : c i = .empty) : (w.entry f i).present = false :=
  (hc i).present_eq_false_iff.2 hx

theorem Stores.leaf {q : Mapping} (hx : c i = .leaf q) : Leaf n (w.entry f i) q := by
  have hi := hc i
  rwa [hx] at hi

end

theorem Stores.link {c : Fin 512 → PageTree (n + 1)} {c' : Fin 512 → PageTree n}
    (hc : w.Stores f c) (hx : c i = .table g c') : Link (w.entry f i) g ∧ w.Stores g c' := by
  have hi := hc i
  rwa [hx] at hi

/-! ## Entries -/

theorem setEntry_self : (w.setEntry f i e).entry f i = e := by
  simp only [setEntry, update_self]

theorem setEntry_of_ne {j : Fin 512} (h : j ≠ i) : (w.setEntry f i e).entry f j = w.entry f j := by
  simp only [setEntry, update_self, update_of_ne h]

theorem setEntry_frame (h : g ≠ f) : (w.setEntry f i e).entry g = w.entry g := by
  simp only [setEntry, update_of_ne h]

theorem setAddress_frameOk (h : frameOk f = true) :
    ∃ e', e.setAddress f = some e' ∧ e' = { e with internalAddress := f >>> 12 } ∧
      e'.getAddress = f := by
  obtain ⟨hok, hlt⟩ := of_decide_eq_true h
  obtain ⟨halign, -, -⟩ := pageOk_iff.1 hok
  refine ⟨{ e with internalAddress := f >>> 12 }, ?_, rfl, ?_⟩
  · rw [PageDirectoryEntry.setAddress, if_pos]
    rw [Nat.shiftRight_eq_div_pow]
    omega
  · show (f >>> 12) <<< 12 = f
    rw [Nat.shiftRight_eq_div_pow, Nat.shiftLeft_eq]
    omega

theorem allocatePage_eq_some {rest : List Nat} (h : w.supply = g :: rest) : w.allocatePage
    = some (g, ⟨update w.entry g fun _ => .zero, g :: w.used, rest⟩) := by
  simp only [allocatePage, h]

/-! ## Translating -/

theorem Stores.translate_eq (hc : w.Stores f c) : w.translate n f a
    = (lookup (addressKey a) (.table f c)).map fun r => r.2.1 + a % entrySize r.1 := by
  induction n generalizing f with
  | zero =>
    rw [lookup]
    cases hx : c (addressKey a 0) with
    | empty => simp [translate, calculateIndex_succ, hc.absent hx]
    | leaf => simp [translate, calculateIndex_succ, (hc.leaf hx).present, (hc.leaf hx).address]
  | succ n ih =>
    rw [lookup]
    cases hx : c (addressKey a (n + 1)) with
    | empty => simp [translate, calculateIndex_succ, hc.absent hx]
    | leaf =>
      have hl := hc.leaf hx
      simp [translate, calculateIndex_succ, hl.present, hl.largerPages, hl.address]
    | table =>
      obtain ⟨hl, hc'⟩ := hc.link hx
      simp only [translate, calculateIndex_succ, hl.present, hl.largerPages, hl.address, ih hc']
      rfl

section

variable (hsmall : ∀ r ∈ lookup (addressKey v.address) (.table f c), r.1 = 0)
include hsmall

theorem Stores.walk_eq (hc : w.Stores f c) :
    w.walk n f v = (lookup (addressKey v.address) (.table f c)).map
      fun r => (r.2.1, r.2.2.writeable, r.2.2.userspace) := by
  induction n generalizing f with
  | zero =>
    rw [lookup]
    cases hx : c (addressKey v.address 0) with
    | empty => simp [walk, calculateIndex_succ, hc.absent hx]
    | leaf =>
      have hl := hc.leaf hx
      simp [walk, calculateIndex_succ, hl.present, hl.address, hl.readWrite, hl.userSuper]
  | succ n ih =>
    rw [lookup] at hsmall ⊢
    cases hx : c (addressKey v.address (n + 1)) with
    | empty => simp [walk, calculateIndex_succ, hc.absent hx]
    | leaf => exact absurd (hsmall _ (by rw [hx]; rfl)) (Nat.succ_ne_zero n)
    | table g c' =>
      obtain ⟨hl, hc'⟩ := hc.link hx
      simp only [walk, calculateIndex_succ, hl.present, hl.address, hl.readWrite, hl.userSuper,
        ih (hx ▸ hsmall) hc']
      cases lookup (addressKey v.address) (.table g c') <;> rfl

theorem Stores.addressOf_eq (hc : w.Stores f c) :
    w.addressOf n f v = (lookup (addressKey v.address) (.table f c)).elim (some none)
      fun r => (Page.new r.2.1).map some := by
  induction n generalizing f with
  | zero =>
    rw [lookup]
    cases hx : c (addressKey v.address 0) with
    | empty => simp [addressOf, addressOfInner, calculateIndex_succ, hc.absent hx]
    | leaf =>
      have hl := hc.leaf hx
      simp [addressOf, addressOfInner, calculateIndex_succ, hl.present, hl.largerPages, hl.address]
  | succ n ih =>
    rw [lookup] at hsmall ⊢
    cases hx : c (addressKey v.address (n + 1)) with
    | empty => simp [addressOf, calculateIndex_succ, hc.absent hx]
    | leaf => exact absurd (hsmall _ (by rw [hx]; rfl)) (Nat.succ_ne_zero n)
    | table =>
      obtain ⟨hl, hc'⟩ := hc.link hx
      simp only [addressOf, calculateIndex_succ, hl.present, hl.largerPages, hl.address,
        ih (hx ▸ hsmall) hc']
      rfl

theorem Stores.tablesOf_eq (hc : w.Stores f c) :
    w.tablesOf n f v = path (addressKey v.address) (.table f c) := by
  induction n generalizing f with
  | zero =>
    rw [path]
    cases c (addressKey v.address 0) <;> rfl
  | succ n ih =>
    rw [lookup] at hsmall
    rw [path]
    cases hx : c (addressKey v.address (n + 1)) with
    | empty => simp [tablesOf, calculateIndex_succ, hc.absent hx]
    | leaf => exact absurd (hsmall _ (by rw [hx]; rfl)) (Nat.succ_ne_zero n)
    | table =>
      obtain ⟨hl, hc'⟩ := hc.link hx
      simp only [tablesOf, calculateIndex_succ, hl.present, hl.address, ih (hx ▸ hsmall) hc']
      rfl

end

/-! ## Mapping -/

theorem Stores.map_of_lookup {q : Mapping} {p : Page} (hc : w.Stores f c)
    (hq : lookup (addressKey v.address) (.table f c) = some (0, q)) :
    w.map n f v p flags = some (.error (.memAlreadyMapped v.address p.address q.1), w) := by
  induction n generalizing f with
  | zero =>
    rw [lookup] at hq
    cases hx : c (addressKey v.address 0) with
    | empty =>
      rw [hx] at hq
      cases hq
    | leaf =>
      have hl := hc.leaf hx
      rw [hx] at hq
      cases hq
      simp [map, mapInner, calculateIndex_succ, hl.present, hl.address]
  | succ n ih =>
    rw [lookup] at hq
    cases hx : c (addressKey v.address (n + 1)) with
    | empty | leaf =>
      rw [hx] at hq
      cases hq
    | table =>
      obtain ⟨hl, hc'⟩ := hc.link hx
      simp only [map, calculateIndex_succ, hl.present, hl.largerPages, hl.address, ih hc' (hx ▸ hq)]
      rfl

/-- The frames that the allocator has are none of the tree and different from each other. -/
structure Supplied (w : TableFrames) (x : PageTree n) : Prop where
  nodup : w.supply.Nodup
  fresh : ∀ g ∈ w.supply, g ∉ frames x
  ok : ∀ g ∈ w.supply, frameOk g = true

/-- `w'` stores the tree `y` in the table `f`, and differs from `w` only in the tables of `y`. The
    allocator has handed out the frames `taken`. -/
structure Outcome (w : TableFrames) (f : Nat) (taken : List Nat) (y : PageTree (n + 1))
    (w' : TableFrames) : Prop where
  stored : ∃ c, y = .table f c ∧ w'.Stores f c
  others : ∀ g, g ∉ frames y → w'.entry g = w.entry g
  supply : w.supply = taken ++ w'.supply
  used : w'.used = taken.reverse ++ w.used

/-- A call for the table `g` below the entry `i` is a call for the table `f`. Before it, the entry
    may have been set (`w1`). -/
theorem Outcome.up {w1 : TableFrames} {c : Fin 512 → PageTree (n + 1)} {y : PageTree (n + 1)}
    {taken : List Nat} (hout : Outcome w1 g taken y w') (new : List Nat) (hc : w.Stores f c)
    (hapart : Apart (.table f c)) (hlink : Link (w1.entry f i) g)
    (hrow : ∀ j, j ≠ i → w1.entry f j = w.entry f j)
    (hbefore : ∀ h, h ≠ f → h ∉ frames y → w1.entry h = w.entry h)
    (hsupply : w.supply = new ++ w1.supply) (hused : w1.used = new.reverse ++ w.used)
    (hframes : ∀ h ∈ frames y, h ∈ frames (c i) ∨ h ∉ frames (.table f c)) :
    Outcome w f (new ++ taken) (.table f (update c i y)) w' := by
  obtain ⟨hsep, hdisjoint⟩ := hapart
  have hroot : f ∉ frames y := by
    intro hmem
    rcases hframes f hmem with hold | hnew
    · exact (hsep i).2 hold
    · exact hnew (.inl rfl)
  have hsibling : ∀ j, j ≠ i → ∀ h ∈ frames (c j), h ≠ f ∧ h ∉ frames y := by
    intro j hji h hh
    refine ⟨fun heq => (hsep j).2 (heq ▸ hh), fun hmem => ?_⟩
    rcases hframes h hmem with hold | hnew
    · exact hdisjoint j i hji h hh hold
    · exact hnew (.inr ⟨j, hh⟩)
  have hrow' : w'.entry f = w1.entry f := hout.others f hroot
  obtain ⟨c', rfl, hc'⟩ := hout.stored
  refine ⟨⟨_, rfl, hc.update ?_ ?_ ?_⟩, fun h hh => ?_, ?_, ?_⟩
  · rw [hrow']
    exact ⟨hlink, hc'⟩
  · intro j hji
    rw [hrow', hrow j hji]
  · intro j hji h hh
    obtain ⟨hne, hout'⟩ := hsibling j hji h hh
    rw [hout.others h hout', hbefore h hne hout']
  · rw [mem_frames_update] at hh
    have hnot : h ∉ frames (table g c') := fun hmem => hh (.inr (.inl hmem))
    rw [hout.others h hnot, hbefore h (fun heq => hh (.inl heq)) hnot]
  · rw [hsupply, hout.supply, List.append_assoc]
  · rw [hout.used, hused, List.reverse_append, List.append_assoc]

theorem mapInnerAt_of_empty {c : Fin 512 → PageTree m} (flags : MemoryMappingFlags)
    (hc : w.Stores f c) (hapart : Apart (.table f c)) (hp : frameOk p = true)
    (hx : c (addressKey a m) = .empty) :
    ∃ w', w.mapInnerAt (m + 1) f a p flags = some (.ok ⟨a⟩, w') ∧
      Outcome w f [] (.table f (update c (addressKey a m) (.leaf (p, flags)))) w' := by
  obtain ⟨e, he, heq, haddress⟩ := setAddress_frameOk (f := p)
    (e := { w.entry f (addressKey a m) with
      present := true
      largerPages := decide (m + 1 ≠ 1)
      readWrite := flags.writeable
      userSuper := flags.userspace }) hp
  refine ⟨w.setEntry f (addressKey a m) e, ?_, ⟨_, rfl, hc.update ?_ ?_ ?_⟩, ?_, rfl, rfl⟩
  · simp only [mapInnerAt, calculateIndex_succ, hc.absent hx, Bool.false_eq_true, if_false, he]
  · rw [setEntry_self]
    subst heq
    exact ⟨rfl, by simp, rfl, rfl, haddress⟩
  · intro j hj
    exact setEntry_of_ne hj
  · intro j _ g hg
    exact setEntry_frame fun heq => (hapart.1 j).2 (heq ▸ hg)
  · intro g hg
    exact setEntry_frame fun heq => hg (.inl heq)

/-- A page is mapped, unless the allocator has too few frames for the tables that are missing, or
    there is no room for it. -/
theorem mapAt_cases (flags : MemoryMappingFlags) (hn : m + d = n) (hc : w.Stores f c)
    (hapart : Apart (.table f c)) (hsupply : w.Supplied (.table f c)) (hp : frameOk p = true) :
    (∃ taken y w', w.mapAt (m + 1) d f a p flags = some (.ok ⟨a⟩, w') ∧
        Inserts m (addressKey a) (p, flags) (.table f c) taken y ∧ Outcome w f taken y w') ∨
      (w.mapAt (m + 1) d f a p flags = none ∧
        w.supply.length < missing m (addressKey a) (.table f c)) ∨
      ((∀ r w', w.mapAt (m + 1) d f a p flags ≠ some (.ok r, w')) ∧
        ¬ Vacant m (addressKey a) (.table f c)) := by
  induction d generalizing w f n with
  | zero =>
    obtain rfl : m = n := hn
    by_cases hx : c (addressKey a m) = .empty
    · obtain ⟨w', hw', hout⟩ := mapInnerAt_of_empty flags hc hapart hp hx
      exact .inl ⟨[], _, w', hw', .down (Nat.le_refl m) (hx ▸ .leaf), hout⟩
    · have hpresent : (w.entry f (addressKey a m)).present = true := by
        rwa [← Bool.not_eq_false, (hc _).present_eq_false_iff]
      refine .inr (.inr ⟨fun r w' hw' => ?_, fun hv => hx (vacant_self.1 hv.2)⟩)
      simp only [mapAt, mapInnerAt, calculateIndex_succ, hpresent, if_true] at hw'
      cases hw'
  | succ d ih =>
    obtain rfl : m + d + 1 = n := hn
    have hle : m ≤ m + d + 1 := by omega
    have hlevel : m + 1 + d + 1 = m + d + 1 + 1 := by omega
    simp only [mapAt, hlevel, calculateIndex_succ]
    cases hx : c (addressKey a (m + d + 1)) with
    | leaf =>
      have hl := hc.leaf hx
      refine .inr (.inr ⟨fun r w' => ?_, fun hv => ?_⟩)
      · simp [hl.present, hl.largerPages]
      · rw [Vacant, hx] at hv
        exact hv.2
    | table g c1 =>
      obtain ⟨hl, hc1⟩ := hc.link hx
      have hfresh : ∀ h ∈ w.supply, h ∉ frames (.table g c1) :=
        fun h hh hmem => hsupply.fresh h hh (.inr ⟨_, hx ▸ hmem⟩)
      simp only [hl.present, hl.largerPages, hl.address, if_true, Bool.false_eq_true, if_false]
      rcases ih rfl hc1 (hx ▸ (hapart.1 _).1) ⟨hsupply.nodup, hfresh, hsupply.ok⟩ with
        ⟨taken, y, w', hw', hins, hout⟩ | ⟨hnone, hlt⟩ | ⟨hno, hv⟩
      · refine .inl ⟨taken, _, w', hw', .down hle (hx ▸ hins), ?_⟩
        refine hout.up [] hc hapart hl (fun _ _ => rfl) (fun _ _ _ => rfl) rfl rfl fun h hh => ?_
        rw [hx]
        refine (hins.mem_frames_iff.1 hh).imp_right fun htaken => hsupply.fresh h ?_
        exact hout.supply ▸ List.mem_append_left _ htaken
      · exact .inr (.inl ⟨hnone, by rwa [missing, hx]⟩)
      · exact .inr (.inr ⟨hno, fun hv' => hv (hx ▸ hv'.2)⟩)
    | empty =>
      have habsent := hc.absent hx
      cases hs : w.supply with
      | nil =>
        refine .inr (.inl ⟨?_, ?_⟩)
        · simp [habsent, allocatePage, hs]
        · rw [missing, hx, missing, List.length_nil]
          omega
      | cons g rest =>
        have hg : g ∈ w.supply := hs ▸ .head _
        have hgf : g ≠ f := fun heq => hsupply.fresh g hg (.inl heq)
        have hnodup : (g :: rest).Nodup := hs ▸ hsupply.nodup
        have hin : ∀ h ∈ rest, h ∈ w.supply := fun h hh => hs ▸ .tail g hh
        obtain ⟨e, he, heq, haddress⟩ := setAddress_frameOk (f := g)
          (e := { w.entry f (addressKey a (m + d + 1)) with
            present := true
            largerPages := false
            readWrite := true
            userSuper := true }) (hsupply.ok g hg)
        have hrow : update w.entry g (fun _ => .zero) f = w.entry f := update_of_ne hgf.symm _ _
        simp only [habsent, Bool.false_eq_true, if_false, allocatePage_eq_some hs, hrow, he]
        -- the new table, linked to the old one
        let w1 : TableFrames := (TableFrames.mk (update w.entry g fun _ => .zero)
          (g :: w.used) rest).setEntry f (addressKey a (m + d + 1)) e
        have hzero : w1.Stores g fun _ => (.empty : PageTree (m + d)) := by
          intro i
          rw [show w1.entry g = fun _ => .zero from (setEntry_frame hgf).trans (update_self ..)]
          rfl
        have hsupply1 : w1.Supplied (.table g fun _ => (.empty : PageTree (m + d))) := by
          refine ⟨hnodup.of_cons, fun h hh => ?_, fun h hh => hsupply.ok h (hin h hh)⟩
          rintro (rfl | ⟨-, ⟨⟩⟩)
          exact (List.nodup_cons.1 hnodup).1 hh
        rcases ih rfl hzero (by simp) hsupply1 with
          ⟨taken, y, w', hw', hins, hout⟩ | ⟨hnone, hlt⟩ | ⟨-, hv⟩
        · have hnew := Inserts.new (f := g) (Nat.le_add_right m d) hins
          refine .inl ⟨g :: taken, _, w', hw', .down hle (hx ▸ hnew), ?_⟩
          refine hout.up [g] hc hapart ?_ ?_ ?_ hs rfl fun h hh => .inr ?_
          · rw [show w1.entry f (addressKey a (m + d + 1)) = e from setEntry_self]
            subst heq
            exact ⟨rfl, rfl, rfl, rfl, haddress⟩
          · intro j hj
            exact (setEntry_of_ne hj).trans (congrFun hrow j)
          · intro h hhf hh
            have hne : h ≠ g := fun heq => hh (hins.mem_frames_iff.2 (.inl (.inl heq)))
            exact (setEntry_frame hhf).trans (update_of_ne hne _ _)
          · rcases hins.mem_frames_iff.1 hh with (rfl | ⟨-, ⟨⟩⟩) | htaken
            · exact hsupply.fresh h hg
            · have hmem : h ∈ w1.supply := hout.supply ▸ List.mem_append_left _ htaken
              exact hsupply.fresh h (hin h hmem)
        · refine .inr (.inl ⟨hnone, ?_⟩)
          have hlt : rest.length < m + d - m := hlt
          rw [missing, hx, missing, List.length_cons]
          omega
        · exact (hv ⟨by omega, trivial⟩).elim

/-! ## Unmapping -/

theorem Stores.allEntriesEmpty_iff (hc : w.Stores f c) :
    w.allEntriesEmpty f = true ↔ ∀ i, c i = .empty := by
  have hall : w.allEntriesEmpty f = true ↔ ∀ i, (w.entry f i).present = false := by
    simp [allEntriesEmpty]
  exact hall.trans (forall_congr' fun i => (hc i).present_eq_false_iff)

theorem Stores.unmap_of_lookup_none (hc : w.Stores f c) (hfull : FullBelow (.table f c))
    (hq : lookup (addressKey v.address) (.table f c) = none) :
    w.unmap n f v = some (.error (.memNotMapped v.address), w) := by
  induction n generalizing f with
  | zero =>
    rw [lookup] at hq
    cases hx : c (addressKey v.address 0) with
    | leaf =>
      rw [hx] at hq
      cases hq
    | empty => simp [unmap, unmapInner, calculateIndex_succ, hc.absent hx]
  | succ n ih =>
    rw [lookup] at hq
    cases hx : c (addressKey v.address (n + 1)) with
    | leaf =>
      rw [hx] at hq
      cases hq
    | empty => simp [unmap, calculateIndex_succ, hc.absent hx]
    | table g c' =>
      obtain ⟨hl, hc'⟩ := hc.link hx
      have hfull' : Full (table g c') := hx ▸ hfull (addressKey v.address (n + 1))
      -- a table that is not empty is not freed
      have hsome : w.allEntriesEmpty g = false := by
        rw [← Bool.not_eq_true, hc'.allEntriesEmpty_iff, not_forall]
        exact hfull'.1
      simp only [unmap, calculateIndex_succ, hl.present, hl.largerPages, hl.address,
        ih hc' hfull'.2 (hx ▸ hq), hsome]
      rfl

/-- `w'` stores what `w` stores in the table `f`, without the page at the key. -/
structure Unmaps (k : Nat → Fin 512) (f : Nat) (c : Fin 512 → PageTree n) (w w' : TableFrames) :
    Prop where
  stored : w'.Stores f (update c (k n) (prune (erase k (c (k n)))))
  same : ∀ g, g ∉ frames (.table f c) → w'.entry g = w.entry g
  supply : w'.supply = w.supply
  nodup : w'.used.Nodup
  used : ∀ g, g ∈ w'.used ↔
    g ∈ w.used ∧ (g ∈ frames (.table f c) → g ∈ frames (erase k (.table f c)))

/-- After the call for the table `g` below an entry of the table `f`, only this entry changes. -/
theorem Unmaps.up {k : Nat → Fin 512} {c : Fin 512 → PageTree (n + 1)} {c' : Fin 512 → PageTree n}
    {w1 : TableFrames} (hc : w.Stores f c) (hapart : Apart (.table f c))
    (hx : c (k (n + 1)) = .table g c') (hunmaps : Unmaps k g c' w w1)
    (hentry : Stored w' (w'.entry f (k (n + 1))) (prune (erase k (c (k (n + 1))))))
    (hrow : ∀ j, j ≠ k (n + 1) → w'.entry f j = w1.entry f j)
    (hrest : ∀ h, h ≠ f → w'.entry h = w1.entry h) (hsupply : w'.supply = w1.supply)
    (hnodup : w'.used.Nodup) (hused : ∀ h, h ∈ w'.used ↔ h ∈ w.used ∧
      (h ∈ frames (.table g c') → h ∈ frames (prune (erase k (c (k (n + 1))))))) :
    Unmaps k f c w w' := by
  have hf : w1.entry f = w.entry f := hunmaps.same f (hx ▸ (hapart.1 (k (n + 1))).2)
  refine ⟨hc.update hentry ?_ ?_, fun h hh => ?_, hsupply.trans hunmaps.supply, hnodup, fun h => ?_⟩
  · intro j hj
    rw [hrow j hj, hf]
  · intro j hj h hh
    rw [hrest h fun heq => (hapart.1 j).2 (heq ▸ hh), hunmaps.same h fun hmem => ?_]
    exact hapart.2 j _ hj h hh (hx ▸ hmem)
  · rw [hrest h fun heq => hh (.inl heq), hunmaps.same h fun hmem => hh (.inr ⟨_, hx ▸ hmem⟩)]
  · rw [hused, erase, hapart.kept_iff, hx]

theorem clearEntry_self : ((w.clearEntry f i).entry f i).present = false := by
  rw [clearEntry, setEntry_self]

theorem Stores.unmap_of_lookup_some {q : Mapping} (hc : w.Stores f c)
    (hapart : Apart (.table f c)) (hok : ∀ g ∈ frames (.table f c), pageOk g = true)
    (hnodup : w.used.Nodup) (hq : lookup (addressKey v.address) (.table f c) = some (0, q)) :
    ∃ w', w.unmap n f v = some (.ok ⟨v.address⟩, w') ∧ Unmaps (addressKey v.address) f c w w' := by
  induction n generalizing f with
  | zero =>
    rw [lookup] at hq
    cases hx : c (addressKey v.address 0) with
    | empty =>
      rw [hx] at hq
      cases hq
    | leaf =>
      have hl := hc.leaf hx
      refine ⟨w.clearEntry f (addressKey v.address 0), ?_, hc.update ?_ ?_ ?_, ?_, rfl, hnodup, ?_⟩
      · simp [unmap, unmapInner, calculateIndex_succ, hl.present, hl.largerPages]
      · rw [hx]
        exact clearEntry_self
      · intro j hj
        exact setEntry_of_ne hj
      · intro j _ g hg
        exact setEntry_frame fun heq => (hapart.1 j).2 (heq ▸ hg)
      · intro g hg
        exact setEntry_frame fun heq => hg (.inl heq)
      · -- no table becomes empty at this level
        intro g
        rw [erase, hapart.kept_iff, hx]
        exact (and_iff_left id).symm
  | succ n ih =>
    rw [lookup] at hq
    cases hx : c (addressKey v.address (n + 1)) with
    | empty | leaf =>
      rw [hx] at hq
      cases hq
    | table g c' =>
      obtain ⟨hl, hc'⟩ := hc.link hx
      have hchild : ∀ h ∈ frames (.table g c'), h ∈ frames (.table f c) :=
        fun h hh => .inr ⟨_, hx ▸ hh⟩
      obtain ⟨w1, hunmap, hunmaps⟩ := ih hc' (hx ▸ (hapart.1 _).1)
        (fun h hh => hok h (hchild h hh)) (hx ▸ hq)
      have hall := hunmaps.stored.allEntriesEmpty_iff
      by_cases hempty : w1.allEntriesEmpty g = true
      · -- the table below is freed
        have hpruned : prune (erase (addressKey v.address) (c (addressKey v.address (n + 1))))
            = .empty := by
          rw [hx, erase, prune, if_pos (hall.1 hempty)]
        have hnew : Page.new g = some ⟨g, hok g (hchild g (.inl rfl))⟩ := dif_pos _
        refine ⟨(w1.clearEntry f (addressKey v.address (n + 1))).freePage g, ?_,
          hunmaps.up hc hapart hx ?_ (fun j hj => setEntry_of_ne hj) (fun h hh => setEntry_frame hh)
            rfl (hunmaps.nodup.erase g) fun h => ?_⟩
        · simp only [unmap, calculateIndex_succ, hl.present, hl.largerPages, hl.address, hunmap,
            hempty, hnew]
          rfl
        · rw [hpruned]
          exact clearEntry_self
        · have hgone : h ∈ frames (erase (addressKey v.address) (.table g c')) ↔ h = g := by
            rw [erase, mem_frames_table]
            simp [hall.1 hempty]
          show h ∈ w1.used.erase g ↔ _
          rw [hunmaps.nodup.mem_erase_iff, hunmaps.used, hgone, hpruned]
          constructor
          · rintro ⟨hne, hused, honly⟩
            exact ⟨hused, fun hmem => (hne (honly hmem)).elim⟩
          · rintro ⟨hused, hnone⟩
            exact ⟨fun heq => hnone (.inl heq), hused, fun hmem => (hnone hmem).elim⟩
      · have hpruned : prune (erase (addressKey v.address) (c (addressKey v.address (n + 1))))
            = erase (addressKey v.address) (.table g c') := by
          rw [hx, erase, prune, if_neg fun h => hempty (hall.2 h)]
        refine ⟨w1, ?_, hunmaps.up hc hapart hx ?_ (fun _ _ => rfl) (fun _ _ => rfl) rfl
          hunmaps.nodup ?_⟩
        · simp only [unmap, calculateIndex_succ, hl.present, hl.largerPages, hl.address, hunmap,
            Bool.eq_false_of_not_eq_true hempty]
          rfl
        · rw [hpruned, hunmaps.same f (hx ▸ (hapart.1 (addressKey v.address (n + 1))).2)]
          exact ⟨hl, hunmaps.stored⟩
        · rw [hpruned]
          exact hunmaps.used

/-! ## Tables and the allocator -/

/-- The table `root` stores these entries. The frames in use are those of the tables and `data`,
    each of them once, and the allocator has others. -/
structure Store (w : TableFrames) (root : Nat) (c : Fin 512 → PageTree n) (data : Nat → Prop) :
    Prop where
  stored : w.Stores root c
  apart : Apart (.table root c)
  full : FullBelow (.table root c)
  nodup : w.used.Nodup
  used : ∀ f, f ∈ w.used ↔ f ∈ frames (.table root c) ∨ data f
  ok : ∀ f ∈ w.used, frameOk f = true
  separate : ∀ f, data f → f ∉ frames (.table root c)
  supply_nodup : w.supply.Nodup
  supply_fresh : ∀ f ∈ w.supply, f ∉ w.used ∧ frameOk f = true

namespace Store

variable {root : Nat} {data data' : Nat → Prop} {rest : List Nat} (h : w.Store root c data)
include h

theorem withSupply {supply : List Nat} (hnodup : supply.Nodup)
    (hfresh : ∀ f ∈ supply, f ∉ w.used ∧ frameOk f = true) :
    Store { w with supply := supply } root c data :=
  { h with
    stored := h.stored.congr fun _ _ => rfl
    supply_nodup := hnodup
    supply_fresh := hfresh }

theorem congr (hdata : ∀ f, data f ↔ data' f) : w.Store root c data' := by
  obtain rfl : data = data' := funext fun f => propext (hdata f)
  exact h

/-- A frame is handed out, but not for a table. -/
theorem allocate (hsupply : w.supply = p :: rest) :
    Store ⟨update w.entry p fun _ => .zero, p :: w.used, rest⟩ root c fun f => f = p ∨ data f := by
  have hnodup : (p :: rest).Nodup := hsupply ▸ h.supply_nodup
  obtain ⟨hp, hok⟩ := h.supply_fresh p (hsupply ▸ .head _)
  have hrest : ∀ f ∈ rest, f ∉ w.used ∧ frameOk f = true :=
    fun f hf => h.supply_fresh f (hsupply ▸ .tail _ hf)
  have hnot : ∀ f ∈ frames (.table root c), f ≠ p := by
    rintro f hf rfl
    exact hp ((h.used f).2 (.inl hf))
  refine ⟨h.stored.congr fun f hf => update_of_ne (hnot f hf) _ _, h.apart, h.full,
    List.nodup_cons.2 ⟨hp, h.nodup⟩, fun f => ?_, fun f hf => ?_, ?_, hnodup.of_cons,
    fun f hf => ⟨fun hmem => ?_, (hrest f hf).2⟩⟩
  · rw [List.mem_cons, h.used, or_left_comm]
  · rcases List.mem_cons.1 hf with rfl | hf
    · exact hok
    · exact h.ok f hf
  · rintro f (rfl | hf) hin
    · exact hnot f hin rfl
    · exact h.separate f hf hin
  · rcases List.mem_cons.1 hmem with rfl | hmem
    · exact (List.nodup_cons.1 hnodup).1 hf
    · exact (hrest f hf).1 hmem

/-- A frame that is not that of a table is freed. -/
theorem free (hp : data p) : Store (w.freePage p) root c fun f => f ≠ p ∧ data f := by
  have hmem : ∀ f, f ∈ w.used.erase p ↔ f ≠ p ∧ f ∈ w.used := fun f => h.nodup.mem_erase_iff
  refine ⟨h.stored.congr fun _ _ => rfl, h.apart, h.full, h.nodup.erase p, fun f => ?_,
    fun f hf => h.ok f ((hmem f).1 hf).2, fun f hf => h.separate f hf.2, h.supply_nodup,
    fun f hf => ⟨fun hin => (h.supply_fresh f hf).1 ((hmem f).1 hin).2, (h.supply_fresh f hf).2⟩⟩
  refine (hmem f).trans ?_
  rw [h.used, and_or_left]
  refine or_congr_left (and_iff_right_of_imp fun hf => ?_)
  rintro rfl
  exact h.separate f hp hf

theorem inserts {k : Nat → Fin 512} {q : Mapping} {taken : List Nat} {y : PageTree (n + 1)}
    (hins : Inserts 0 k q (.table root c) taken y) (hout : Outcome w root taken y w') :
    ∃ c', y = .table root c' ∧ w'.Store root c' data := by
  have hnodup := h.supply_nodup
  rw [hout.supply] at hnodup
  obtain ⟨htaken, hleft, hdisjoint⟩ := List.nodup_append'.1 hnodup
  have hnew : ∀ f ∈ taken, f ∉ w.used ∧ frameOk f = true :=
    fun f hf => h.supply_fresh f (hout.supply ▸ List.mem_append_left _ hf)
  have hmem : ∀ f, f ∈ w'.used ↔ f ∈ taken ∨ f ∈ w.used := by
    intro f
    rw [hout.used, List.mem_append, List.mem_reverse]
  have hfresh : ∀ f ∈ taken, f ∉ frames (.table root c) :=
    fun f hf hin => (hnew f hf).1 ((h.used f).2 (.inl hin))
  obtain ⟨c', rfl, hc'⟩ := hout.stored
  refine ⟨c', rfl, hc', hins.apart h.apart htaken hfresh, (hins.full h.full).below, ?_, fun f => ?_,
    fun f hf => ?_, fun f hf hin => ?_, hleft, fun f hf => ⟨fun hin => ?_, ?_⟩⟩
  · rw [hout.used, List.nodup_append']
    refine ⟨List.nodup_reverse.2 htaken, h.nodup, fun f hf hin => ?_⟩
    exact (hnew f (List.mem_reverse.1 hf)).1 hin
  · rw [hmem, h.used, hins.mem_frames_iff, or_left_comm, or_assoc]
  · rcases (hmem f).1 hf with hf | hf
    · exact (hnew f hf).2
    · exact h.ok f hf
  · rcases hins.mem_frames_iff.1 hin with hin | hin
    · exact h.separate f hf hin
    · exact (hnew f hin).1 ((h.used f).2 (.inr hf))
  · rcases (hmem f).1 hin with hin | hin
    · exact hdisjoint hin hf
    · exact (h.supply_fresh f (hout.supply ▸ List.mem_append_right _ hf)).1 hin
  · exact (h.supply_fresh f (hout.supply ▸ List.mem_append_right _ hf)).2

open scoped Classical in
/-- A page that is not mapped is mapped, unless the allocator has too few frames. -/
theorem map_cases {p : Page} (hp : frameOk p.address = true)
    (hq : lookup (addressKey v.address) (.table root c) = none) :
    (w.map n root v p flags = none ∧ w.supply.length < n) ∨
      ∃ w', ∃ c' : Fin 512 → PageTree n,
        w.map n root v p flags = some (.ok ⟨v.address⟩, w') ∧ w'.Store root c' data ∧
        ∀ k, lookup k (.table root c') = if Agree 0 (n + 1) (addressKey v.address) k
          then some (0, p.address, flags) else lookup k (.table root c) := by
  rw [map_eq_mapAt]
  have hsupply : w.Supplied (.table root c) :=
    ⟨h.supply_nodup, fun f hf hin => (h.supply_fresh f hf).1 ((h.used f).2 (.inl hin)),
      fun f hf => (h.supply_fresh f hf).2⟩
  rcases mapAt_cases flags (Nat.zero_add n) h.stored h.apart hsupply hp with
    ⟨taken, y, w', hw', hins, hout⟩ | ⟨hnone, hlt⟩ | ⟨-, hv⟩
  · obtain ⟨c', rfl, hstore⟩ := h.inserts hins hout
    exact .inr ⟨w', c', hw', hstore, fun k => hins.lookup_eq⟩
  · have hle : missing 0 (addressKey v.address) (c (addressKey v.address n)) ≤ n := missing_le
    exact .inl ⟨hnone, Nat.lt_of_lt_of_le hlt hle⟩
  · exact absurd (vacant_of_lookup hq) hv

open scoped Classical in
theorem unmap {q : Mapping} (hq : lookup (addressKey v.address) (.table root c) = some (0, q)) :
    ∃ w', ∃ c' : Fin 512 → PageTree n,
      w.unmap n root v = some (.ok ⟨v.address⟩, w') ∧ w'.Store root c' data ∧
      ∀ k, lookup k (.table root c') = if Agree 0 (n + 1) (addressKey v.address) k then none
        else lookup k (.table root c) := by
  have hok : ∀ f ∈ frames (.table root c), pageOk f = true :=
    fun f hf => (of_decide_eq_true (h.ok f ((h.used f).2 (.inl hf)))).1
  obtain ⟨w', hw', hu⟩ := h.stored.unmap_of_lookup_some h.apart hok h.nodup hq
  have hsubset : frames (erase (addressKey v.address) (.table root c)) ⊆ frames (.table root c) :=
    frames_erase_subset
  have hlookup : ∀ k, lookup k (erase (addressKey v.address) (.table root c)) = _ :=
    fun k => lookup_erase fun r hr => congrArg Prod.fst (Option.some.inj (hr.symm.trans hq))
  refine ⟨w', _, hw', ⟨hu.stored, h.apart.erase, ?_, hu.nodup, fun f => (hu.used f).trans ?_,
    fun f hf => h.ok f ((hu.used f).1 hf).1, fun f hf hin => h.separate f hf (hsubset hin), ?_, ?_⟩,
    hlookup⟩
  · exact full_update h.full (full_prune_erase (h.full _))
  · rw [h.used]
    constructor
    · rintro ⟨hf | hf, hkept⟩
      · exact .inl (hkept hf)
      · exact .inr hf
    · rintro (hf | hf)
      · exact ⟨.inl (hsubset hf), fun _ => hf⟩
      · exact ⟨.inr hf, fun hin => absurd hin (h.separate f hf)⟩
  · exact hu.supply ▸ h.supply_nodup
  · intro f hf
    obtain ⟨hunused, hok⟩ := h.supply_fresh f (hu.supply ▸ hf)
    exact ⟨fun hin => hunused ((hu.used f).1 hin).1, hok⟩

end Store

end TableFrames

end Fioxa.Paging
