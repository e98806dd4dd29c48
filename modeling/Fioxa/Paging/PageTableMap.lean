import Mathlib.Data.List.Nodup
import Fioxa.Paging.StoredTables

/-! # Page tables refine a finite map

Over every sequence of `map` and `unmap` calls on a new level 4 table, what a page translates to is
decided by the last operation on it that has succeeded, calls fail exactly when they should, no
other page is affected, and the frames that are in use as tables are the root and the tables on the
path of some mapped page. -/

namespace Fioxa.Paging

open Radix Radix.Tree TableFrames List Option Function

/-- What the last operation on a page has made of it: a leaf of the tree. -/
def TableOperation.mapping : Option TableOperation → Option (Nat × Mapping)
  | some (.map _ p flags) => some (0, p.address, flags)
  | some (.unmap _) => none
  | none => none

namespace TableSystem

variable {s t : TableSystem} {c : Fin 512 → PageTree 3} {v p : Page}
  {flags : MemoryMappingFlags} {supply : List Nat}

/-- The page is mapped. -/
def Mapped (s : TableSystem) (v : Page) : Prop := ∃ p, s.addressOf v = some (some p)

/-- The table of this state is the map that the log describes. -/
structure Refines (s : TableSystem) : Prop where
  /-- Translating never panics, and gives what the last successful operation says. -/
  addressOf_total : ∀ v, ∃ r, s.addressOf v = some r
  addressOf_iff : ∀ v p, s.addressOf v = some (some p) ↔ ∃ flags, s.last v = some (.map v p flags)
  /-- The processor translates in the same way, with the permissions of the flags. -/
  walk_mapped : ∀ v p flags, s.last v = some (.map v p flags) →
    s.walk v = some (p.address, flags.writeable, flags.userspace)
  walk_unmapped : ∀ v, ¬ s.Mapped v → s.walk v = none
  /-- Given the frames it may need, `map` fails exactly when the page is mapped. -/
  map_fails : ∀ v p q flags supply, s.addressOf v = some (some q) →
    ∃ frames, s.map v p flags supply
      = some (.error (.memAlreadyMapped v.address p.address q.address), frames)
  map_succeeds : ∀ v p flags supply, frameOk p.address = true → s.Fresh supply →
    3 ≤ supply.length → ¬ s.Mapped v →
    ∃ frames, s.map v p flags supply = some (.ok ⟨v.address⟩, frames)
  /-- `unmap` fails exactly when the page is not mapped. -/
  unmap_fails : ∀ v, ¬ s.Mapped v →
    ∃ frames, s.unmap v = some (.error (.memNotMapped v.address), frames)
  unmap_succeeds : ∀ v, s.Mapped v → ∃ frames, s.unmap v = some (.ok ⟨v.address⟩, frames)
  /-- A call that fails changes no translation, and no call changes that of another page. -/
  others : ∀ a t, step s a = some t → ∀ v, t.log = s.log ∨ a.page ≠ some v →
    t.addressOf v = s.addressOf v ∧ t.walk v = s.walk v
  /-- The frames in use are the root and the tables on the path of a mapped page. -/
  tables : ∀ frame, frame ∈ s.frames.used ↔
    frame = s.root ∨ ∃ v, s.Mapped v ∧ frame ∈ s.frames.tablesOf 3 s.root v

/-- The state stores the tree with the root table `c`, and the tree is what the log says. -/
structure Represents (s : TableSystem) (c : Fin 512 → PageTree 3) : Prop where
  store : s.frames.Store s.root c fun _ => False
  log : ∀ v : Page,
    lookup (addressKey v.address) (.table s.root c) = TableOperation.mapping (s.last v)
  keys : ∀ k, (lookup k (.table s.root c)).isSome → ∃ v : Page, Agree 0 4 (addressKey v.address) k

theorem agree_key_iff {v v' : Page} :
    Agree 0 4 (addressKey v.address) (addressKey v'.address) ↔ v = v' := by
  constructor
  · exact fun h => Page.eq_of_key fun n => h n (Nat.zero_le n)
  · rintro rfl m _ _
    rfl

variable {frames : TableFrames}

theorem last_cons {op : TableOperation} (v : Page) :
    ({ s with frames := frames, log := op :: s.log } : TableSystem).last v
      = if op.page = v then some op else s.last v := by
  unfold last
  rw [List.find?_cons]
  by_cases h : op.page = v <;> simp [h]

theorem page_of_last {op : TableOperation} (h : s.last v = some op) : op.page = v := by
  have hpage := List.find?_some h
  simpa using hpage

/-! ## The steps keep the representation -/

theorem represents_new (memory : Nat → Fin 512 → PageDirectoryEntry) (root : Page)
    (hroot : frameOk root.address = true) :
    (new memory root).Represents fun _ => .empty := by
  have hzero : (new memory root).frames.entry root.address = fun _ => .zero :=
    update_self ..
  refine ⟨⟨fun i => ?_, by simp, fun _ => trivial, nodup_singleton _, fun f => ?_,
    fun f hf => ?_, fun _ => False.elim, nodup_nil, by simp [new]⟩, fun v => rfl,
    fun k hk => by cases hk⟩
  · show ((new memory root).frames.entry root.address i).present = false
    rw [hzero]
    rfl
  · simp [new]
  · rw [mem_singleton.1 hf]
    exact hroot

section

variable (h : s.Represents c)
include h

open scoped Classical in
/-- An operation has succeeded. -/
theorem Represents.next {op : TableOperation} {c' : Fin 512 → PageTree 3}
    (hstore : frames.Store s.root c' fun _ => False)
    (hlookup : ∀ k, lookup k (.table s.root c') = if Agree 0 4 (addressKey op.page.address) k
      then TableOperation.mapping (some op) else lookup k (.table s.root c)) :
    Represents { s with frames := frames, log := op :: s.log } c' := by
  refine ⟨hstore, fun v => ?_, fun k hk => ?_⟩
  · rw [last_cons]
    refine (hlookup _).trans ?_
    by_cases hv : op.page = v
    · rw [if_pos (agree_key_iff.2 hv), if_pos hv]
    · rw [if_neg fun hagree => hv (agree_key_iff.1 hagree), if_neg hv, h.log]
  · by_cases hagree : Agree 0 4 (addressKey op.page.address) k
    · exact ⟨op.page, hagree⟩
    · rw [show lookup k (.table s.root c') = _ from hlookup k, if_neg hagree] at hk
      exact h.keys k hk

theorem Represents.write {frame : Nat} {entries : Fin 512 → PageDirectoryEntry}
    (hframe : frame ∉ s.frames.used) :
    Represents { s with frames :=
      { s.frames with entry := Function.update s.frames.entry frame entries } } c := by
  refine ⟨{ h.store with stored := h.store.stored.congr fun f hf => ?_ }, h.log, h.keys⟩
  apply update_of_ne
  rintro rfl
  exact hframe ((h.store.used f).2 (.inl hf))

theorem Represents.small (v : Page) :
    ∀ r ∈ lookup (addressKey v.address) (.table s.root c), r.1 = 0 := by
  rw [h.log]
  intro r hr
  unfold TableOperation.mapping at hr
  split at hr
  · cases hr
    rfl
  · cases hr
  · cases hr

theorem Represents.addressOf_eq (v : Page) :
    s.addressOf v = (TableOperation.mapping (s.last v)).elim (some none)
      fun r => (Page.new r.2.1).map some := by
  rw [← h.log]
  exact h.store.stored.addressOf_eq (h.small v)

theorem Represents.walk_eq (v : Page) :
    s.walk v = (TableOperation.mapping (s.last v)).map
      fun r => (r.2.1, r.2.2.writeable, r.2.2.userspace) := by
  rw [← h.log]
  exact h.store.stored.walk_eq (h.small v)

theorem Represents.addressOf_iff (v p : Page) :
    s.addressOf v = some (some p) ↔ ∃ flags, s.last v = some (.map v p flags) := by
  rw [h.addressOf_eq]
  constructor
  · intro heq
    cases hlast : s.last v with
    | none => simp [hlast, TableOperation.mapping] at heq
    | some op =>
      have hpage := page_of_last hlast
      cases op with
      | map v' p' flags =>
        obtain rfl : p' = p := by
          simpa [hlast, TableOperation.mapping, Page.new_address] using heq
        obtain rfl : v' = v := hpage
        exact ⟨flags, rfl⟩
      | unmap => simp [hlast, TableOperation.mapping] at heq
  · rintro ⟨flags, hlast⟩
    simp [hlast, TableOperation.mapping, Page.new_address]

theorem Represents.mapped_iff (v : Page) :
    s.Mapped v ↔ (lookup (addressKey v.address) (.table s.root c)).isSome := by
  unfold Mapped
  simp only [h.addressOf_iff, h.log]
  constructor
  · rintro ⟨p, flags, hlast⟩
    rw [hlast]
    rfl
  · intro hsome
    unfold TableOperation.mapping at hsome
    split at hsome
    · rename_i v' p flags hlast
      obtain rfl : v' = v := page_of_last hlast
      exact ⟨p, flags, hlast⟩
    · cases hsome
    · cases hsome

theorem Represents.map_fails {r : Nat × Mapping}
    (hr : lookup (addressKey v.address) (.table s.root c) = some r) :
    s.map v p flags supply = some (.error (.memAlreadyMapped v.address p.address r.2.1),
          { s.frames with supply := supply }) := by
  obtain ⟨m, q⟩ := r
  obtain rfl : m = 0 := h.small v _ hr
  have hstores : TableFrames.Stores { s.frames with supply := supply } s.root c :=
    h.store.stored.congr fun _ _ => rfl
  exact hstores.map_of_lookup hr

theorem Represents.unmap_fails (hr : lookup (addressKey v.address) (.table s.root c) = none) :
    s.unmap v = some (.error (.memNotMapped v.address), s.frames) :=
  h.store.stored.unmap_of_lookup_none h.store.full hr

theorem Represents.unmap_succeeds (hv : s.Mapped v) : ∃ frames,
    s.unmap v = some (.ok ⟨v.address⟩, frames) ∧
      ∃ c', Represents { s with frames := frames, log := .unmap v :: s.log } c' := by
  obtain ⟨⟨n, q⟩, hr⟩ := isSome_iff_exists.1 ((h.mapped_iff v).1 hv)
  obtain rfl : n = 0 := h.small v _ hr
  obtain ⟨frames, c', hunmap, hstore, hlookup⟩ := h.store.unmap hr
  exact ⟨frames, hunmap, c', h.next hstore hlookup⟩

theorem Represents.map_cases (hp : frameOk p.address = true) (hfresh : s.Fresh supply)
    (hr : lookup (addressKey v.address) (.table s.root c) = none) :
    (s.map v p flags supply = none ∧ supply.length < 3) ∨
      ∃ frames, s.map v p flags supply = some (.ok ⟨v.address⟩, frames) ∧
        ∃ c', Represents { s with frames := frames, log := .map v p flags :: s.log } c' := by
  rcases (h.store.withSupply hfresh.1 hfresh.2).map_cases hp hr with
    hnone | ⟨frames, c', hmap, hstore, hlookup⟩
  · exact .inl hnone
  · exact .inr ⟨frames, hmap, c', h.next hstore hlookup⟩

end

variable {a : Action}

theorem Represents.step (h : s.Represents c) (hstep : step s a = some t) :
    ∃ c', t.Represents c' := by
  cases a with
  | map v =>
    simp only [TableSystem.step] at hstep
    split at hstep
    · rename_i hguard
      cases hr : lookup (addressKey v.address) (.table s.root c) with
      | some =>
        rw [h.map_fails hr] at hstep
        cases hstep
        exact ⟨c, h.store.withSupply hguard.2.1 hguard.2.2, h.log, h.keys⟩
      | none =>
        rcases h.map_cases hguard.1 hguard.2 hr with ⟨hnone, -⟩ | ⟨frames, hmap, hnext⟩
        · rw [hnone] at hstep
          cases hstep
        · rw [hmap] at hstep
          cases hstep
          exact hnext
    · cases hstep
  | unmap v =>
    simp only [TableSystem.step] at hstep
    by_cases hv : s.Mapped v
    · obtain ⟨frames, hunmap, hnext⟩ := h.unmap_succeeds hv
      rw [hunmap] at hstep
      cases hstep
      exact hnext
    · rw [h.mapped_iff, not_isSome_iff_eq_none] at hv
      rw [h.unmap_fails hv] at hstep
      cases hstep
      exact ⟨c, h⟩
  | write =>
    simp only [TableSystem.step] at hstep
    split at hstep
    · cases hstep
    · rename_i hframe
      cases hstep
      exact ⟨c, h.write hframe⟩

/-! ## The map -/

theorem log_of_step (hstep : step s a = some t) :
    t.log = s.log ∨ ∃ op, t.log = op :: s.log ∧ a.page = some op.page := by
  cases a with
  | map =>
    simp only [step] at hstep
    split at hstep
    · split at hstep
      · cases hstep
      · cases hstep
        exact .inr ⟨_, rfl, rfl⟩
      · cases hstep
        exact .inl rfl
    · cases hstep
  | unmap =>
    simp only [step] at hstep
    split at hstep
    · cases hstep
    · cases hstep
      exact .inr ⟨_, rfl, rfl⟩
    · cases hstep
      exact .inl rfl
  | write =>
    simp only [step] at hstep
    split at hstep
    · cases hstep
    · cases hstep
      exact .inl rfl

theorem last_of_step (hstep : step s a = some t) (h : t.log = s.log ∨ a.page ≠ some v) :
    t.last v = s.last v := by
  unfold last
  rcases log_of_step hstep with hlog | ⟨op, hlog, hpage⟩
  · rw [hlog]
  · rcases h with hsame | hne
    · rw [hsame]
    · have hop : op.page ≠ v := by
        rintro rfl
        exact hne hpage
      rw [hlog, List.find?_cons]
      simp [hop]

theorem Represents.tables (h : s.Represents c) (frame : Nat) :
    frame ∈ s.frames.used ↔
      frame = s.root ∨ ∃ v, s.Mapped v ∧ frame ∈ s.frames.tablesOf 3 s.root v := by
  rw [h.store.used, or_false, mem_frames_iff_path h.store.full]
  apply or_congr_right
  constructor
  · rintro ⟨k, hk, hpath⟩
    obtain ⟨v, hv⟩ := h.keys k hk
    obtain ⟨hlookup, hsame⟩ := congr_of_agree hv
    refine ⟨v, (h.mapped_iff v).2 (hlookup ▸ hk), ?_⟩
    rw [h.store.stored.tablesOf_eq (h.small v), hsame]
    exact hpath
  · rintro ⟨v, hv, hpath⟩
    rw [h.store.stored.tablesOf_eq (h.small v)] at hpath
    exact ⟨_, (h.mapped_iff v).1 hv, hpath⟩

theorem Represents.refines (h : s.Represents c) : s.Refines where
  addressOf_total v := by
    rw [h.addressOf_eq]
    unfold TableOperation.mapping
    split
    · exact ⟨_, congrArg (Option.map some) (Page.new_address _)⟩
    · exact ⟨_, rfl⟩
    · exact ⟨_, rfl⟩
  addressOf_iff := h.addressOf_iff
  walk_mapped v p flags hlast := by
    rw [h.walk_eq, hlast]
    rfl
  walk_unmapped v hv := by
    rw [h.mapped_iff, h.log, not_isSome_iff_eq_none] at hv
    rw [h.walk_eq, hv]
    rfl
  map_fails v p q flags supply hq := by
    obtain ⟨flags', hlast⟩ := (h.addressOf_iff v q).1 hq
    exact ⟨_, h.map_fails ((h.log v).trans (congrArg _ hlast))⟩
  map_succeeds v p flags supply hp hfresh hlen hv := by
    rw [h.mapped_iff, not_isSome_iff_eq_none] at hv
    rcases h.map_cases hp hfresh hv with ⟨-, hlt⟩ | ⟨frames, hmap, -⟩
    · omega
    · exact ⟨frames, hmap⟩
  unmap_fails v hv := by
    rw [h.mapped_iff, not_isSome_iff_eq_none] at hv
    exact ⟨_, h.unmap_fails hv⟩
  unmap_succeeds v hv := by
    obtain ⟨frames, hunmap, -⟩ := h.unmap_succeeds hv
    exact ⟨frames, hunmap⟩
  others a t hstep v hv := by
    obtain ⟨c', h'⟩ := h.step hstep
    have hlast := last_of_step hstep hv
    rw [h'.addressOf_eq, h.addressOf_eq, h'.walk_eq, h.walk_eq, hlast]
    exact ⟨rfl, rfl⟩
  tables := h.tables

/-- Every state that calls of `map` and `unmap` lead to is that of a finite map. -/
theorem page_table_refines_map {memory : Nat → Fin 512 → PageDirectoryEntry} {root : Page}
    (hroot : frameOk root.address = true)
    (hreach : Lts.Reachable step (new memory root) s) : s.Refines := by
  have hinv : ∃ c, s.Represents c := by
    refine hreach.invariant (I := fun t => ∃ c, t.Represents c) ?_
      ⟨_, represents_new memory root hroot⟩
    rintro t a u ⟨c, hc⟩ hstep
    exact hc.step hstep
  obtain ⟨c, hc⟩ := hinv
  exact hc.refines

/-- The `k`-th page of the lower half, without the first one. -/
def lowPage (k : Fin 0x1000) : Page where
  address := (k.val + 1) * 0x1000
  ok := pageOk_iff.2 (by omega)

/-- Page `0x400000` is mapped, which needs three tables, and mapped a second time in vain. -/
def mapTwice : List Action :=
  [.map (lowPage 0x3ff) (lowPage 8) ⟨true, true⟩ [0x2000, 0x3000, 0x4000],
    .map (lowPage 0x3ff) (lowPage 9) ⟨false, true⟩ [0x5000, 0x6000, 0x7000]]

/-- When the page is unmapped, only the root is left. -/
theorem page_table_refines_map_once :
    ∃ s t, Lts.run step (new (fun _ _ => .zero) (lowPage 0)) mapTwice = some s ∧
      s.frames.used = [0x4000, 0x3000, 0x2000, 0x1000] ∧ s.Refines ∧
      step s (.unmap (lowPage 0x3ff)) = some t ∧ t.frames.used = [0x1000] ∧ t.Refines := by
  have hrun : ∃ s ∈ Lts.run step (new (fun _ _ => .zero) (lowPage 0)) mapTwice,
      s.frames.used = [0x4000, 0x3000, 0x2000, 0x1000] ∧
        ∃ t ∈ step s (.unmap (lowPage 0x3ff)), t.frames.used = [0x1000] := by
    decide +kernel
  obtain ⟨s, hs, hused, t, ht, hused'⟩ := hrun
  have hreach : Lts.Reachable step (new (fun _ _ => .zero) (lowPage 0)) s := ⟨_, hs⟩
  exact ⟨s, t, hs, hused, page_table_refines_map (by decide) hreach, ht, hused',
    page_table_refines_map (by decide) (hreach.trans (Lts.Reachable.single ht))⟩

end TableSystem

end Fioxa.Paging
