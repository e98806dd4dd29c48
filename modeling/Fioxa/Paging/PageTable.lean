import Fioxa.Lib.Lts
import Fioxa.Paging.Page

/-! # Page tables

`PageTable<TableLevel4>` (`paging/page_table.rs`) for pages of 4 KiB: four levels of tables in raw
frames. `map` makes the tables it needs on the way down, `unmap` frees the tables that it leaves
empty on the way up. A level is a number here: the functions at `n` are those of `TableLevel` `n +
1`, and level 1 is the base of the recursion (`map_inner` and its siblings).

The bits of an entry that no function reads are left out. A call that panics has no result (`none`):
an assertion about larger pages, `set_internal_address` of a number of more than 40 bits,
`Page::new`, or an allocator that has nothing left. -/

namespace Fioxa.Paging

open Function

structure PageDirectoryEntry where
  present : Bool
  readWrite : Bool
  userSuper : Bool
  largerPages : Bool
  internalAddress : Nat
deriving DecidableEq

namespace PageDirectoryEntry

/-- The entry of a page filled with zeros. -/
def zero : PageDirectoryEntry := ⟨false, false, false, false, 0⟩

def getAddress (e : PageDirectoryEntry) : Nat := e.internalAddress <<< 12

def setAddress (e : PageDirectoryEntry) (address : Nat) : Option PageDirectoryEntry :=
  if address >>> 12 < 0x10000000000 then some { e with internalAddress := address >>> 12 } else none

end PageDirectoryEntry

structure MemoryMappingFlags where
  writeable : Bool
  userspace : Bool
deriving DecidableEq

inductive MapMemoryError where
  | memAlreadyMapped (fromAddress toAddress current : Nat)
deriving DecidableEq

inductive UnMapMemoryError where
  | memNotMapped (address : Nat)
  | pathNotFound (address : Nat)
deriving DecidableEq

/-- The address whose translation has to be flushed. -/
structure Flusher where
  address : Nat
deriving DecidableEq

/-- Physical memory, as the entries of the table in each frame, and the allocator: the frames it has
    handed out for tables, and those it hands out next. -/
structure TableFrames where
  entry : Nat → Fin 512 → PageDirectoryEntry
  used : List Nat
  supply : List Nat

namespace TableFrames

/-- `allocate_page`, which clears the frame. -/
def allocatePage (w : TableFrames) : Option (Nat × TableFrames) :=
  match w.supply with
  | [] => none
  | frame :: supply =>
    some (frame,
      { entry := update w.entry frame fun _ => .zero
        used := frame :: w.used
        supply := supply })

def freePage (w : TableFrames) (frame : Nat) : TableFrames :=
  { w with used := w.used.erase frame }

def setEntry (w : TableFrames) (table : Nat) (index : Fin 512) (e : PageDirectoryEntry) :
    TableFrames :=
  { w with entry := update w.entry table (update (w.entry table) index e) }

def allEntriesEmpty (w : TableFrames) (table : Nat) : Bool :=
  !(List.finRange 512).any fun index => (w.entry table index).present

/-! ## Mapping -/

def mapInner (w : TableFrames) (table : Nat) (v p : Page) (flags : MemoryMappingFlags) :
    Option (Except MapMemoryError Flusher × TableFrames) :=
  let index := calculateIndex 1 v.address
  let e := w.entry table index
  if e.present then
    some (.error (.memAlreadyMapped v.address p.address e.getAddress), w)
  else
    let e := { e with
      present := true
      largerPages := false
      readWrite := flags.writeable
      userSuper := flags.userspace }
    match e.setAddress p.address with
    | none => none
    | some e => some (.ok ⟨v.address⟩, w.setEntry table index e)

def map : Nat → TableFrames → Nat → Page → Page → MemoryMappingFlags →
    Option (Except MapMemoryError Flusher × TableFrames)
  | 0, w, table, v, p, flags => w.mapInner table v p flags
  | n + 1, w, table, v, p, flags =>
    let index := calculateIndex (n + 2) v.address
    let e := w.entry table index
    if e.present then
      -- map over larger pages
      if e.largerPages then none
      else map n w e.getAddress v p flags
    else
      match w.allocatePage with
      | none => none
      | some (next, w) =>
        let e := { w.entry table index with
          present := true
          largerPages := false
          readWrite := true
          userSuper := true }
        match e.setAddress next with
        | none => none
        | some e => map n (w.setEntry table index e) next v p flags

/-! ## Unmapping -/

/-- `set_present(false)` and `set_address(0)`: the other bits stay behind. -/
def clearEntry (w : TableFrames) (table : Nat) (index : Fin 512) : TableFrames :=
  w.setEntry table index { w.entry table index with present := false, internalAddress := 0 }

def unmapInner (w : TableFrames) (table : Nat) (v : Page) :
    Option (Except UnMapMemoryError Flusher × TableFrames) :=
  let index := calculateIndex 1 v.address
  let e := w.entry table index
  if !e.present then some (.error (.memNotMapped v.address), w)
  else if e.largerPages then none
  else some (.ok ⟨v.address⟩, w.clearEntry table index)

def unmap : Nat → TableFrames → Nat → Page →
    Option (Except UnMapMemoryError Flusher × TableFrames)
  | 0, w, table, v => w.unmapInner table v
  | n + 1, w, table, v =>
    let index := calculateIndex (n + 2) v.address
    let e := w.entry table index
    if !e.present then some (.error (.memNotMapped v.address), w)
    else if e.largerPages then none
    else
      let next := e.getAddress
      match unmap n w next v with
      | none => none
      | some (r, w) =>
        -- try cleaning up memory
        if w.allEntriesEmpty next then
          match Page.new next with
          | none => none
          | some page => some (r, (w.clearEntry table index).freePage page.address)
        else some (r, w)

/-! ## Translating -/

def addressOfInner (w : TableFrames) (table : Nat) (v : Page) : Option (Option Page) :=
  let e := w.entry table (calculateIndex 1 v.address)
  if e.present && e.largerPages == false then (Page.new e.getAddress).map some
  else some none

def addressOf : Nat → TableFrames → Nat → Page → Option (Option Page)
  | 0, w, table, v => w.addressOfInner table v
  | n + 1, w, table, v =>
    let e := w.entry table (calculateIndex (n + 2) v.address)
    if e.present then
      if e.largerPages then none else addressOf n w e.getAddress v
    else some none

/-- The translation by the processor: the physical address, and whether the page may be written to
    and accessed in user mode, which the entries of all levels have to allow. -/
def walk : Nat → TableFrames → Nat → Page → Option (Nat × Bool × Bool)
  | 0, w, table, v =>
    let e := w.entry table (calculateIndex 1 v.address)
    if e.present then some (e.getAddress, e.readWrite, e.userSuper) else none
  | n + 1, w, table, v =>
    let e := w.entry table (calculateIndex (n + 2) v.address)
    if e.present then
      (walk n w e.getAddress v).map fun (address, readWrite, userSuper) =>
        (address, e.readWrite && readWrite, e.userSuper && userSuper)
    else none

/-- The tables that are on the path of a page. -/
def tablesOf : Nat → TableFrames → Nat → Page → List Nat
  | 0, _, table, _ => [table]
  | n + 1, w, table, v =>
    let e := w.entry table (calculateIndex (n + 2) v.address)
    table :: if e.present then tablesOf n w e.getAddress v else []

end TableFrames

/-! ## Sequences of calls -/

/-- An operation that has succeeded. -/
inductive TableOperation where
  | map (v p : Page) (flags : MemoryMappingFlags)
  | unmap (v : Page)
deriving DecidableEq

def TableOperation.page : TableOperation → Page
  | .map v _ _ => v
  | .unmap v => v

/-- A level 4 table, with the operations that have succeeded, the last one first. -/
structure TableSystem where
  frames : TableFrames
  root : Nat
  log : List TableOperation

namespace TableSystem

inductive Action where
  /-- `map`, with the frames that the allocator has for it. -/
  | map (v p : Page) (flags : MemoryMappingFlags) (supply : List Nat)
  | unmap (v : Page)
  /-- A frame that is not in use as a table changes. -/
  | write (frame : Nat) (entries : Fin 512 → PageDirectoryEntry)

/-- The page that the action is about. -/
def Action.page : Action → Option Page
  | .map v _ _ _ => some v
  | .unmap v => some v
  | .write _ _ => none

/-- A frame of physical memory. -/
def frameOk (frame : Nat) : Bool := pageOk frame ∧ frame < 0x10000000000000

/-- The allocator returns frames that are not in use, each of them once. -/
def Fresh (s : TableSystem) (supply : List Nat) : Prop :=
  supply.Nodup ∧ ∀ frame ∈ supply, frame ∉ s.frames.used ∧ frameOk frame = true

instance (s : TableSystem) (supply : List Nat) : Decidable (s.Fresh supply) :=
  inferInstanceAs (Decidable (_ ∧ _))

def map (s : TableSystem) (v p : Page) (flags : MemoryMappingFlags) (supply : List Nat) :
    Option (Except MapMemoryError Flusher × TableFrames) :=
  TableFrames.map 3 { s.frames with supply := supply } s.root v p flags

def unmap (s : TableSystem) (v : Page) : Option (Except UnMapMemoryError Flusher × TableFrames) :=
  s.frames.unmap 3 s.root v

def addressOf (s : TableSystem) (v : Page) : Option (Option Page) := s.frames.addressOf 3 s.root v

def walk (s : TableSystem) (v : Page) : Option (Nat × Bool × Bool) := s.frames.walk 3 s.root v

/-- The last operation on a page that has succeeded. -/
def last (s : TableSystem) (v : Page) : Option TableOperation := s.log.find? (·.page = v)

/-- `PageTable::new`, with the root that the allocator returns. -/
def new (memory : Nat → Fin 512 → PageDirectoryEntry) (root : Page) : TableSystem where
  frames := ⟨update memory root.address fun _ => .zero, [root.address], []⟩
  root := root.address
  log := []

def step (s : TableSystem) : Action → Option TableSystem
  | .map v p flags supply =>
    if frameOk p.address = true ∧ s.Fresh supply then
      match s.map v p flags supply with
      | none => none
      | some (.ok _, frames) => some { s with frames := frames, log := .map v p flags :: s.log }
      | some (.error _, frames) => some { s with frames := frames }
    else none
  | .unmap v =>
    match s.unmap v with
    | none => none
    | some (.ok _, frames) => some { s with frames := frames, log := .unmap v :: s.log }
    | some (.error _, frames) => some { s with frames := frames }
  | .write frame entries =>
    if frame ∈ s.frames.used then none
    else some { s with frames :=
      { s.frames with entry := update s.frames.entry frame entries } }

end TableSystem

end Fioxa.Paging
