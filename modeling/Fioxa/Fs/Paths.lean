import Fioxa.Lib.Lts
import Fioxa.Fs.Lookups

/-! # The working directory of the shell

`cd` replaces the working directory by `add_path(cwd, argument)` (`kernel_userspace/src/fs.rs`). A
relative argument is followed section by section, which keeps the path in normal form (`Normal`). An
absolute one is taken as it is, with empty sections, `.` and `..`, which `get_file_from_path` skips
or looks up as names. -/

namespace Fioxa.Fs

open List
open FAT (sections)

/-- A section of `add_path` is applied to the path. -/
def addSection (path : List Name) (sect : Name) : List Name :=
  if sect = [] ∨ sect = ['.'] then path
  else if sect = ['.', '.'] then path.dropLast
  else path ++ [sect]

def addPath (folder file : Name) : Name :=
  if file.head? = some '/' then file
  else '/' :: ['/'].intercalate ((file.splitOn '/').foldl addSection (sections folder))

/-- The command `cd`, which does not check its argument. -/
def cd (cwd argument : Name) : Option Name := some (addPath cwd argument)

/-- A section that names a file. -/
def Plain (sect : Name) : Prop := sect ≠ [] ∧ sect ≠ ['.'] ∧ sect ≠ ['.', '.']

def Normal (path : Name) : Prop :=
  path.head? = some '/' ∧ (path.tail = [] ∨ ∀ sect ∈ path.tail.splitOn '/', Plain sect)

instance (path : Name) : Decidable (Normal path) :=
  inferInstanceAs (Decidable (_ ∧ (_ ∨ ∀ sect ∈ _, (_ ∧ _ ∧ _))))

variable {path sect : Name} {sects parts : List Name}

theorem notMem_of_mem_splitOn (h : sect ∈ path.splitOn '/') : '/' ∉ sect := by
  induction path generalizing sect with
  | nil =>
    obtain rfl := mem_singleton.1 h
    exact not_mem_nil
  | cons a path ih =>
    rw [splitOn, splitOnP_cons_eq_if_modifyHead] at h
    split at h
    · rcases mem_cons.1 h with rfl | h
      · exact not_mem_nil
      · exact ih h
    · rename_i ha
      cases hsplit : path.splitOnP (· == '/') with
      | nil => exact absurd hsplit (splitOn_ne_nil _ _)
      | cons first rest =>
        rw [hsplit, modifyHead_cons] at h
        rcases mem_cons.1 h with rfl | h
        · rw [mem_cons, not_or]
          refine ⟨fun heq => ha (by simp [← heq]), ih ?_⟩
          rw [splitOn, hsplit]
          exact .head _
        · apply ih
          rw [splitOn, hsplit]
          exact .tail _ h

/-- The sections of a path in normal form. -/
def Parts (parts : List Name) : Prop := ∀ sect ∈ parts, Plain sect ∧ '/' ∉ sect

theorem Normal.sections (h : Normal path) : Parts (FAT.sections path) := by
  obtain ⟨hhead, htail⟩ := h
  obtain ⟨rest, rfl⟩ : ∃ rest, path = '/' :: rest := List.head?_eq_some_iff.1 hhead
  intro sect hsect
  obtain ⟨hmem, hne⟩ := mem_filter.1 hsect
  refine ⟨?_, notMem_of_mem_splitOn hmem⟩
  rw [splitOn, splitOnP_cons_eq_if_modifyHead, if_pos (by simp)] at hmem
  have hne : sect ≠ [] := of_decide_eq_true hne
  have hmem := (mem_cons.1 hmem).resolve_left hne
  rcases htail with hnil | hplain
  · obtain rfl : rest = [] := hnil
    exact absurd (mem_singleton.1 hmem) hne
  · exact hplain sect hmem

theorem Parts.addSection (h : Parts parts) (hsect : '/' ∉ sect) :
    Parts (addSection parts sect) := by
  unfold Fs.addSection
  split
  · exact h
  · split
    · exact fun x hx => h x (dropLast_subset _ hx)
    · rename_i hdot hdots
      intro x hx
      rcases mem_append.1 hx with hx | hx
      · exact h x hx
      · obtain rfl := mem_singleton.1 hx
        exact ⟨⟨fun hnil => hdot (.inl hnil), fun hone => hdot (.inr hone), hdots⟩, hsect⟩

theorem Parts.foldl (h : Parts parts) (hsects : ∀ sect ∈ sects, '/' ∉ sect) :
    Parts (sects.foldl Fs.addSection parts) := by
  induction sects generalizing parts with
  | nil => exact h
  | cons sect sects ih =>
    exact ih (h.addSection (hsects sect (.head _))) fun x hx => hsects x (.tail _ hx)

theorem Parts.normal (h : Parts parts) : Normal ('/' :: ['/'].intercalate parts) := by
  refine ⟨rfl, ?_⟩
  by_cases hnil : parts = []
  · exact .inl (by rw [hnil]; rfl)
  · refine .inr fun sect hsect => ?_
    rw [tail_cons, splitOn_intercalate '/' (fun x hx => (h x hx).2) hnil] at hsect
    exact (h sect hsect).1

theorem normal_addPath_iff {folder file : Name} (h : Normal folder) :
    Normal (addPath folder file) ↔ (file.head? = some '/' → Normal file) := by
  unfold addPath
  split
  · rename_i habsolute
    exact ⟨fun h _ => h, fun h => h habsolute⟩
  · rename_i hrelative
    refine iff_of_true (h.sections.foldl fun sect => notMem_of_mem_splitOn).normal ?_
    exact fun habsolute => absurd habsolute hrelative

/-- The working directory stays in normal form exactly if every absolute argument of `cd` is. -/
theorem cwd_normal_iff (arguments : List Name) : Lts.Always cd Normal ['/'] arguments ↔
    ∀ argument ∈ arguments, argument.head? = some '/' → Normal argument := by
  have hguarded : Lts.Always cd Normal ['/'] arguments ↔ Lts.Guarded cd
      (fun _ argument => argument.head? = some '/' → Normal argument) ['/'] arguments :=
    Lts.always_iff_guarded (fun _ h => h)
      (fun _ _ _ h hnormal hcd => Option.some.inj hcd ▸ (normal_addPath_iff h).2 hnormal)
      (fun _ _ _ h hcd hnormal => (normal_addPath_iff h).1 (Option.some.inj hcd ▸ hnormal))
      (by decide)
  rw [hguarded]
  refine ⟨fun h => ?_, fun h => Lts.guarded_of_forall (fun _ => h) _⟩
  clear hguarded
  generalize ['/'] = cwd at h
  induction arguments generalizing cwd with
  | nil => simp
  | cons argument arguments ih =>
    obtain ⟨hfirst, hrest⟩ := h _ rfl
    exact forall_mem_cons.2 ⟨hfirst, ih _ hrest⟩

/-- `cd /a/../b` -/
theorem cd_keeps_dots : ∃ cwd, Lts.run cd ['/'] ["/a/../b".toList] = some cwd ∧
    cwd = "/a/../b".toList ∧ ¬ Normal cwd :=
  ⟨_, rfl, by decide, by decide⟩

end Fioxa.Fs
