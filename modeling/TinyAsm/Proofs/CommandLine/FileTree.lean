import Mathlib.Data.List.Infix
import TinyAsm.CommandLine.Storage
import TinyAsm.Proofs.Except

/-!
# Reading and writing in a file tree

A path is followed component by component, and what a component does depends on where it is met.
This module says where paths lead without following them:

* `FileTree.Enters` — a component leads from one directory to another; `FileTree.Leads` — so do
  several, one after the other;
* `FileTree.Finds` — components lead to a place for a file: all but the last lead to a directory,
  and the last is a name in it that is no directory;
* `FileTree.names?` — the names of the file that a path leads to, there or to be.

Following a path comes to a directory or to a place for a file, and otherwise it fails
(`follow_eq_ok_iff`). A file is only put into a directory that is there already. So it makes no
directory (`hasDirectory_put`), and paths lead where they led before (`names?_of_write`). What is
read afterwards is the new content at all paths of this one file, and the old content at all
paths of any other file (`read_of_write`).
-/

namespace TinyAsm.FileTree

open Utf8 (Bytes)

variable {t t' : FileTree} {dir names names' : List String} {here mid there : Option (List String)}
  {name path other : String} {parts init more : List String} {bytes content : Bytes}
  {target : Target} {f : FileFault}

/-! ### Directories and files of a tree -/

/-- A tree has a directory wherever a file stands below it, and the root in any case. -/
theorem hasDirectory_iff :
    t.hasDirectory names = true ↔ names = [] ∨ ∃ f ∈ t.files, names <+: f.1 ∧ f.1 ≠ names := by
  simp only [hasDirectory, Bool.or_eq_true, decide_eq_true_iff, List.any_eq_true,
    Bool.and_eq_true, List.isPrefixOf_iff_prefix]

/-- The root is a directory. -/
theorem hasDirectory_nil : t.hasDirectory [] = true := hasDirectory_iff.2 (.inl rfl)

/-- **What stands above a directory** is a directory. -/
theorem hasDirectory_above (h : t.hasDirectory names = true) (habove : names' <+: names) :
    t.hasDirectory names' = true := by
  rw [hasDirectory_iff] at h ⊢
  rcases h with rfl | ⟨f, hf, hnames, hne⟩
  · exact .inl (List.prefix_nil.1 habove)
  · -- The file that stands below `names` stands below `names'` as well.
    refine .inr ⟨f, hf, habove.trans hnames, ?_⟩
    rintro rfl
    exact hne (hnames.eq_of_length_le habove.length_le).symm

/-- A file that is put has the new content, and every other file has its own. -/
theorem content?_put :
    (t.put names bytes).content? names' =
      if names' = names then some bytes else t.content? names' := by
  unfold content? put
  rw [List.find?_append, List.find?_filter]
  split
  · next h =>
    -- What was there is dropped.
    rw [h, List.find?_eq_none.2 (by simp), Option.none_or]
    simp
  · next h =>
    have hnew : [(names, bytes)].find? (·.1 = names') = none :=
      List.find?_eq_none.2 (by simpa using fun heq => h heq.symm)
    have hold (f : List String × Bytes) :
        decide (decide (f.1 ≠ names) = true ∧ decide (f.1 = names') = true) =
          decide (f.1 = names') := by
      by_cases hf : f.1 = names'
      · simp [hf, h]
      · simp [hf]
    rw [hnew, Option.or_none, funext hold]

/-- **A file in a directory makes no directory.** -/
theorem hasDirectory_put (hdir : t.hasDirectory dir = true) :
    (t.put (dir ++ [name]) bytes).hasDirectory names = t.hasDirectory names := by
  rw [Bool.eq_iff_iff]
  refine ⟨fun h => ?_, fun h => ?_⟩
  · rw [hasDirectory_iff] at h
    rcases h with rfl | ⟨f, hf, hnames, hne⟩
    · exact hasDirectory_nil
    rcases List.mem_append.1 hf with hold | hnew
    · exact hasDirectory_iff.2 (.inr ⟨f, (List.mem_filter.1 hold).1, hnames, hne⟩)
    · -- The new file stands in `dir`, and so `names` is `dir` or stands above it.
      obtain rfl := List.mem_singleton.1 hnew
      rcases List.prefix_concat_iff.1 hnames with heq | habove
      · exact absurd heq.symm hne
      · exact hasDirectory_above hdir habove
  · rw [hasDirectory_iff] at h ⊢
    rcases h with rfl | ⟨f, hf, hnames, hne⟩
    · exact .inl rfl
    refine .inr ?_
    -- The file that shows the directory is still there, or it was replaced by the new one in its
    -- place.
    by_cases hput : f.1 = dir ++ [name]
    · rw [hput] at hnames hne
      exact ⟨_, List.mem_append_right _ (List.mem_singleton_self _), hnames, hne⟩
    · exact ⟨f, List.mem_append_left _ (List.mem_filter.2 ⟨hf, decide_eq_true hput⟩), hnames, hne⟩

/-! ### Following a path -/

/-- **The name of a file or of a directory**, which is none of the components that say where to
look. -/
def IsName (name : String) : Prop := name ≠ "" ∧ name ≠ "." ∧ name ≠ ".."

/-- **A component leads** from one directory to another. -/
inductive Enters (t : FileTree) :
    Option (List String) → String → Option (List String) → Prop where
  | empty (here : Option (List String)) : Enters t here "" here
  | dot (here : Option (List String)) : Enters t here "." here
  -- What is above the root is not known, and nothing leads back.
  | outside : Enters t none ".." none
  | out : Enters t (some []) ".." none
  | up {dir : List String} (h : dir ≠ []) : Enters t (some dir) ".." (some dir.dropLast)
  | down {dir : List String} {name : String} (hname : IsName name)
      (hshort : ¬255 < name.utf8ByteSize) (hdir : t.hasDirectory (dir ++ [name]) = true) :
      Enters t (some dir) name (some (dir ++ [name]))

/-- **Components lead** from one directory to another, one after the other. -/
inductive Leads (t : FileTree) :
    Option (List String) → List String → Option (List String) → Prop where
  | nil (here : Option (List String)) : Leads t here [] here
  | cons {here mid there : Option (List String)} {name : String} {parts : List String}
      (first : Enters t here name mid) (others : Leads t mid parts there) :
      Leads t here (name :: parts) there

/-- What is at names that are no directory. -/
def entry (t : FileTree) (names : List String) : Target :=
  match t.content? names with
  | some content => .file names content
  | none => .vacant names

/-- A name is looked up in the directory that it is met in. -/
theorem follow_name (hname : IsName name) (more : List String) :
    t.follow (some dir) (name :: more) =
      if 255 < name.utf8ByteSize then .error .nameTooLong
      else if t.hasDirectory (dir ++ [name]) then t.follow (some (dir ++ [name])) more
      else match t.content? (dir ++ [name]) with
        | some content =>
          if more = [] then .ok (.file (dir ++ [name]) content) else .error .notDirectory
        | none => if more = [] then .ok (.vacant (dir ++ [name])) else .error .notFound := by
  obtain ⟨hempty, hdot, hdots⟩ := hname
  exact follow.eq_8 t name more dir hempty hdot (fun h _ => nomatch h) (fun _ h => hdots h)
    (fun _ _ h => hdots h)

theorem follow_of_enters (h : Enters t here name there) (more : List String) :
    t.follow here (name :: more) = t.follow there more := by
  cases h with
  | empty here => exact follow.eq_2 t here more
  | dot here => exact follow.eq_3 t here more
  | outside => exact follow.eq_4 t more
  | out => exact follow.eq_5 t more
  | up h => exact follow.eq_6 t _ more h
  | down hname hshort hdir =>
    rw [follow_name hname, if_neg hshort]
    exact if_pos hdir

/-- Components that lead to a directory are followed first. -/
theorem follow_of_leads (h : Leads t here parts there) (more : List String) :
    t.follow here (parts ++ more) = t.follow there more := by
  induction h with
  | nil here => rfl
  | cons first others ih => rw [List.cons_append, follow_of_enters first, ih]

/-- Outside of the tree no name leads anywhere. -/
theorem follow_none_ne_ok (hname : IsName name) : t.follow none (name :: more) ≠ .ok target := by
  obtain ⟨hempty, hdot, hdots⟩ := hname
  rw [follow.eq_7 t _ _ hempty hdot (fun _ h => hdots h) (fun h _ => nomatch h)
    (fun _ h _ => nomatch h)]
  split <;> exact fun h => nomatch h

/-- **A name that leads to no directory** stands last, or the path leads nowhere. -/
theorem follow_of_isName (hname : IsName name) (hshort : ¬255 < name.utf8ByteSize)
    (hfree : t.hasDirectory (dir ++ [name]) = false) :
    t.follow (some dir) (name :: more) = .ok target ↔
      more = [] ∧ target = t.entry (dir ++ [name]) := by
  rw [follow_name hname, if_neg hshort, hfree, entry]
  -- Behind a file or a free place nothing more can come.
  by_cases hmore : more = []
  · cases t.content? (dir ++ [name]) <;> simp [hmore, eq_comm]
  · cases t.content? (dir ++ [name]) <;> simp [hmore]

/-- A name that is too long is refused at once. -/
theorem follow_of_long (hname : IsName name) (hlong : 255 < name.utf8ByteSize) :
    t.follow (some dir) (name :: more) = .error .nameTooLong := by
  rw [follow_name hname]
  exact if_pos hlong

/-- **Components lead to a place for a file**: all but the last lead to a directory, and the last
is the name of a file in it, there or to be. -/
structure Finds (t : FileTree) (here : Option (List String)) (parts dir : List String)
    (name : String) : Prop where
  leads : ∃ init, parts = init ++ [name] ∧ Leads t here init (some dir)
  isName : IsName name
  short : ¬255 < name.utf8ByteSize
  free : t.hasDirectory (dir ++ [name]) = false

/-- A component leads to a directory, or it is a name. -/
theorem exists_enters_or_isName (t : FileTree) (here : Option (List String)) (name : String) :
    (∃ there, Enters t here name there) ∨ IsName name ∧ ∀ dir, here = some dir →
      255 < name.utf8ByteSize ∨ t.hasDirectory (dir ++ [name]) = false := by
  by_cases hempty : name = ""
  · exact .inl ⟨here, hempty ▸ .empty here⟩
  by_cases hdot : name = "."
  · exact .inl ⟨here, hdot ▸ .dot here⟩
  by_cases hdots : name = ".."
  · subst hdots
    -- Outside of the tree, and in its root, nothing is known above.
    match here with
    | none => exact .inl ⟨none, .outside⟩
    | some [] => exact .inl ⟨none, .out⟩
    | some (_ :: _) => exact .inl ⟨_, .up (List.cons_ne_nil _ _)⟩
  have hname : IsName name := ⟨hempty, hdot, hdots⟩
  match here with
  | none => exact .inr ⟨hname, fun dir h => nomatch h⟩
  | some dir =>
    -- A name leads on if it is not too long and there is such a directory.
    by_cases hlong : 255 < name.utf8ByteSize
    · exact .inr ⟨hname, fun _ _ => .inl hlong⟩
    by_cases hdir : t.hasDirectory (dir ++ [name]) = true
    · exact .inl ⟨_, .down hname hlong hdir⟩
    · refine .inr ⟨hname, ?_⟩
      rintro _ ⟨⟩
      exact .inr (Bool.eq_false_iff.2 hdir)

/-- **What a path leads to**: a directory, or a place for a file. -/
theorem follow_eq_ok_iff :
    t.follow here parts = .ok target ↔
      (∃ there, Leads t here parts there) ∧ target = .directory ∨
      ∃ dir name, Finds t here parts dir name ∧ target = t.entry (dir ++ [name]) := by
  refine ⟨fun h => ?_, ?_⟩
  · -- A component that leads to a directory is left to the components behind it.
    induction parts generalizing here with
    | nil =>
      rw [follow.eq_1] at h
      exact .inl ⟨⟨here, .nil here⟩, (Except.ok.inj h).symm⟩
    | cons first others ih =>
      rcases exists_enters_or_isName t here first with ⟨mid, hfirst⟩ | ⟨hname, hnone⟩
      · rw [follow_of_enters hfirst] at h
        rcases ih h with ⟨⟨there, hothers⟩, htarget⟩ | ⟨dir, name, hfinds, htarget⟩
        · exact .inl ⟨⟨there, .cons hfirst hothers⟩, htarget⟩
        · obtain ⟨init, rfl, hinit⟩ := hfinds.leads
          exact .inr ⟨dir, name, { hfinds with leads := ⟨first :: init, rfl, .cons hfirst hinit⟩ },
            htarget⟩
      · -- Otherwise it has to be the name of a file.
        match here with
        | none => exact absurd h (follow_none_ne_ok hname)
        | some dir =>
          by_cases hlong : 255 < first.utf8ByteSize
          · rw [follow_of_long hname hlong] at h
            contradiction
          have hfree := (hnone dir rfl).resolve_left hlong
          obtain ⟨rfl, htarget⟩ := (follow_of_isName hname hlong hfree).1 h
          exact .inr ⟨dir, first, ⟨⟨[], rfl, .nil _⟩, hname, hlong, hfree⟩, htarget⟩
  · -- Conversely, the components before the last one are followed to their directory.
    rintro (⟨⟨there, hleads⟩, rfl⟩ | ⟨dir, name, hfinds, rfl⟩)
    · have hfollow := follow_of_leads hleads []
      rwa [List.append_nil, follow.eq_1] at hfollow
    · obtain ⟨init, rfl, hinit⟩ := hfinds.leads
      rw [follow_of_leads hinit]
      exact (follow_of_isName hfinds.isName hfinds.short hfinds.free).2 ⟨rfl, rfl⟩

/-! ### What stays when a file is put -/

/-- A path inside of the tree leads to directories of the tree. -/
theorem hasDirectory_of_leads (h : Leads t here parts there)
    (hhere : ∀ dir, here = some dir → t.hasDirectory dir = true) :
    ∀ dir, there = some dir → t.hasDirectory dir = true := by
  induction h with
  | nil here => exact hhere
  | cons first others ih =>
    refine ih ?_
    -- Staying and going up lead to what is a directory already; going down asks for one.
    cases first with
    | empty | dot => exact hhere
    | outside | out => exact fun dir h => nomatch h
    | up h =>
      rintro _ ⟨⟩
      exact hasDirectory_above (hhere _ rfl) (List.dropLast_prefix _)
    | down _ _ hdir =>
      rintro _ ⟨⟩
      exact hdir

/-- A file is only found in a directory that is there. -/
theorem Finds.hasDirectory (h : Finds t (some []) parts dir name) :
    t.hasDirectory dir = true := by
  obtain ⟨init, -, hinit⟩ := h.leads
  refine hasDirectory_of_leads hinit ?_ dir rfl
  rintro _ ⟨⟩
  exact hasDirectory_nil

/-- **Components lead where they led** if the directories are the same. -/
theorem Leads.congr (h : Leads t here parts there)
    (hsame : ∀ names, t'.hasDirectory names = t.hasDirectory names) :
    Leads t' here parts there := by
  induction h with
  | nil here => exact .nil here
  | cons first others ih =>
    refine .cons ?_ ih
    -- Going down is the only step that asks for a directory.
    cases first with
    | empty here => exact .empty _
    | dot here => exact .dot _
    | outside => exact .outside
    | out => exact .out
    | up h => exact .up h
    | down hname hshort hdir => exact .down hname hshort ((hsame _).trans hdir)

theorem Finds.congr (h : Finds t here parts dir name)
    (hsame : ∀ names, t'.hasDirectory names = t.hasDirectory names) :
    Finds t' here parts dir name := by
  obtain ⟨init, hinit, hleads⟩ := h.leads
  exact ⟨⟨init, hinit, hleads.congr hsame⟩, h.isName, h.short, (hsame _).trans h.free⟩

/-! ### Reading and writing -/

/-- The names of a file that is there or could be. -/
def Target.names? : Target → Option (List String)
  | directory => none
  | file names _ | vacant names => some names

/-- **The names that a path leads to**, of a file that is there or could be. -/
def names? (t : FileTree) (path : String) : Option (List String) :=
  match t.target path with
  | .ok target => target.names?
  | .error _ => none

/-- A path that the system follows from the working directory. -/
def Relative (path : String) : Prop :=
  path ≠ "" ∧ ¬4095 < path.utf8ByteSize ∧ path.toList.head? ≠ some '/'

theorem target_of_relative (h : Relative path) :
    t.target path = t.follow (some []) (components path) := by
  obtain ⟨hempty, hshort, hhead⟩ := h
  rw [target, if_neg hempty, if_neg hshort, if_neg hhead]

/-- There is no way back into the tree. -/
theorem eq_none_of_leads (h : Leads t here parts there) (hhere : here = none) : there = none := by
  induction h with
  | nil => exact hhere
  | cons first others ih =>
    refine ih ?_
    cases first with
    | empty | dot => exact hhere
    | outside | out => rfl
    | up | down => exact nomatch hhere

/-- A path to a place for a file leads to the file that is there, or to the free place. -/
theorem target_of_finds (hpath : Relative path)
    (h : Finds t (some []) (components path) dir name) :
    t.target path = .ok (t.entry (dir ++ [name])) := by
  rw [target_of_relative hpath]
  exact follow_eq_ok_iff.2 (.inr ⟨dir, name, h, rfl⟩)

/-- **What a path leads to** if it is no directory. -/
theorem exists_finds_of_target (h : t.target path = .ok target) (hne : target ≠ .directory) :
    Relative path ∧ ∃ dir name, Finds t (some []) (components path) dir name ∧
      target = t.entry (dir ++ [name]) := by
  unfold FileTree.target at h
  split at h
  · contradiction
  split at h
  · contradiction
  next hempty hshort =>
  rcases follow_eq_ok_iff.1 h with ⟨-, hdir⟩ | ⟨dir, name, hfinds, htarget⟩
  · exact absurd hdir hne
  split at hfinds
  · -- The path starts outside of the tree, and stays there.
    obtain ⟨_, -, hleads⟩ := hfinds.leads
    exact absurd (eq_none_of_leads hleads rfl) (Option.some_ne_none dir)
  · next hhead => exact ⟨⟨hempty, hshort, hhead⟩, dir, name, hfinds, htarget⟩

theorem names?_entry : (t.entry names).names? = some names := by
  unfold entry
  split <;> rfl

/-- **Where a path leads to a file**, there or to be. -/
theorem names?_eq_some_iff :
    t.names? path = some names ↔ Relative path ∧
      ∃ dir name, Finds t (some []) (components path) dir name ∧ names = dir ++ [name] := by
  refine ⟨fun h => ?_, ?_⟩
  · unfold names? at h
    split at h
    · next target htarget =>
      -- A directory has no such names.
      have hne : target ≠ .directory := by
        rintro rfl
        contradiction
      obtain ⟨hpath, dir, name, hfinds, rfl⟩ := exists_finds_of_target htarget hne
      rw [names?_entry] at h
      exact ⟨hpath, dir, name, hfinds, (Option.some.inj h).symm⟩
    · contradiction
  · rintro ⟨hpath, dir, name, hfinds, rfl⟩
    rw [names?, target_of_finds hpath hfinds]
    exact names?_entry

theorem target_of_names? (h : t.names? path = some names) :
    t.target path = .ok (t.entry names) := by
  obtain ⟨hpath, dir, name, hfinds, rfl⟩ := names?_eq_some_iff.1 h
  exact target_of_finds hpath hfinds

/-- Reading by a path gives the content of the file that it leads to, if there is one. -/
theorem read_of_names? (h : t.names? path = some names) :
    t.read path = (t.content? names).elim (.error .notFound) .ok := by
  rw [read, target_of_names? h, entry]
  cases t.content? names with
  | some content => rfl
  | none => rfl

/-- **A file is written** where its path leads to. -/
theorem write_eq_ok_iff :
    t.write path bytes = .ok t' ↔ ∃ names, t.names? path = some names ∧ t' = t.put names bytes := by
  simp only [write, names?, Except.bind_eq_ok_iff]
  -- A file is written if the path has names, and these are those that it is put at.
  cases t.target path with
  | error f => simp
  | ok target =>
    cases target with
    | directory => simp [Target.names?, throw, throwThe, MonadExceptOf.throw]
    | file names _ | vacant names => simp [Target.names?, eq_comm (a := t')]

/-- **A file is read** where its path leads to. -/
theorem read_eq_ok_iff :
    t.read path = .ok content ↔
      ∃ names, t.names? path = some names ∧ t.content? names = some content := by
  refine ⟨fun h => ?_, ?_⟩
  · -- A path that leads to a file has names.
    obtain ⟨names, hnames⟩ : ∃ names, t.names? path = some names := by
      unfold names?
      unfold read at h
      cases htarget : t.target path with
      | error f =>
        rw [htarget] at h
        contradiction
      | ok target =>
        rw [htarget] at h
        cases target with
        | directory => contradiction
        | file names _ | vacant names => exact ⟨names, rfl⟩
    rw [read_of_names? hnames] at h
    refine ⟨names, hnames, ?_⟩
    -- The place is not a free one, since something was read.
    cases hcontent : t.content? names with
    | none =>
      rw [hcontent] at h
      contradiction
    | some found =>
      rw [hcontent] at h
      exact congrArg some (Except.ok.inj h)
  · rintro ⟨names, hnames, hcontent⟩
    rw [read_of_names? hnames, hcontent]
    rfl

/-- **Paths lead where they led** when a file is written. -/
theorem names?_of_write (hwrite : t.write path bytes = .ok t') (h : t.names? other = some names) :
    t'.names? other = some names := by
  obtain ⟨written, hwritten, rfl⟩ := write_eq_ok_iff.1 hwrite
  obtain ⟨-, dir, name, hfinds, rfl⟩ := names?_eq_some_iff.1 hwritten
  obtain ⟨hother, dir', name', hfinds', rfl⟩ := names?_eq_some_iff.1 h
  -- The way to a file depends on the directories only, and these are the same.
  refine names?_eq_some_iff.2 ⟨hother, dir', name', hfinds'.congr fun names => ?_, rfl⟩
  exact hasDirectory_put hfinds.hasDirectory

/-- **What is read after a file was written**: the new content at all paths of this file, and
the old one at all paths of others. -/
theorem read_of_write (hwrite : t.write path bytes = .ok t') (h : t.names? other = some names) :
    t'.read other = if t.names? path = some names then .ok bytes else t.read other := by
  rw [read_of_names? (names?_of_write hwrite h), read_of_names? h]
  obtain ⟨written, hwritten, rfl⟩ := write_eq_ok_iff.1 hwrite
  rw [content?_put, hwritten]
  -- Both paths lead to one file, or the other file was not touched.
  by_cases heq : names = written
  · rw [if_pos heq, if_pos (congrArg some heq.symm)]
    rfl
  · rw [if_neg heq, if_neg fun h => heq (Option.some.inj h).symm]

/-! ### Names in the same directory -/

/-- The way to a directory leads through another one, wherever it is cut. -/
theorem exists_of_leads_append (h : Leads t here (parts ++ more) there) :
    ∃ mid, Leads t here parts mid ∧ Leads t mid more there := by
  induction parts generalizing here with
  | nil => exact ⟨here, .nil here, h⟩
  | cons first others ih =>
    cases h with
    | cons hfirst hothers =>
      obtain ⟨mid, hmid, hmore⟩ := ih hothers
      exact ⟨mid, .cons hfirst hmid, hmore⟩

/-- **A path leads through directories** up to each of its components. -/
theorem exists_leads (h : t.names? path = some names) (hparts : components path = parts ++ more)
    (hmore : more ≠ []) : ∃ dir, Leads t (some []) parts (some dir) := by
  obtain ⟨-, dir, name, hfinds, rfl⟩ := names?_eq_some_iff.1 h
  obtain ⟨init, hinit, hleads⟩ := hfinds.leads
  -- Something is left for the name at the end, so that `parts` belong to the way to it.
  obtain ⟨before, last, rfl⟩ : ∃ before last, more = before ++ [last] :=
    ⟨_, _, (List.dropLast_append_getLast hmore).symm⟩
  rw [hparts, ← List.append_assoc] at hinit
  obtain ⟨rfl, -⟩ := List.append_inj' hinit rfl
  obtain ⟨mid, hmid, hbefore⟩ := exists_of_leads_append hleads
  match mid with
  | none => exact absurd (eq_none_of_leads hbefore rfl) (Option.some_ne_none dir)
  | some mid => exact ⟨mid, hmid⟩

/-- **Writing under a name in a directory** works, unless the system does not accept the path for
its length or there is a directory with this name. -/
theorem write_in (h : Leads t (some []) parts (some dir)) (hname : IsName name)
    (hpath : components path = parts ++ [name]) (hempty : path ≠ "")
    (hhead : path.toList.head? ≠ some '/') :
    (∃ t', t.write path bytes = .ok t') ∨
      ∃ f, (f = .nameTooLong ∨ f = .isDirectory) ∧ t.write path bytes = .error f := by
  -- The length of the whole path counts first, then that of the name, and only then the files.
  by_cases hlong : 4095 < path.utf8ByteSize
  · refine .inr ⟨_, .inl rfl, ?_⟩
    rw [write, FileTree.target, if_neg hempty, if_pos hlong]
    rfl
  have htarget : t.target path = t.follow (some dir) [name] := by
    rw [target_of_relative ⟨hempty, hlong, hhead⟩, hpath, follow_of_leads h]
  by_cases hlongName : 255 < name.utf8ByteSize
  · refine .inr ⟨_, .inl rfl, ?_⟩
    rw [write, htarget, follow_of_long hname hlongName]
    rfl
  by_cases hdir : t.hasDirectory (dir ++ [name]) = true
  · refine .inr ⟨_, .inr rfl, ?_⟩
    rw [write, htarget, follow_of_enters (.down hname hlongName hdir), follow.eq_1]
    rfl
  · have hfinds : Finds t (some []) (components path) dir name :=
      ⟨⟨parts, hpath, h⟩, hname, hlongName, Bool.eq_false_iff.2 hdir⟩
    refine .inl ⟨_, write_eq_ok_iff.2 ⟨dir ++ [name], ?_, rfl⟩⟩
    exact names?_eq_some_iff.2 ⟨⟨hempty, hlong, hhead⟩, dir, name, hfinds, rfl⟩

end TinyAsm.FileTree
