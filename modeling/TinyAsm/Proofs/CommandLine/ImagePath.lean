import Mathlib.Data.List.DropRight
import TinyAsm.CommandLine.Perform
import TinyAsm.Proofs.CommandLine.FileTree
import TinyAsm.Proofs.Image.Layout
import TinyAsm.Proofs.Program.Rejection
import TinyAsm.Proofs.Text.Utf8

/-!
# Where an image goes

`build` writes the image of a program text to a path that is made from the path of the text: it is
cut at its last point, and `.asmc` is put behind it (`imagePath`). The cut does not care for
slashes, and the result is not compared with the path of the text. So there are paths for which
the image does not stand beside the text, and paths for which it replaces it. This module says for
which:

* `imagePath_eq_self_iff` — the image has the path of the text exactly if this ends with `.asmc`;
* `directoryPart_imagePath_eq_iff` — it goes into the directory of the text exactly if there is a
  point in the name of the text, or none before it.

Paths that differ can still lead to one file. Not these two: the names they lead to end with
different components (`names?_imagePath_ne`). Then the laws of reading and writing say what becomes
of the files. In the other case the text is really lost, because an image does not assemble
(`Assembles.read_ne`). `builds` collects all this. What it says of paths is said of all of them,
also of those that lead out of the working directory, where a `FileTree` has no texts.
-/

namespace TinyAsm

open Utf8 (Bytes)

variable {file path stem front back : String} {cs xs ys : List Char}

/-! ### Texts from their end -/

/-- The last place of a character in a text. -/
theorem exists_last {c : Char} (h : c ∈ cs) : ∃ xs ys, cs = xs ++ c :: ys ∧ c ∉ ys := by
  obtain ⟨ys, xs, hreverse, hys⟩ := List.eq_append_cons_of_mem (List.mem_reverse.2 h)
  refine ⟨xs.reverse, ys.reverse, ?_, fun hmem => hys (List.mem_reverse.1 hmem)⟩
  rw [← List.reverse_reverse cs, hreverse]
  simp

/-- A text without the character is passed over from its end. -/
theorem ne_of_mem_reverse {c : Char} (h : c ∉ cs) : ∀ x ∈ cs.reverse, decide (x ≠ c) = true := by
  intro x hx
  refine decide_eq_true ?_
  rintro rfl
  exact h (List.mem_reverse.1 hx)

/-! ### The parts of a path -/

/-- **The directory part of a path**: the text up to its last slash, with the slash. -/
def directoryPart (path : String) : String :=
  String.ofList (path.toList.rdropWhile (· ≠ '/'))

/-- **The name part of a path**: the text behind its last slash. -/
def namePart (path : String) : String :=
  String.ofList (path.toList.rtakeWhile (· ≠ '/'))

theorem directoryPart_append_namePart (path : String) :
    directoryPart path ++ namePart path = path := by
  rw [directoryPart, namePart, ← String.ofList_append, List.rdropWhile_append_rtakeWhile,
    String.ofList_toList]

theorem directoryPart_isPrefix (path : String) : (directoryPart path).toList <+: path.toList := by
  rw [directoryPart, String.toList_ofList]
  exact List.rdropWhile_prefix _ _

theorem slash_notMem_namePart (path : String) : '/' ∉ (namePart path).toList := by
  rw [namePart, String.toList_ofList]
  intro h
  have hslash := List.mem_rtakeWhile_imp h
  exact absurd rfl (of_decide_eq_true hslash)

/-- A directory part is one already. -/
theorem directoryPart_directoryPart (path : String) :
    directoryPart (directoryPart path) = directoryPart path := by
  unfold directoryPart
  rw [String.toList_ofList, List.rdropWhile_idempotent]

/-- What is put behind a path without a slash belongs to its name. -/
theorem directoryPart_append (h : '/' ∉ back.toList) :
    directoryPart (front ++ back) = directoryPart front := by
  unfold directoryPart List.rdropWhile
  rw [String.toList_append, List.reverse_append,
    List.dropWhile_append_of_pos (ne_of_mem_reverse h)]

/-- What is put behind a path and has no slash is put behind its last name. -/
theorem namePart_append (h : '/' ∉ back.toList) :
    namePart (front ++ back) = namePart front ++ back := by
  -- The whole path is known, and so is the part before the name.
  have hwhole : directoryPart front ++ namePart (front ++ back) =
      directoryPart front ++ (namePart front ++ back) :=
    calc directoryPart front ++ namePart (front ++ back)
        = front ++ back := by
          rw [← directoryPart_append h, directoryPart_append_namePart]
      _ = directoryPart front ++ (namePart front ++ back) := by
          rw [← String.append_assoc, directoryPart_append_namePart]
  exact String.append_right_inj _ |>.1 hwhole

/-! ### The components of a path -/

/-- A directory part is empty or ends with a slash. -/
theorem directoryPart_eq_empty_or (path : String) :
    directoryPart path = "" ∨ ∃ above, directoryPart path = above ++ "/" := by
  unfold directoryPart
  by_cases h : path.toList.rdropWhile (· ≠ '/') = []
  · rw [h]
    exact .inl rfl
  · have hlast := List.rdropWhile_last_not (fun c => decide (c ≠ '/')) path.toList h
    have hslash : (path.toList.rdropWhile (· ≠ '/')).getLast h = '/' := by
      simpa using hlast
    refine .inr ⟨String.ofList (path.toList.rdropWhile (· ≠ '/')).dropLast, ?_⟩
    rw [← List.dropLast_append_getLast h, hslash]
    simp

/-- **The directory part of a path has components of its own.** -/
theorem exists_components_append (path : String) :
    ∃ above, ∀ name, FileTree.components (directoryPart path ++ name) =
      above ++ FileTree.components name := by
  -- A slash at the end of the directories divides the components, and without directories there
  -- are none.
  rcases directoryPart_eq_empty_or path with h | ⟨above, h⟩
  · exact ⟨[], fun name => by rw [h, String.empty_append, List.nil_append]⟩
  · refine ⟨FileTree.components above, fun name => ?_⟩
    unfold FileTree.components
    rw [h, ← List.map_append, ← List.splitOn_append_cons_self]
    simp

theorem components_of_notMem (h : '/' ∉ path.toList) : FileTree.components path = [path] := by
  rw [FileTree.components, List.splitOn_eq_singleton h, List.map_singleton, String.ofList_toList]

theorem components_ne_nil (path : String) : FileTree.components path ≠ [] := by
  unfold FileTree.components
  exact fun h => List.splitOn_ne_nil _ _ (List.map_eq_nil_iff.1 h)

/-- The name of a path is its last component. -/
theorem getLast?_components (path : String) :
    (FileTree.components path).getLast? = some (namePart path) := by
  obtain ⟨above, habove⟩ := exists_components_append path
  have hpath := habove (namePart path)
  rw [directoryPart_append_namePart, components_of_notMem (slash_notMem_namePart path)] at hpath
  rw [hpath, List.getLast?_concat]

/-! ### The path of an image -/

theorem beforeLastPoint_of_notMem (h : '.' ∉ cs) : beforeLastPoint cs = cs := by
  have hnone : cs.reverse.dropWhile (· ≠ '.') = [] :=
    List.dropWhile_eq_nil_iff.2 (ne_of_mem_reverse h)
  rw [beforeLastPoint, hnone]

/-- The last point is cut off with all that comes after it. -/
theorem beforeLastPoint_append_cons (h : '.' ∉ ys) : beforeLastPoint (xs ++ '.' :: ys) = xs := by
  have hdrop : (xs ++ '.' :: ys).reverse.dropWhile (· ≠ '.') = '.' :: xs.reverse := by
    rw [List.reverse_append, List.reverse_cons, List.append_assoc,
      List.dropWhile_append_of_pos (ne_of_mem_reverse h)]
    rfl
  rw [beforeLastPoint, hdrop]
  exact List.reverse_reverse xs

/-- The last point of two texts is that of the second one, if it has one. -/
theorem beforeLastPoint_append (h : '.' ∈ ys ∨ '.' ∉ xs) :
    beforeLastPoint (xs ++ ys) = xs ++ beforeLastPoint ys := by
  by_cases hys : '.' ∈ ys
  · obtain ⟨zs, tail, rfl, htail⟩ := exists_last hys
    rw [beforeLastPoint_append_cons htail, ← List.append_assoc, beforeLastPoint_append_cons htail]
  · -- There is no point at all, and nothing is cut off.
    have hxs : '.' ∉ xs := h.resolve_left hys
    rw [beforeLastPoint_of_notMem hys, beforeLastPoint_of_notMem]
    rw [List.mem_append]
    exact not_or.2 ⟨hxs, hys⟩

/-- If it has none, the last point of the first one counts. -/
theorem beforeLastPoint_append_of_notMem (hys : '.' ∉ ys) (hxs : '.' ∈ xs) :
    beforeLastPoint (xs ++ ys) = beforeLastPoint xs := by
  obtain ⟨zs, tail, rfl, htail⟩ := exists_last hxs
  rw [beforeLastPoint_append_cons htail, List.append_assoc, List.cons_append]
  refine beforeLastPoint_append_cons ?_
  rw [List.mem_append]
  exact not_or.2 ⟨htail, hys⟩

theorem length_beforeLastPoint_lt (h : '.' ∈ cs) : (beforeLastPoint cs).length < cs.length := by
  obtain ⟨xs, ys, rfl, hys⟩ := exists_last h
  rw [beforeLastPoint_append_cons hys, List.length_append]
  exact Nat.lt_add_of_pos_right (Nat.succ_pos _)

theorem beforeLastPoint_isPrefix (cs : List Char) : beforeLastPoint cs <+: cs := by
  by_cases h : '.' ∈ cs
  · obtain ⟨xs, ys, rfl, hys⟩ := exists_last h
    rw [beforeLastPoint_append_cons hys]
    exact List.prefix_append xs _
  · rw [beforeLastPoint_of_notMem h]

/-- The path of an image without its ending. -/
def imageStem (file : String) : String :=
  String.ofList (beforeLastPoint file.toList)

theorem exists_eq_imageStem_append (file : String) : ∃ tail, file = imageStem file ++ tail := by
  obtain ⟨tail, htail⟩ := beforeLastPoint_isPrefix file.toList
  refine ⟨String.ofList tail, ?_⟩
  rw [imageStem, ← String.ofList_append, htail, String.ofList_toList]

/-- **A text that is named as an image** has itself as the path of its image. -/
theorem imagePath_eq_self_iff : imagePath file = file ↔ ∃ stem, file = stem ++ ".asmc" := by
  refine ⟨fun h => ⟨_, h.symm⟩, ?_⟩
  rintro ⟨stem, rfl⟩
  have hcut : beforeLastPoint (stem ++ ".asmc").toList = stem.toList := by
    rw [String.toList_append]
    exact beforeLastPoint_append_cons (by decide)
  rw [imagePath, hcut, String.ofList_toList]

theorem directoryPart_imagePath (file : String) :
    directoryPart (imagePath file) = directoryPart (imageStem file) :=
  directoryPart_append (by decide)

/-- **The image of a text stands beside it** if the name of the text has a point, or the
directories before it have none. Otherwise the path is cut inside of them. -/
theorem directoryPart_imagePath_eq_iff :
    directoryPart (imagePath file) = directoryPart file ↔
      '.' ∈ (namePart file).toList ∨ '.' ∉ (directoryPart file).toList := by
  have hfile : file.toList = (directoryPart file).toList ++ (namePart file).toList := by
    rw [← String.toList_append, directoryPart_append_namePart]
  rw [directoryPart_imagePath, imageStem, hfile]
  by_cases h : '.' ∈ (namePart file).toList ∨ '.' ∉ (directoryPart file).toList
  · -- The cut is in the name, or there is none.
    refine iff_of_true ?_ h
    have hslash : '/' ∉ (String.ofList (beforeLastPoint (namePart file).toList)).toList := by
      rw [String.toList_ofList]
      exact fun hmem => slash_notMem_namePart file ((beforeLastPoint_isPrefix _).subset hmem)
    rw [beforeLastPoint_append h, String.ofList_append, String.ofList_toList,
      directoryPart_append hslash]
    exact directoryPart_directoryPart file
  · refine iff_of_false ?_ h
    obtain ⟨hname, hdirectory⟩ := not_or.1 h
    rw [not_not] at hdirectory
    rw [beforeLastPoint_append_of_notMem hname hdirectory]
    intro heq
    -- What is left of the directories is too short to be all of them.
    have hleft := directoryPart_isPrefix
      (String.ofList (beforeLastPoint (directoryPart file).toList))
    rw [heq, String.toList_ofList] at hleft
    exact absurd hleft.length_le (Nat.not_le_of_lt (length_beforeLastPoint_lt hdirectory))

/-! ### An image is no program text -/

/-- Bytes that go on from those of a text are those of a text that goes on. -/
theorem exists_of_encode_append {bytes : Bytes} (h : Utf8.encode xs ++ bytes = Utf8.encode cs) :
    ∃ ds, cs = xs ++ ds := by
  induction xs generalizing cs with
  | nil => exact ⟨cs, rfl⟩
  | cons c xs ih =>
    rw [Utf8.encode_cons, List.append_assoc] at h
    cases cs with
    | nil =>
      obtain ⟨hchar, -⟩ := List.append_eq_nil_iff.1 h
      exact absurd hchar String.utf8EncodeChar_ne_nil
    | cons d ds =>
      -- Both texts start with the character that the bytes start with.
      obtain ⟨b, bs, hb, hnext⟩ := Utf8.exists_cons_of_encode c (Utf8.encode xs ++ bytes)
      rw [h] at hb
      have hnext' : Utf8.next b bs = .char d (Utf8.encode ds) := Utf8.next_eq_char_iff.2 hb.symm
      obtain ⟨rfl, hrest⟩ := Utf8.Next.char.inj (hnext.symm.trans hnext')
      obtain ⟨tail, rfl⟩ := ih hrest
      exact ⟨tail, rfl⟩

/-- The first line of an image is no statement. -/
theorem assemble_of_magic (ds : List Char) (p : Program) :
    Program.assemble (String.ofList ("ASMVMPROGRAM\n".toList ++ ds)) ≠ .ok p := by
  intro h
  have hlines := Program.exists_assemble_eq_ok_iff.1 ⟨p, h⟩
  rw [String.toList_ofList] at hlines
  have hsplit : Line.split ("ASMVMPROGRAM\n".toList ++ ds) =
      "ASMVMPROGRAM".toList :: Line.split ds :=
    Line.split_append_newline "ASMVMPROGRAM".toList ds
  rw [hsplit] at hlines
  -- If the text was a program, then its first line would be accepted.
  have hfirst : (({} : Program).extend [⟨1, "ASMVMPROGRAM"⟩]).2 = none :=
    hlines _ List.mem_cons_self 1 _ (by decide +kernel)
  exact absurd hfirst (by decide +kernel)

/-! ### Building -/

namespace Command

variable {σ : Type} {n : Nat}

/-- Writes the image of the program of a text to where it goes, and says where that was. -/
def putImage {m : Type → Type} [Monad m] (s : Storage m) (file : String) (p : Program) :
    m Response := do
  match ← s.write (imagePath file) (Image.encode p) with
  | .error f => return .failure (.file f)
  | .ok () => return { result := .ok (.wrote (imagePath file) p.size) }

/-- **Building a text that assembles is one write**, at the path of the image. This is so for
every path and whatever holds the files: nothing is asked of the storage but that it gave the
text. -/
theorem run_build_of_loadText {s : Storage (StateM σ)} {x y : σ} {source : String} {p : Program}
    (hload : ((s.loadText file).run x).run = (.ok source, y))
    (hassemble : Program.assemble source = .ok p) :
    ((perform s (.build file)).run x).run = ((putImage s file p).run y).run := by
  have hbuild : buildFrom s file source = putImage s file p := by
    unfold buildFrom
    rw [hassemble]
    rfl
  rw [perform, StateT.run_bind, Id.run_bind, hload, ← hbuild]

theorem path_of_buildFrom (s : Storage (StateM σ)) (source : String) (x : σ)
    (h : ((buildFrom s file source).run x).run.1.result = .ok (.wrote path n)) :
    path = imagePath file := by
  unfold buildFrom at h
  -- The response names a path only if the text assembles and the write succeeds.
  cases hp : Program.assemble source with
  | error e =>
    rw [hp] at h
    contradiction
  | ok p =>
    rw [hp] at h
    simp only [StateT.run_bind, Id.run_bind] at h
    cases hw : ((s.write (imagePath file) (Image.encode p)).run x).run with
    | mk written y =>
      rw [hw] at h
      cases written with
      | error f => exact nomatch h
      | ok _ => exact (Completion.wrote.inj (Except.ok.inj h)).1.symm

/-- **There is one path that an image of a text goes to**, whatever holds the files. -/
theorem path_of_perform_build (s : Storage (StateM σ)) (x : σ)
    (h : ((perform s (.build file)).run x).run.1.result = .ok (.wrote path n)) :
    path = imagePath file := by
  simp only [perform, StateT.run_bind, Id.run_bind] at h
  cases hl : ((s.loadText file).run x).run with
  | mk loaded y =>
    rw [hl] at h
    cases loaded with
    | error e => exact nomatch h
    | ok source => exact path_of_buildFrom s source y h

end Command

namespace FileTree

/-- What building a text comes to, and the files afterwards. -/
def build (t : FileTree) (file : String) : Response × FileTree :=
  ((Command.perform storage (.build file)).run t).run

/-- **There is a program text** at the path, and it assembles. -/
def Assembles (t : FileTree) (file : String) (p : Program) : Prop :=
  ∃ bytes cs, t.read file = .ok bytes ∧ Utf8.decode bytes = .ok cs ∧
    Program.assemble (String.ofList cs) = .ok p

variable {t t' : FileTree} {p : Program}

/-- In a file tree, the one write decides about the response and about the files. -/
theorem build_eq_of_assembles (h : t.Assembles file p) :
    t.build file =
      match t.write (imagePath file) (Image.encode p) with
      | .ok t' => ({ result := .ok (.wrote (imagePath file) p.size) }, t')
      | .error f => (.failure (.file f), t) := by
  obtain ⟨bytes, cs, hread, hdecode, hassemble⟩ := h
  -- Reading the text does not change the files.
  have hload : ((storage.loadText file).run t).run = (.ok (String.ofList cs), t) := by
    simp [Storage.loadText, Storage.load, storage, hread, hdecode]
  rw [build, Command.run_build_of_loadText hload hassemble]
  unfold Command.putImage
  cases hwrite : t.write (imagePath file) (Image.encode p) with
  | ok t' => simp [storage, hwrite]
  | error f => simp [storage, hwrite]

/-- **An image is no program text.** -/
theorem Assembles.read_ne (h : t.Assembles file p) (q : Program) :
    t.read file ≠ .ok (Image.encode q) := by
  obtain ⟨bytes, cs, hread, hdecode, hassemble⟩ := h
  intro himage
  have hbytes : Image.encode q = Utf8.encode cs := by
    rw [← Utf8.decode_eq_ok_iff.1 hdecode]
    exact Except.ok.inj (himage.symm.trans hread)
  have hmagic : ∃ ds, cs = "ASMVMPROGRAM\n".toList ++ ds := by
    unfold Image.encode Image.write Image.magic at hbytes
    rw [List.append_assoc, List.append_assoc] at hbytes
    exact exists_of_encode_append hbytes
  obtain ⟨ds, rfl⟩ := hmagic
  exact assemble_of_magic ds p hassemble

/-- The names that a path leads to end with the name in the path. -/
theorem getLast?_of_names? {names : List String} (h : t.names? path = some names) :
    names.getLast? = some (namePart path) := by
  obtain ⟨-, dir, name, hfinds, rfl⟩ := names?_eq_some_iff.1 h
  obtain ⟨init, hinit, -⟩ := hfinds.leads
  -- The last component of the path is the name that was looked up last.
  rw [List.getLast?_concat, ← getLast?_components, hinit, List.getLast?_concat]

/-- **The image goes to another file** than the text, unless the paths are the same. -/
theorem names?_imagePath_ne {names : List String} (h : t.names? file = some names)
    (hne : ¬∃ stem, file = stem ++ ".asmc") : t.names? (imagePath file) ≠ some names := by
  intro himage
  have hname : namePart file = namePart (imageStem file) ++ ".asmc" := by
    have hlast := (getLast?_of_names? h).symm.trans (getLast?_of_names? himage)
    rw [Option.some.inj hlast]
    exact namePart_append (by decide)
  refine hne ⟨directoryPart file ++ namePart (imageStem file), ?_⟩
  rw [String.append_assoc, ← hname, directoryPart_append_namePart]

/-- An ending makes a name of everything. -/
theorem isName_asmc (stem : String) : IsName (stem ++ ".asmc") := by
  have hlength : 5 ≤ (stem ++ ".asmc").toList.length := by
    rw [String.toList_append, List.length_append]
    exact Nat.le_add_left 5 _
  refine ⟨?_, ?_, ?_⟩
  all_goals
    intro h
    rw [h] at hlength
    exact absurd hlength (by decide)

/-- **The image can be written** unless its path is too long or there is a directory. -/
theorem write_imagePath {names : List String} (h : t.names? file = some names) (bytes : Bytes) :
    (∃ t', t.write (imagePath file) bytes = .ok t') ∨
      ∃ f, (f = .nameTooLong ∨ f = .isDirectory) ∧
        t.write (imagePath file) bytes = .error f := by
  obtain ⟨tail, htail⟩ := exists_eq_imageStem_append file
  obtain ⟨above, habove⟩ := exists_components_append (imageStem file)
  -- Both paths go through the directories before the name of the stem.
  have hfile : components file = above ++ components (namePart (imageStem file) ++ tail) := by
    rw [← habove, ← String.append_assoc, directoryPart_append_namePart, ← htail]
  have himage : components (imagePath file) = above ++ [namePart (imageStem file) ++ ".asmc"] := by
    have hslash : '/' ∉ (namePart (imageStem file) ++ ".asmc").toList := by
      rw [String.toList_append, List.mem_append]
      exact not_or.2 ⟨slash_notMem_namePart _, by decide⟩
    rw [← components_of_notMem hslash, ← habove, ← String.append_assoc,
      directoryPart_append_namePart]
    rfl
  -- The text is found behind these directories, and so they are there.
  obtain ⟨dir, hleads⟩ := exists_leads h hfile (components_ne_nil _)
  refine write_in hleads (isName_asmc _) himage ?empty ?head
  case empty => exact (isName_asmc (imageStem file)).1
  case head =>
    obtain ⟨⟨-, -, hhead⟩, -⟩ := names?_eq_some_iff.1 h
    rw [htail, String.toList_append] at hhead
    show (imageStem file ++ ".asmc").toList.head? ≠ some '/'
    rw [String.toList_append]
    -- The two paths start with the same character, if the stem has one; otherwise the path is
    -- `.asmc`.
    cases hstem : (imageStem file).toList with
    | nil => decide
    | cons c cs =>
      rw [hstem] at hhead
      exact hhead

/-- **The files after an image was written.** -/
structure Written (t t' : FileTree) (file : String) (p : Program) : Prop where
  /-- The image can be read. -/
  image : t'.read (imagePath file) = .ok (Image.encode p)
  /-- The text can be read unless it is named as an image. -/
  source : t'.read file = t.read file ↔ ¬∃ stem, file = stem ++ ".asmc"
  /-- So can all other files, by any paths that lead to them. -/
  others : ∀ other names, t.names? other = some names →
    t.names? (imagePath file) ≠ some names → t'.read other = t.read other

/-- **What building does with a path**, be it below the working directory or not. -/
structure Builds (file : String) : Prop where
  /-- There is one path that the image goes to, whatever holds the files. -/
  destination : ∀ {σ : Type} (s : Storage (StateM σ)) (x : σ) (path : String) (n : Nat),
    ((Command.perform s (.build file)).run x).run.1.result = .ok (.wrote path n) →
      path = imagePath file
  /-- If the text assembles, then writing the image there is all that is done after the text was
  read. -/
  one_write : ∀ {σ : Type} {s : Storage (StateM σ)} {x y : σ} {source : String} {p : Program},
    ((s.loadText file).run x).run = (.ok source, y) → Program.assemble source = .ok p →
      ((Command.perform s (.build file)).run x).run = ((Command.putImage s file p).run y).run
  /-- The path is that of the text exactly if the text is named as an image. -/
  self_iff : imagePath file = file ↔ ∃ stem, file = stem ++ ".asmc"
  /-- The image stands beside the text exactly if the name of the text has a point, or the
  directories before it have none. -/
  beside_iff : directoryPart (imagePath file) = directoryPart file ↔
    '.' ∈ (namePart file).toList ∨ '.' ∉ (directoryPart file).toList
  /-- In a file tree with such a text, the image is written unless the system does not accept its
  path; then no file changes. -/
  outcome : ∀ {t : FileTree} {p : Program}, t.Assembles file p →
    (∃ t', t.build file = ({ result := .ok (.wrote (imagePath file) p.size) }, t') ∧
      Written t t' file p) ∨
    ∃ f, (f = .nameTooLong ∨ f = .isDirectory) ∧ t.build file = (.failure (.file f), t)

/-- **When the image is written**, it can be read, and what else can be read follows from where
the two paths lead. -/
theorem written_of_write (h : t.Assembles file p)
    (hwrite : t.write (imagePath file) (Image.encode p) = .ok t') : Written t t' file p := by
  obtain ⟨names, himage, -⟩ := write_eq_ok_iff.1 hwrite
  have hread : t'.read (imagePath file) = .ok (Image.encode p) := by
    rw [read_of_write hwrite himage, if_pos himage]
  have hothers (other : String) (names : List String) (hother : t.names? other = some names)
      (hne : t.names? (imagePath file) ≠ some names) : t'.read other = t.read other := by
    rw [read_of_write hwrite hother, if_neg hne]
  refine ⟨hread, ⟨?lost, ?kept⟩, hothers⟩
  case lost =>
    -- The image stands where the text was, and it would have to be that text.
    intro hkept hnamed
    rw [imagePath_eq_self_iff.2 hnamed] at hread
    exact h.read_ne p (hkept.symm.trans hread)
  case kept =>
    intro hne
    obtain ⟨bytes, cs, hfile, -⟩ := h
    obtain ⟨names, hnames, -⟩ := read_eq_ok_iff.1 hfile
    exact hothers file names hnames (names?_imagePath_ne hnames hne)

/-- **What building a text in a file tree comes to**: its image is written, or the system does not
accept the path. -/
theorem outcome_of_assembles (h : t.Assembles file p) :
    (∃ t', t.build file = ({ result := .ok (.wrote (imagePath file) p.size) }, t') ∧
      Written t t' file p) ∨
    ∃ f, (f = .nameTooLong ∨ f = .isDirectory) ∧ t.build file = (.failure (.file f), t) := by
  -- The text is there, and so its path leads to a file.
  obtain ⟨names, hnames⟩ : ∃ names, t.names? file = some names := by
    obtain ⟨bytes, cs, hfile, -⟩ := h
    obtain ⟨names, hnames, -⟩ := read_eq_ok_iff.1 hfile
    exact ⟨names, hnames⟩
  rw [build_eq_of_assembles h]
  rcases write_imagePath hnames (Image.encode p) with ⟨t', hwrite⟩ | ⟨f, hf, hwrite⟩
  · rw [hwrite]
    exact .inl ⟨t', rfl, written_of_write h hwrite⟩
  · rw [hwrite]
    exact .inr ⟨f, hf, rfl⟩

/-- **Building does this with every path.** -/
theorem builds (file : String) : Builds file where
  destination := fun s x _ _ => Command.path_of_perform_build s x
  one_write := Command.run_build_of_loadText
  self_iff := imagePath_eq_self_iff
  beside_iff := directoryPart_imagePath_eq_iff
  outcome := outcome_of_assembles

/-- A text in a directory with a point in its name, and a text that is named as an image. -/
def misnamedTexts : FileTree :=
  ⟨[(["d.x", "prog"], Utf8.encode "end".toList), (["p.asmc"], Utf8.encode "end".toList)]⟩

/-- The program of both texts. -/
def endProgram : Program where
  instructions := #[.halt]
  labels := {}

theorem misnamedTexts_assembles (h : file = "d.x/prog" ∨ file = "p.asmc") :
    misnamedTexts.Assembles file endProgram := by
  refine ⟨Utf8.encode "end".toList, "end".toList, ?_, by decide +kernel, by decide +kernel⟩
  rcases h with rfl | rfl
  · decide +kernel
  · decide +kernel

/-- The one in the directory is built: its image is written, and the text is still there. -/
theorem builds_misnamedTexts :
    misnamedTexts.Assembles "d.x/prog" endProgram ∧
      ∃ t', misnamedTexts.build "d.x/prog" = ({ result := .ok (.wrote "d.asmc" 1) }, t') ∧
        Written misnamedTexts t' "d.x/prog" endProgram := by
  have h : misnamedTexts.Assembles "d.x/prog" endProgram := misnamedTexts_assembles (.inl rfl)
  refine ⟨h, ?_⟩
  rcases (builds "d.x/prog").outcome h with ⟨t', hbuild, written⟩ | ⟨f, -, hbuild⟩
  · exact ⟨t', hbuild, written⟩
  · -- The system accepts the path.
    have hresult : (misnamedTexts.build "d.x/prog").1.result = .ok (.wrote "d.asmc" 1) := by
      decide +kernel
    rw [hbuild] at hresult
    contradiction

/-- **An image can go elsewhere, or over its text.** The one of `d.x/prog` is not in `d.x`, and
after the other text was built there is no text any more. -/
theorem image_astray :
    (misnamedTexts.Assembles "d.x/prog" endProgram ∧
      (misnamedTexts.build "d.x/prog").1.result = .ok (.wrote "d.asmc" 1) ∧
      directoryPart "d.asmc" ≠ directoryPart "d.x/prog") ∧
    misnamedTexts.Assembles "p.asmc" endProgram ∧
      (misnamedTexts.build "p.asmc").1.result = .ok (.wrote "p.asmc" 1) ∧
      (misnamedTexts.build "p.asmc").2.read "p.asmc" = .ok (Image.encode endProgram) := by
  refine ⟨⟨misnamedTexts_assembles (.inl rfl), ?_, ?_⟩, misnamedTexts_assembles (.inr rfl), ?_, ?_⟩
  all_goals decide +kernel

end FileTree

end TinyAsm
