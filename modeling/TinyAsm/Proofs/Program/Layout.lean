import TinyAsm.Proofs.Program.Rejection

/-!
# Layout

Cleaning a program text leaves texts that can be no cleaner, and leaves the same texts however the
text was laid out.

* `Clean text` — there is nothing left to clean. `clean_of_mem_ofSource` states that lines are
  clean, and `ofSource_of_clean` that clean texts, one to a line, are left as they are;
* `Relaid css css'` — the lines `css'` are the lines `css` in another layout: with blank space and
  comments added, and with blank lines and lines of comments put in or taken out;
* `Relaid.held_eq` — the two hold the same texts;
* `Program.assemble_eq_of_texts_eq` — the numbers of lines matter for errors only;
* `layoutIgnored` — all of it for program texts.

Blank space is no quote and no `;`, and so it makes no difference whether it is added before or
after comments are cut off. A comment can be added only where no quote is open, which is where an
even number of quotes stands before it; a line that leaves a quote open would take it for text.
-/

namespace TinyAsm

/-! ### Blank space -/

namespace Blank

variable {cs gap : List Char}

/-- Blank space at the start is taken off. -/
theorem trim_blank_append (h : gap.all isBlank) : trim (gap ++ cs) = trim cs := by
  rw [trim, trim, List.dropWhile_append_of_pos (List.all_eq_true.1 h)]

/-- Blank space has no quote in it. -/
theorem count_quote (h : gap.all isBlank) : gap.count '\'' = 0 := by
  refine List.count_eq_zero.2 fun hquote => ?_
  exact absurd (List.all_eq_true.1 h _ hquote) (by decide)

end Blank

namespace Line

variable {cs gap comment line : List Char} {css css' : List (List Char)} {quoted : Bool}
  {source source' : String}

/-! ### What a line holds -/

/-- Blank space in front stays in front: it opens no quote and starts no comment. -/
theorem uncommented_blank_append (h : gap.all isBlank) (quoted : Bool) (cs : List Char) :
    uncommented quoted (gap ++ cs) = gap ++ uncommented quoted cs := by
  induction gap with
  | nil => rfl
  | cons c gap ih =>
    obtain ⟨hc, hgap⟩ := Bool.and_eq_true_iff.1 h
    -- A blank is neither a quote nor a `;`.
    have hquote : c ≠ '\'' := by
      rintro rfl
      exact absurd hc (by decide)
    have hsemi : c ≠ ';' := by
      rintro rfl
      exact absurd hc (by decide)
    rw [List.cons_append, uncommented_cons hquote fun hcomment => hsemi hcomment.1, ih hgap,
      List.cons_append]

/-- Blank space behind a text stays behind what is left of it, or belongs to its comment. -/
theorem exists_uncommented_append_blank (h : gap.all isBlank) (quoted : Bool) (cs : List Char) :
    ∃ gap', gap'.all isBlank ∧
      uncommented quoted (cs ++ gap) = uncommented quoted cs ++ gap' := by
  induction cs generalizing quoted with
  | nil =>
    refine ⟨gap, h, ?_⟩
    calc uncommented quoted gap
        = uncommented quoted (gap ++ []) := by rw [List.append_nil]
      _ = gap ++ [] := uncommented_blank_append h quoted []
      _ = uncommented quoted [] ++ gap := List.append_nil gap
  | cons c cs ih =>
    -- The cases are those of `uncommented`: a quote, the start of a comment, or anything else.
    by_cases hquote : c = '\''
    · obtain ⟨gap', hgap', heq⟩ := ih (!quoted)
      refine ⟨gap', hgap', ?_⟩
      rw [hquote, List.cons_append, uncommented_cons_quote, uncommented_cons_quote, heq,
        List.cons_append]
    by_cases hcomment : c = ';' ∧ quoted = false
    · obtain ⟨rfl, rfl⟩ := hcomment
      exact ⟨[], rfl, rfl⟩
    · obtain ⟨gap', hgap', heq⟩ := ih quoted
      refine ⟨gap', hgap', ?_⟩
      rw [List.cons_append, uncommented_cons hquote hcomment, uncommented_cons hquote hcomment,
        heq, List.cons_append]

/-- **A comment is cut off** where no quote is open. -/
theorem uncommented_append_comment (h : (cs.count '\'' + quoted.toNat) % 2 = 0)
    (comment : List Char) : uncommented quoted (cs ++ ';' :: comment) = uncommented quoted cs := by
  -- The induction carries whether a quote is open at the head of the text.
  induction cs generalizing quoted with
  | nil =>
    cases quoted with
    | false => rfl
    | true => contradiction
  | cons c cs ih =>
    by_cases hquote : c = '\''
    · have hrest : (cs.count '\'' + (!quoted).toNat) % 2 = 0 := by
        rw [hquote, List.count_cons_self] at h
        cases quoted with
        | false => exact h
        | true =>
          show cs.count '\'' % 2 = 0
          have h : (cs.count '\'' + 1 + 1) % 2 = 0 := h
          omega
      rw [hquote, List.cons_append, uncommented_cons_quote, uncommented_cons_quote, ih hrest]
    · by_cases hcomment : c = ';' ∧ quoted = false
      · -- The text has a comment itself, which hides the new one.
        obtain ⟨rfl, rfl⟩ := hcomment
        rfl
      · rw [List.count_cons_of_ne hquote] at h
        rw [List.cons_append, uncommented_cons hquote hcomment, uncommented_cons hquote hcomment,
          ih h]

/-- Blank space before or behind a line does not change what it holds. -/
theorem content_blank_append (h : gap.all isBlank) (cs : List Char) :
    content (gap ++ cs) = content cs := by
  rw [content, uncommented_blank_append h, Blank.trim_blank_append h, content]

theorem content_append_blank (h : gap.all isBlank) (cs : List Char) :
    content (cs ++ gap) = content cs := by
  obtain ⟨gap', hgap', heq⟩ := exists_uncommented_append_blank h false cs
  rw [content, heq, Blank.trim_append hgap', content]

/-- Nor does a comment behind it, where no quote is open. -/
theorem content_append_comment (h : cs.count '\'' % 2 = 0) (comment : List Char) :
    content (cs ++ ';' :: comment) = content cs := by
  have houtside : (cs.count '\'' + false.toNat) % 2 = 0 := h
  rw [content, uncommented_append_comment houtside, content]

/-! ### Another layout -/

/-- **A line with nothing on it**, or with nothing but a comment. -/
inductive Idle : List Char → Prop where
  | blank {gap : List Char} (h : gap.all isBlank) : Idle gap
  | comment {gap : List Char} (h : gap.all isBlank) (comment : List Char) :
      Idle (gap ++ ';' :: comment)

/-- **The same lines in another layout.** A carriage return at the end of a line can be taken for
a part of the line end, so that it goes where the line end goes. -/
inductive Relaid : List (List Char) → List (List Char) → Prop where
  | nil : Relaid [] []
  | keep (line : List Char) {css css' : List (List Char)} (others : Relaid css css') :
      Relaid (line :: css) (line :: css')
  /-- Blank space around a line, and a comment behind it. There is no open quote at the end of
  the line. -/
  | comment {line before after ending : List Char} (comment : List Char)
      {css css' : List (List Char)} (closed : line.count '\'' % 2 = 0)
      (hbefore : before.all isBlank) (hafter : after.all isBlank)
      (hending : ending = [] ∨ ending = ['\r']) (others : Relaid css css') :
      Relaid ((line ++ ending) :: css) ((before ++ line ++ after ++ ';' :: comment) :: css')
  /-- A line that is put in. -/
  | insert {line : List Char} {css css' : List (List Char)} (idle : Idle line)
      (others : Relaid css css') : Relaid css (line :: css')
  /-- A line that is taken out. -/
  | remove {line : List Char} {css css' : List (List Char)} (idle : Idle line)
      (others : Relaid css css') : Relaid (line :: css) css'

/-- What the lines hold, less those that hold nothing. -/
def held (css : List (List Char)) : List (List Char) :=
  (css.map content).filter (· ≠ [])

theorem Idle.content_eq (h : Idle line) : content line = [] := by
  cases h with
  | blank h =>
    have hnil := content_append_blank h []
    rwa [List.nil_append] at hnil
  | @comment gap h comment =>
    have hcount : gap.count '\'' % 2 = 0 := by rw [Blank.count_quote h]
    have hnil := content_append_blank h []
    rw [List.nil_append] at hnil
    rw [content_append_comment hcount, hnil]
    rfl

/-- **Blank space and a comment** make no difference to what a line holds. -/
theorem content_comment {before after ending : List Char} (closed : line.count '\'' % 2 = 0)
    (hbefore : before.all isBlank) (hafter : after.all isBlank)
    (hending : ending = [] ∨ ending = ['\r']) (comment : List Char) :
    content (before ++ line ++ after ++ ';' :: comment) = content (line ++ ending) := by
  have hcount : (before ++ line ++ after).count '\'' % 2 = 0 := by
    rw [List.count_append, List.count_append, Blank.count_quote hbefore, Blank.count_quote hafter,
      Nat.zero_add, Nat.add_zero, closed]
  -- A carriage return is a blank.
  have hblank : ending.all isBlank := by
    rcases hending with rfl | rfl
    · rfl
    · decide
  calc content (before ++ line ++ after ++ ';' :: comment)
      = content (before ++ line ++ after) := content_append_comment hcount comment
    _ = content (before ++ line) := content_append_blank hafter _
    _ = content line := content_blank_append hbefore line
    _ = content (line ++ ending) := (content_append_blank hblank line).symm

theorem held_cons_of_content_eq {line' : List Char} (hline : content line = content line')
    (hothers : held css = held css') : held (line :: css) = held (line' :: css') := by
  unfold held at hothers ⊢
  rw [List.map_cons, List.map_cons, List.filter_cons, List.filter_cons, hline, hothers]

theorem Idle.held_cons (h : Idle line) (css : List (List Char)) :
    held (line :: css) = held css := by
  rw [held, List.map_cons, h.content_eq]
  exact List.filter_cons_of_neg (by decide)

/-- **Another layout holds the same texts.** -/
theorem Relaid.held_eq (h : Relaid css css') : held css' = held css := by
  -- One case for each way to change the layout.
  induction h with
  | nil => rfl
  | keep line _ ih => exact held_cons_of_content_eq rfl ih
  | comment comment closed hbefore hafter hending _ ih =>
    exact held_cons_of_content_eq (content_comment closed hbefore hafter hending comment) ih
  | insert idle _ ih => rw [idle.held_cons, ih]
  | remove idle _ ih => rw [idle.held_cons, ih]

/-! ### The lines of a text -/

/-- The texts of the lines of a program text. -/
def texts (source : String) : List String :=
  (ofSource source).map Line.text

/-- Lines that were put one under the other, with their numbers. -/
def counted (ts : List String) : List Line :=
  (ts.zipIdx 1).map fun (text, number) => ⟨number, text⟩

/-- **A text with nothing left to clean.** -/
structure Clean (text : List Char) : Prop where
  ne_nil : text ≠ []
  newline : '\n' ∉ text
  /-- There is no blank space at the start. -/
  head : ∀ c ∈ text.head?, isBlank c = false
  /-- There is none at the end. -/
  last : ∀ c ∈ text.getLast?, isBlank c = false
  /-- No comment starts in the text. -/
  bare : Bare false text

theorem map_text_numbered (css : List (List Char)) (number : Nat) :
    (numbered css number).map Line.text = (held css).map String.ofList := by
  induction css generalizing number with
  | nil => rfl
  | cons line css ih =>
    rw [numbered_cons, List.map_append, ih]
    unfold held ofNumbered?
    rw [List.map_cons]
    cases content line with
    | nil => rfl
    | cons c text => rfl

theorem texts_eq_held (source : String) :
    texts source = (held (split source.toList)).map String.ofList := by
  rw [texts, ofSource_eq_numbered, map_text_numbered]

/-- **Another layout of a text has the same texts.** -/
theorem texts_eq_of_relaid (h : Relaid (split source.toList) (split source'.toList)) :
    texts source' = texts source := by
  rw [texts_eq_held, texts_eq_held, h.held_eq]

/-! ### The normal form -/

/-- **A line that was read is clean.** -/
theorem clean_of_mem_ofSource {line : Line} (h : line ∈ ofSource source) :
    Clean line.text.toList := by
  obtain ⟨raw, hraw, htext, hne⟩ := exists_of_mem_ofSource h
  rw [htext]
  exact {
    ne_nil := hne
    newline := fun hnewline => not_mem_of_mem_split hraw ((content_isInfix raw).mem hnewline)
    head := Blank.head_trim _
    last := Blank.last_trim _
    bare := bare_content raw }

/-- **What is clean is left as it is.** -/
theorem Clean.content_eq (h : Clean cs) : content cs = cs := by
  rw [content_of_bare h.bare, Blank.trim_of_ends h.head h.last]

theorem le_number_of_mem_numbered {line : Line} {number : Nat}
    (h : line ∈ numbered css number) : number ≤ line.number := by
  obtain ⟨⟨raw, n⟩, hraw, hline⟩ := List.mem_filterMap.1 h
  have hn : number ≤ n := List.le_snd_of_mem_zipIdx hraw
  have hnumber : line.number = n := by
    rw [(ofNumbered?_eq_some_iff.1 hline).2]
  rwa [hnumber]

/-- **The numbers of lines increase.** -/
theorem pairwise_number_numbered (css : List (List Char)) (number : Nat) :
    (numbered css number).Pairwise fun line line' => line.number < line'.number := by
  induction css generalizing number with
  | nil => exact .nil
  | cons raw css ih =>
    rw [numbered_cons]
    -- A line that holds nothing uses its number up.
    cases hline : ofNumbered? raw number with
    | none => exact ih (number + 1)
    | some line =>
      refine List.pairwise_cons.2 ⟨fun line' hline' => ?_, ih (number + 1)⟩
      have hnumber : line.number = number := by
        rw [(ofNumbered?_eq_some_iff.1 hline).2]
      have hlater : number + 1 ≤ line'.number := le_number_of_mem_numbered hline'
      rw [hnumber]
      exact hlater

/-- Clean texts are kept as they are, and all of them are kept. -/
theorem numbered_of_clean {ts : List String} (h : ∀ t ∈ ts, Clean t.toList) (number : Nat) :
    numbered (ts.map String.toList) number =
      (ts.zipIdx number).map fun (text, number) => ⟨number, text⟩ := by
  induction ts generalizing number with
  | nil => rfl
  | cons t ts ih =>
    obtain ⟨ht, hts⟩ := List.forall_mem_cons.1 h
    have hline : ofNumbered? t.toList number = some ⟨number, t⟩ := by
      rw [ofNumbered?_eq_some_iff, ht.content_eq, String.ofList_toList]
      exact ⟨ht.ne_nil, rfl⟩
    rw [List.map_cons, numbered_cons, hline, ih hts, List.zipIdx_cons, List.map_cons]
    rfl

/-- **Clean texts, one to a line**, are the lines of what they make up together. -/
theorem ofSource_of_clean {ts : List String} (h : ∀ t ∈ ts, Clean t.toList) :
    ofSource ("\n".intercalate ts) = counted ts := by
  by_cases hne : ts = []
  · -- No texts make up the empty text, whose only line holds nothing.
    rw [hne]
    rfl
  · have hne' : ts.map String.toList ≠ [] := mt List.map_eq_nil_iff.1 hne
    have hnewline : ∀ cs ∈ ts.map String.toList, '\n' ∉ cs :=
      List.forall_mem_map.2 fun t ht => (h t ht).newline
    -- No text has a line end in it, and so the lines are the texts again.
    have hsplit : split ("\n".intercalate ts).toList = ts.map String.toList := by
      rw [String.toList_intercalate]
      exact split_intercalate hne' hnewline
    rw [ofSource_eq_numbered, hsplit, numbered_of_clean h, counted]

end Line

namespace Program

variable {p : Program} {lines lines' : List Line} {source source' : String}

/-- **The numbers of lines matter for errors only**, and there for nothing but the number. -/
theorem extend_eq_of_text_eq (h : lines.map Line.text = lines'.map Line.text) (p : Program) :
    (p.extend lines).1 = (p.extend lines').1 ∧
      (p.extend lines).2.map AssemblyError.cause = (p.extend lines').2.map AssemblyError.cause := by
  induction lines generalizing lines' p with
  | nil =>
    obtain rfl : lines' = [] := List.map_eq_nil_iff.1 h.symm
    exact ⟨rfl, rfl⟩
  | cons line lines ih =>
    obtain ⟨line', others, rfl⟩ : ∃ line' others, lines' = line' :: others :=
      List.exists_cons_of_ne_nil fun hnil => by rw [hnil] at h; contradiction
    obtain ⟨htext, hothers⟩ := List.cons.inj h
    -- Two lines with one text are both a statement, or are bad for the same cause.
    cases hparse : Statement.parse line.text.toList with
    | ok s =>
      have hs : Statement.ofLine line = .ok s := by rw [Statement.ofLine, hparse]; rfl
      have hs' : Statement.ofLine line' = .ok s := by
        rw [Statement.ofLine, ← htext, hparse]
        rfl
      rw [extend_cons_of_ok hs, extend_cons_of_ok hs']
      exact ih hothers (p.add s)
    | error cause =>
      have hs : Statement.ofLine line = .error ⟨line.number, cause⟩ := by
        rw [Statement.ofLine, hparse]
        rfl
      have hs' : Statement.ofLine line' = .error ⟨line'.number, cause⟩ := by
        rw [Statement.ofLine, ← htext, hparse]
        rfl
      rw [extend_cons_of_error hs, extend_cons_of_error hs']
      exact ⟨rfl, rfl⟩

/-- **Texts with the same lines assemble to the same**, up to the number of a bad line. -/
theorem assemble_eq_of_texts_eq (h : Line.texts source' = Line.texts source) :
    (assemble source').mapError AssemblyError.cause =
      (assemble source).mapError AssemblyError.cause := by
  obtain ⟨hprogram, herror⟩ := extend_eq_of_text_eq h {}
  unfold assemble
  revert hprogram herror
  rcases extend {} (Line.ofSource source') with ⟨p', _ | e'⟩ <;>
    rcases extend {} (Line.ofSource source) with ⟨p, _ | e⟩
  · -- Both have a program, or both have an error.
    rintro rfl -
    rfl
  · intro _ herror
    contradiction
  · intro _ herror
    contradiction
  · intro _ herror
    exact congrArg Except.error (Option.some.inj herror)

end Program

namespace Line

variable {source source' : String}

/-- **Cleaning leads to a normal form.** -/
structure NormalForm (source : String) : Prop where
  /-- The lines of a text stand in the order of their numbers. -/
  increasing : ((ofSource source).map Line.number).Pairwise (· < ·)
  /-- There is nothing left to clean in them. -/
  clean : ∀ line ∈ ofSource source, Clean line.text.toList
  /-- Cleaned again, they are the same, and numbered from one. -/
  again : ofSource ("\n".intercalate (texts source)) = counted (texts source)

/-- **Every text is cleaned to a normal form.** -/
theorem normalForm (source : String) : NormalForm source where
  increasing := List.pairwise_map.2 (pairwise_number_numbered _ _)
  clean _ := clean_of_mem_ofSource
  again := ofSource_of_clean (List.forall_mem_map.2 fun _ => clean_of_mem_ofSource)

/-- **Layout is ignored.** Cleaning leads to a normal form, in which every clean text is found;
another layout of a program text leads to the same texts, and so to the same program or, up to
the number of the line, to the same error. -/
theorem layoutIgnored (h : Relaid (split source.toList) (split source'.toList)) :
    (NormalForm source ∧
      ∀ ts : List String, (∀ t ∈ ts, Clean t.toList) →
        ofSource ("\n".intercalate ts) = counted ts) ∧
    texts source' = texts source ∧
    (Program.assemble source').mapError AssemblyError.cause =
      (Program.assemble source).mapError AssemblyError.cause := by
  have htexts : texts source' = texts source := texts_eq_of_relaid h
  exact ⟨⟨normalForm source, fun _ => ofSource_of_clean⟩, htexts,
    Program.assemble_eq_of_texts_eq htexts⟩

/-- Two layouts of a text whose last line leaves a quote open, and cannot have a comment. -/
theorem layoutIgnored_of_openQuote :
    ∃ source source' : String,
      source = "mov a, 1\r\nmsg 'x;y'\nmsg 'it" ∧
      source' = "; top\n\u3000mov a, 1\t;it's\r\n \u00a0\nmsg 'x;y';\nmsg 'it" ∧
      Relaid (split source.toList) (split source'.toList) ∧
      (NormalForm source ∧
        ∀ ts : List String, (∀ t ∈ ts, Clean t.toList) →
          ofSource ("\n".intercalate ts) = counted ts) ∧
      texts source' = texts source ∧
      (Program.assemble source').mapError AssemblyError.cause =
        (Program.assemble source).mapError AssemblyError.cause := by
  refine ⟨_, _, rfl, rfl, ?relaid, layoutIgnored ?relaid⟩
  case relaid =>
    -- Both texts by their lines, in the form that the layouts speak of.
    have hsplit : split "mov a, 1\r\nmsg 'x;y'\nmsg 'it".toList =
        ["mov a, 1".toList ++ ['\r'], "msg 'x;y'".toList ++ [], "msg 'it".toList] := by
      decide +kernel
    have hsplit' :
        split "; top\n\u3000mov a, 1\t;it's\r\n \u00a0\nmsg 'x;y';\nmsg 'it".toList =
          [[] ++ ';' :: " top".toList,
            ['\u3000'] ++ "mov a, 1".toList ++ ['\t'] ++ ';' :: "it's\r".toList,
            [' ', '\u00a0'], [] ++ "msg 'x;y'".toList ++ [] ++ ';' :: [],
            "msg 'it".toList] := by
      decide +kernel
    rw [hsplit, hsplit']
    -- A comment on top, one behind the first line, a blank line, one behind the second line, and
    -- the last line as it was.
    refine .insert (.comment rfl _) (.comment _ ?_ ?_ ?_ (.inr rfl) (.insert (.blank ?_)
      (.comment [] ?_ rfl rfl (.inl rfl) (.keep _ .nil))))
    all_goals decide +kernel

end Line

end TinyAsm
