import TinyAsm.Proofs.Source.Token
import TinyAsm.Source.Line

/-!
# Lines, comments and blanks

What the cleaning of a program text does and leaves alone.

* A text is divided at its line ends and nowhere else (`split_append_newline`,
  `split_intercalate`), and each line is a part of the text (`isInfix_of_mem_split`).
* `Bare quoted cs` says that no comment starts in `cs`. A text that was cut before its comment
  is bare, and so are its parts that start outside quotes. Of a text that consists of tokens,
  it says that no word has a `;` in it (`bare_iff_of_tiles`): the quotes that hide comments are
  the quotes around texts.
* Trimming leaves a text alone if it has no blank at its ends (`Blank.trim_of_ends`).
-/

namespace TinyAsm

/-! ### Trimming -/

namespace Blank

variable {cs : List Char}

theorem trim_isInfix (cs : List Char) : trim cs <:+: cs := by
  obtain ⟨u, v, hcs, -, -⟩ := exists_eq_append_trim cs
  exact ⟨u, v, hcs.symm⟩

/-- Trimming leaves no blank at the start or at the end. -/
theorem head_trim (cs : List Char) : ∀ c ∈ (trim cs).head?, isBlank c = false := by
  intro c hc
  obtain ⟨r, hr⟩ := List.head?_eq_some_iff.1 hc
  exact isBlank_trim_head hr

theorem last_trim (cs : List Char) : ∀ c ∈ (trim cs).getLast?, isBlank c = false := by
  intro c hc
  obtain ⟨r, hr⟩ := List.getLast?_eq_some_iff.1 hc
  exact isBlank_trim_last hr

theorem dropWhile_of_head (h : ∀ c ∈ cs.head?, isBlank c = false) :
    cs.dropWhile isBlank = cs := by
  have hnone : ∀ c ∈ ([] : List Char), isBlank c = true := nofun
  exact (Token.takeWhile_of_forall hnone h).2

/-- **A text without a blank at either end** is left alone. -/
theorem trim_of_ends (hhead : ∀ c ∈ cs.head?, isBlank c = false)
    (hlast : ∀ c ∈ cs.getLast?, isBlank c = false) : trim cs = cs := by
  have hreverse : ∀ c ∈ cs.reverse.head?, isBlank c = false := by
    rwa [List.head?_reverse]
  rw [trim, dropWhile_of_head hhead, dropWhile_of_head hreverse, List.reverse_reverse]

/-- Blank space at the end is taken off. -/
theorem trim_append {gap : List Char} (h : gap.all isBlank) : trim (cs ++ gap) = trim cs := by
  have hgap : ∀ c ∈ gap, isBlank c = true := List.all_eq_true.1 h
  have hreverse : ∀ c ∈ gap.reverse, isBlank c = true := fun c hc =>
    hgap c (List.mem_reverse.1 hc)
  rw [trim, trim, List.dropWhile_append]
  split
  · next hempty =>
    have hdrop : gap.dropWhile isBlank = [] := List.dropWhile_eq_nil_iff.2 hgap
    rw [hdrop, List.isEmpty_iff.1 hempty]
  · rw [List.reverse_append, List.dropWhile_append_of_pos hreverse]

/-- The gaps of an operand list are blank. -/
theorem isGap_eq_false {c : Char} (h : isBlank c = false) : Token.isGap c = false := by
  refine Bool.eq_false_iff.2 fun hgap => ?_
  rcases Token.isGap_iff.1 hgap with rfl | rfl | rfl
  all_goals contradiction

end Blank

namespace Line

variable {a b cs : List Char} {quoted : Bool}

/-! ### Dividing into lines -/

theorem split_of_not_mem (h : '\n' ∉ cs) : split cs = [cs] := by
  induction cs with
  | nil => rfl
  | cons c cs ih =>
    obtain ⟨hc, hcs⟩ := List.ne_and_not_mem_of_not_mem_cons h
    obtain ⟨line, lines, hsplit, hcons⟩ := split_cons hc.symm cs
    rw [ih hcs] at hsplit
    cases hsplit
    exact hcons

/-- **A text is divided at a line end**, whatever stands on either side. -/
theorem split_append_newline (a b : List Char) :
    split (a ++ '\n' :: b) = split a ++ split b := by
  induction a with
  | nil => rw [List.nil_append, split_cons_newline]; rfl
  | cons c a ih =>
    by_cases hc : c = '\n'
    · rw [hc, List.cons_append, split_cons_newline, split_cons_newline, ih, List.cons_append]
    · -- The character stands before the first line of either text, which is the same.
      obtain ⟨line, lines, hsplit, hcons⟩ := split_cons hc a
      obtain ⟨line', lines', hsplit', hcons'⟩ := split_cons hc (a ++ '\n' :: b)
      rw [ih, hsplit, List.cons_append] at hsplit'
      cases hsplit'
      rw [List.cons_append, hcons', hcons, List.cons_append]

/-- There is one line more than there are line ends. -/
theorem length_split (cs : List Char) : (split cs).length = cs.count '\n' + 1 := by
  induction cs with
  | nil => rfl
  | cons c cs ih =>
    by_cases hc : c = '\n'
    · rw [hc, split_cons_newline, List.length_cons, ih, List.count_cons_self]
    · -- A character that ends no line goes into the first line of the rest.
      obtain ⟨line, lines, hsplit, hcons⟩ := split_cons hc cs
      rw [hsplit, List.length_cons] at ih
      rw [hcons, List.length_cons, List.count_cons_of_ne hc, ih]

/-- **Lines that are put together come apart again.** -/
theorem split_intercalate {lines : List (List Char)} (hne : lines ≠ [])
    (h : ∀ line ∈ lines, '\n' ∉ line) : split (['\n'].intercalate lines) = lines := by
  induction lines with
  | nil => contradiction
  | cons line lines ih =>
    obtain ⟨hline, hlines⟩ := List.forall_mem_cons.1 h
    cases lines with
    | nil => rw [List.intercalate_singleton, split_of_not_mem hline]
    | cons line' lines =>
      have hne' : line' :: lines ≠ [] := List.cons_ne_nil _ _
      rw [List.intercalate_cons_cons, List.append_assoc, List.singleton_append,
        split_append_newline, split_of_not_mem hline, ih hne' hlines, List.singleton_append]

theorem not_mem_of_mem_split {line : List Char} (h : line ∈ split cs) : '\n' ∉ line := by
  induction cs generalizing line with
  | nil =>
    obtain rfl := List.mem_singleton.1 h
    exact List.not_mem_nil
  | cons c cs ih =>
    by_cases hc : c = '\n'
    · rw [hc, split_cons_newline] at h
      rcases List.mem_cons.1 h with rfl | h
      · exact List.not_mem_nil
      · exact ih h
    · obtain ⟨first, lines, hsplit, hcons⟩ := split_cons hc cs
      rw [hcons] at h
      rw [hsplit] at ih
      rcases List.mem_cons.1 h with rfl | h
      · -- The first line is that of the rest, with one more character in front.
        exact List.not_mem_cons_of_ne_of_not_mem (Ne.symm hc) (ih List.mem_cons_self)
      · exact ih (List.mem_cons_of_mem first h)

/-- A line is a part of the text, and the first line stands at its start. -/
theorem split_cons_isInfix {first : List Char} {lines : List (List Char)}
    (h : split cs = first :: lines) : first <+: cs ∧ ∀ line ∈ lines, line <:+: cs := by
  induction cs generalizing first lines with
  | nil => cases h; exact ⟨List.prefix_rfl, nofun⟩
  | cons c cs ih =>
    obtain ⟨first', lines', hsplit⟩ := List.exists_cons_of_ne_nil (split_ne_nil cs)
    obtain ⟨hfirst, hlines⟩ := ih hsplit
    have hcs : cs <:+: c :: cs := (List.suffix_cons c cs).isInfix
    have hlines' : ∀ line ∈ lines', line <:+: c :: cs := fun line hl => (hlines line hl).trans hcs
    -- A line end puts an empty line in front; any other character goes into the first line.
    by_cases hc : c = '\n'
    · rw [hc, split_cons_newline, hsplit] at h
      cases h
      exact ⟨List.nil_prefix, List.forall_mem_cons.2 ⟨hfirst.isInfix.trans hcs, hlines'⟩⟩
    · obtain ⟨line, lines'', hsplit', hcons⟩ := split_cons hc cs
      rw [hsplit] at hsplit'
      cases hsplit'
      rw [hcons] at h
      cases h
      exact ⟨List.prefix_cons_inj c |>.2 hfirst, hlines'⟩

theorem isInfix_of_mem_split {line : List Char} (h : line ∈ split cs) : line <:+: cs := by
  obtain ⟨first, lines, hsplit⟩ := List.exists_cons_of_ne_nil (split_ne_nil cs)
  obtain ⟨hfirst, hlines⟩ := split_cons_isInfix hsplit
  rw [hsplit] at h
  rcases List.mem_cons.1 h with rfl | h
  · exact hfirst.isInfix
  · exact hlines line h

/-! ### Comments -/

/-- A quote is kept, and behind it a `;` means something else. -/
theorem uncommented_cons_quote (quoted : Bool) (cs : List Char) :
    uncommented quoted ('\'' :: cs) = '\'' :: uncommented (!quoted) cs := by
  rw [uncommented, if_pos rfl]

/-- Any other character is kept, too, unless it starts a comment. -/
theorem uncommented_cons {c : Char} (hquote : c ≠ '\'') (hcomment : ¬(c = ';' ∧ quoted = false))
    (cs : List Char) : uncommented quoted (c :: cs) = c :: uncommented quoted cs := by
  have hcond : ¬((decide (c = ';') && !quoted) = true) := by simpa using hcomment
  rw [uncommented, if_neg hquote, if_neg hcond]

/-- **No comment starts in the text**, if it stands inside quotes or not as `quoted` tells. -/
def Bare (quoted : Bool) (cs : List Char) : Prop :=
  uncommented quoted cs = cs

/-- A quote changes what `;` means behind it. -/
theorem bare_quote_iff : Bare quoted ('\'' :: cs) ↔ Bare (!quoted) cs := by
  rw [Bare, Bare, uncommented_cons_quote, List.cons.injEq, eq_self, true_and]

/-- Any other character does not, and starts a comment only if it is a `;` outside quotes. -/
theorem bare_cons_iff {c : Char} (hc : c ≠ '\'') :
    Bare quoted (c :: cs) ↔ (quoted = false → c ≠ ';') ∧ Bare quoted cs := by
  rw [Bare, Bare]
  -- A `;` outside quotes is cut off, and any other character stays.
  by_cases hcomment : c = ';' ∧ quoted = false
  · obtain ⟨rfl, rfl⟩ := hcomment
    simp [uncommented]
  · rw [uncommented_cons hc hcomment, List.cons.injEq, eq_self, true_and]
    refine (and_iff_right ?_).symm
    exact fun hq hsemi => hcomment ⟨hsemi, hq⟩

/-- A text without quotes is all inside of them or all outside, as its start is. -/
theorem bare_append_iff (h : '\'' ∉ a) :
    Bare quoted (a ++ b) ↔ (quoted = false → ';' ∉ a) ∧ Bare quoted b := by
  -- No quote opens or closes on the way, and so `quoted` stays what it is.
  induction a with
  | nil => simp
  | cons c a ih =>
    obtain ⟨hc, ha⟩ := List.ne_and_not_mem_of_not_mem_cons h
    rw [List.cons_append, bare_cons_iff hc.symm, ih ha]
    constructor
    · rintro ⟨hfirst, hrest, hb⟩
      exact ⟨fun hq => List.not_mem_cons_of_ne_of_not_mem (hfirst hq).symm (hrest hq), hb⟩
    · rintro ⟨hall, hb⟩
      refine ⟨fun hq => ?_, fun hq => ?_, hb⟩
      · exact (List.ne_and_not_mem_of_not_mem_cons (hall hq)).1.symm
      · exact (List.ne_and_not_mem_of_not_mem_cons (hall hq)).2

/-- Blank space has no quote and no `;` in it. -/
theorem bare_blank_append_iff (h : a.all isBlank) : Bare quoted (a ++ b) ↔ Bare quoted b := by
  have hblank : ∀ c ∈ a, isBlank c = true := List.all_eq_true.1 h
  have hquote : '\'' ∉ a := fun hmem => absurd (hblank _ hmem) (by decide)
  have hsemi : ';' ∉ a := fun hmem => absurd (hblank _ hmem) (by decide)
  rw [bare_append_iff hquote]
  exact and_iff_right fun _ => hsemi

/-- A text in quotes hides what is in it. -/
theorem bare_text_iff (h : '\'' ∉ a) :
    Bare false ('\'' :: (a ++ '\'' :: b)) ↔ Bare false b := by
  rw [bare_quote_iff, bare_append_iff h, bare_quote_iff]
  simp

/-- No comment is left when one was cut off. -/
theorem bare_uncommented (quoted : Bool) (cs : List Char) :
    Bare quoted (uncommented quoted cs) := by
  induction cs generalizing quoted with
  | nil => rfl
  | cons c cs ih =>
    rw [uncommented]
    split
    · next hc => rw [hc, bare_quote_iff]; exact ih _
    · next hc =>
      split
      · rfl
      · -- The character was kept, and so it starts no comment where it stands.
        next hcomment =>
        refine (bare_cons_iff hc).2 ⟨fun hq hsemi => hcomment ?_, ih quoted⟩
        rw [hsemi, hq]
        rfl

/-- The front of a text without a comment has none. -/
theorem Bare.of_append (h : Bare quoted (a ++ b)) : Bare quoted a := by
  induction a generalizing quoted with
  | nil => rfl
  | cons c a ih =>
    by_cases hc : c = '\''
    · rw [hc, List.cons_append, bare_quote_iff] at h
      rw [hc, bare_quote_iff]
      exact ih h
    · rw [List.cons_append, bare_cons_iff hc] at h
      exact (bare_cons_iff hc).2 ⟨h.1, ih h.2⟩

theorem uncommented_isPrefix (quoted : Bool) (cs : List Char) : uncommented quoted cs <+: cs := by
  induction cs generalizing quoted with
  | nil => exact List.prefix_rfl
  | cons c cs ih =>
    rw [uncommented]
    split
    · exact (List.prefix_cons_inj c).2 (ih _)
    · split
      · exact List.nil_prefix
      · exact (List.prefix_cons_inj c).2 (ih _)

/-- Blanks are no quotes, and so trimming does not change what `;` means. -/
theorem Bare.trim (h : Bare false cs) : Bare false (Blank.trim cs) := by
  obtain ⟨u, v, hcs, hu, -⟩ := Blank.exists_eq_append_trim cs
  rw [hcs, List.append_assoc, bare_blank_append_iff hu] at h
  exact h.of_append

/-- **The quotes that hide comments are the quotes around texts.** Of a text that consists of
tokens, no comment starts in it if and only if no word has a `;` in it. -/
theorem bare_iff_of_tiles {ts : List Token} (h : Token.Tiles cs ts)
    (valid : ∀ slice, Token.invalid slice ∉ ts) :
    Bare false cs ↔ ∀ spelling, Token.word spelling ∈ ts → ';' ∉ spelling.toList := by
  -- The induction is on the tiling: at the head of every token, and after every gap, no text
  -- is open.
  induction h with
  | nil => exact iff_of_true rfl nofun
  | gap hgap _ ih =>
    obtain ⟨hquote, hsemi, -⟩ := Token.ne_of_isGap hgap
    rw [bare_cons_iff hquote, ih valid]
    exact and_iff_right fun _ => hsemi
  | @token t rest ts lexeme _ ih =>
    have hrest := ih fun slice hmem => valid slice (List.mem_cons_of_mem t hmem)
    cases lexeme with
    | comma =>
      have hslice : Token.comma.slice.toList = [','] := rfl
      rw [hslice, List.singleton_append, bare_cons_iff (by decide), hrest]
      simp
    | @text content _ hcontent =>
      rw [Token.toList_slice_text, List.cons_append, List.append_assoc, List.singleton_append,
        bare_text_iff hcontent, hrest]
      simp
    | @word spelling _ _ chars _ =>
      -- A word has no quote in it, and so a `;` in it would start a comment.
      have hquote : '\'' ∉ spelling.toList := fun hmem => absurd (chars _ hmem) (by decide)
      have hslice : (Token.word spelling).slice = spelling := rfl
      rw [hslice, bare_append_iff hquote, hrest]
      simp
    | lineEnd => exact absurd List.mem_cons_self (valid _)
    | unclosed => exact absurd List.mem_cons_self (valid _)

/-! ### Lines of a text -/

/-- A line is kept if it holds something, and what it holds is its text. -/
theorem ofNumbered?_eq_some_iff {raw : List Char} {number : Nat} {line : Line} :
    ofNumbered? raw number = some line ↔
      content raw ≠ [] ∧ line = ⟨number, String.ofList (content raw)⟩ := by
  unfold ofNumbered?
  cases content raw with
  | nil => simp
  | cons c text => simp [eq_comm]

/-- **Where a line comes from**: it is what one of the lines of the text holds. -/
theorem exists_of_mem_ofSource {source : String} {line : Line} (h : line ∈ ofSource source) :
    ∃ raw ∈ split source.toList, line.text.toList = content raw ∧ content raw ≠ [] := by
  obtain ⟨⟨raw, number⟩, hraw, hline⟩ := List.mem_filterMap.1 h
  obtain ⟨hne, rfl⟩ := ofNumbered?_eq_some_iff.1 hline
  exact ⟨raw, List.fst_mem_of_mem_zipIdx hraw, String.toList_ofList, hne⟩

theorem content_isInfix (cs : List Char) : content cs <:+: cs :=
  (Blank.trim_isInfix _).trans (uncommented_isPrefix false cs).isInfix

/-- What a line holds has no comment in it. -/
theorem bare_content (cs : List Char) : Bare false (content cs) :=
  (bare_uncommented false cs).trim

/-- A text without comment and without blanks around it is what its line holds. -/
theorem content_of_bare (h : Bare false cs) : content cs = Blank.trim cs :=
  congrArg Blank.trim h

end Line

end TinyAsm
