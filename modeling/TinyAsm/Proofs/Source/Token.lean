import Mathlib.Data.List.TakeWhile
import TinyAsm.Source.Token

/-!
# The lexer tiles its input

`Token.scan` divides a text into tokens with gaps between them. This module says what that
comes to without running the lexer:

* `Lexeme t rest` — the characters of the token `t` are those of a token of its kind, and it
  is as long as it can be where `rest` comes after it;
* `Tiles cs ts` — the text `cs` consists of the characters of the tokens `ts`, in order, with
  any number of gap characters before, between and after them;
* `Gaps cs` — the text `cs` consists of gap characters only.

A text is tiled in one way, and the lexer finds it (`tiles_iff`). So what is to be known about
the tokens of a text is proved by induction on the tiling, and to run the lexer on a text that
was put together from tokens it is enough to see that it is tiled by them.
-/

namespace TinyAsm

namespace Token

/-- **A token before `rest`.** -/
inductive Lexeme : Token → List Char → Prop where
  | comma {rest : List Char} : Lexeme .comma rest
  | text {content : String} {rest : List Char} (h : '\'' ∉ content.toList) :
      Lexeme (.text content) rest
  /-- A word ends where no more of it can come. -/
  | word {spelling : String} {rest : List Char} (nonempty : spelling.toList ≠ [])
      (chars : ∀ c ∈ spelling.toList, isWordChar c = true)
      (maximal : ∀ c ∈ rest.head?, isWordChar c = false) : Lexeme (.word spelling) rest
  | lineEnd {c : Char} {rest : List Char} (h : isLineEnd c = true) :
      Lexeme (.invalid (String.ofList [c])) rest
  /-- A quote that nothing closes takes everything that is left. -/
  | unclosed {cs : List Char} (h : '\'' ∉ cs) :
      Lexeme (.invalid (String.ofList ('\'' :: cs))) []

/-- **A text that consists of tokens**, with gaps around them. -/
inductive Tiles : List Char → List Token → Prop where
  | nil : Tiles [] []
  | gap {c : Char} {cs : List Char} {ts : List Token} (h : isGap c = true)
      (tiles : Tiles cs ts) : Tiles (c :: cs) ts
  | token {t : Token} {rest : List Char} {ts : List Token} (lexeme : Lexeme t rest)
      (tiles : Tiles rest ts) : Tiles (t.slice.toList ++ rest) (t :: ts)

/-- A text that consists of gaps. -/
def Gaps (cs : List Char) : Prop :=
  ∀ c ∈ cs, isGap c = true

variable {c : Char} {cs rest : List Char} {t : Token} {ts : List Token}

/-! ### Characters -/

theorem isGap_iff : isGap c = true ↔ c = ' ' ∨ c = '\t' ∨ c = '\x0c' := by
  simp [isGap, or_assoc]

theorem isLineEnd_iff : isLineEnd c = true ↔ c = '\r' ∨ c = '\n' := by
  simp [isLineEnd]

theorem isWordChar_iff : isWordChar c = true ↔
    isGap c = false ∧ isLineEnd c = false ∧ c ≠ ',' ∧ c ≠ '\'' := by
  simp only [isWordChar, Bool.not_eq_true', Bool.or_eq_false_iff, decide_eq_false_iff_not,
    and_assoc]

/-- A gap is none of the characters that mean something. -/
theorem ne_of_isGap (h : isGap c = true) : c ≠ '\'' ∧ c ≠ ';' ∧ c ≠ ',' := by
  refine ⟨?_, ?_, ?_⟩
  all_goals
    rintro rfl
    contradiction

/-- Characters that run up to the first one without a property. -/
theorem takeWhile_of_forall {p : Char → Bool} (hcs : ∀ c ∈ cs, p c = true)
    (hrest : ∀ c ∈ rest.head?, p c = false) :
    (cs ++ rest).takeWhile p = cs ∧ (cs ++ rest).dropWhile p = rest := by
  have hstop : rest.takeWhile p = [] ∧ rest.dropWhile p = rest := by
    cases rest with
    | nil => exact ⟨rfl, rfl⟩
    | cons c rest =>
      have hc : p c = false := hrest c rfl
      simp [hc]
  rw [List.takeWhile_append_of_pos hcs, List.dropWhile_append_of_pos hcs, hstop.1, hstop.2,
    List.append_nil]
  exact ⟨rfl, rfl⟩

theorem head_of_dropWhile {p : Char → Bool} (cs : List Char) :
    ∀ c ∈ (cs.dropWhile p).head?, p c = false := by
  intro c hc
  have hnot := List.head?_dropWhile_not p cs
  rw [Option.mem_def.1 hc] at hnot
  simpa using hnot

theorem toList_slice_text (content : String) :
    (text content).slice.toList = '\'' :: (content.toList ++ ['\'']) := by
  have hquote : "'".toList = ['\''] := rfl
  rw [slice, String.toList_append, String.toList_append, hquote, List.singleton_append,
    List.cons_append]

/-! ### The lexer by the first token -/

theorem scan_nil : scan [] = [] := by
  rw [scan]

/-- The lexer skips gaps. The lemmas after this one say, one for each kind, which token it takes
off first. -/
theorem scan_gap (h : isGap c = true) (cs : List Char) : scan (c :: cs) = scan cs := by
  rw [scan, if_pos h]

theorem scan_lineEnd (h : isLineEnd c = true) (cs : List Char) :
    scan (c :: cs) = invalid (String.ofList [c]) :: scan cs := by
  have hgap : isGap c = false := by
    rcases isLineEnd_iff.1 h with rfl | rfl <;> rfl
  rw [scan, if_neg (Bool.eq_false_iff.1 hgap), if_pos h]

theorem scan_comma (cs : List Char) : scan (',' :: cs) = comma :: scan cs := by
  rw [scan]
  rfl

theorem scan_text {content : List Char} (h : '\'' ∉ content) (rest : List Char) :
    scan ('\'' :: (content ++ '\'' :: rest)) = text (String.ofList content) :: scan rest := by
  -- The text runs to the next quote, which is the one behind its content.
  have hcontent : ∀ c ∈ content, decide (c ≠ '\'') = true := fun c hc =>
    decide_eq_true fun hq => h (hq ▸ hc)
  have hquote : ∀ c ∈ ('\'' :: rest).head?, decide (c ≠ '\'') = false := by simp
  obtain ⟨htake, hdrop⟩ := takeWhile_of_forall hcontent hquote
  rw [scan, if_neg (by decide), if_neg (by decide), if_neg (by decide), if_pos rfl]
  split
  · next hnil => rw [hdrop] at hnil; contradiction
  · next hcons =>
    rw [hdrop] at hcons
    cases hcons
    rw [htake]

theorem scan_unclosed (h : '\'' ∉ cs) :
    scan ('\'' :: cs) = [invalid (String.ofList ('\'' :: cs))] := by
  have hcs : ∀ c ∈ cs, decide (c ≠ '\'') = true := fun c hc =>
    decide_eq_true fun hq => h (hq ▸ hc)
  have hend : ∀ c ∈ ([] : List Char).head?, decide (c ≠ '\'') = false := nofun
  obtain ⟨-, hdrop⟩ := takeWhile_of_forall hcs hend
  rw [List.append_nil] at hdrop
  rw [scan, if_neg (by decide), if_neg (by decide), if_neg (by decide), if_pos rfl]
  -- No quote is left to close the text.
  split
  · rfl
  · next hcons => exact absurd (hdrop.symm.trans hcons).symm (List.cons_ne_nil _ _)

theorem scan_word (hne : cs ≠ []) (hcs : ∀ c ∈ cs, isWordChar c = true)
    (hrest : ∀ c ∈ rest.head?, isWordChar c = false) :
    scan (cs ++ rest) = word (String.ofList cs) :: scan rest := by
  obtain ⟨c, cs, rfl⟩ := List.exists_cons_of_ne_nil hne
  obtain ⟨hc, hcs⟩ := List.forall_mem_cons.1 hcs
  -- The first character of a word starts no other token, and the word takes all that follow.
  obtain ⟨hgap, hend, hcomma, hquote⟩ := isWordChar_iff.1 hc
  obtain ⟨htake, hdrop⟩ := takeWhile_of_forall hcs hrest
  rw [List.cons_append, scan, if_neg (Bool.eq_false_iff.1 hgap),
    if_neg (Bool.eq_false_iff.1 hend), if_neg hcomma, if_neg hquote, htake, hdrop]

/-- **The lexer takes off the first token**, of whatever kind it is. -/
theorem scan_of_lexeme (h : Lexeme t rest) : scan (t.slice.toList ++ rest) = t :: scan rest := by
  cases h with
  | comma => exact scan_comma rest
  | @text content _ h =>
    rw [toList_slice_text, List.cons_append, List.append_assoc, List.singleton_append,
      scan_text h, String.ofList_toList]
  | @word spelling _ nonempty chars maximal =>
    have hslice : (word spelling).slice = spelling := rfl
    rw [hslice, scan_word nonempty chars maximal, String.ofList_toList]
  | lineEnd h => rw [slice, String.toList_ofList, List.singleton_append, scan_lineEnd h]
  | unclosed h => rw [slice, String.toList_ofList, List.append_nil, scan_unclosed h, scan_nil]

/-! ### Tilings -/

/-- A token has characters. -/
theorem Lexeme.slice_ne_nil (h : Lexeme t rest) : t.slice.toList ≠ [] := by
  cases h with
  | comma => exact List.cons_ne_nil _ _
  | text => rw [toList_slice_text]; exact List.cons_ne_nil _ _
  | word nonempty => exact nonempty
  | lineEnd | unclosed => rw [slice, String.toList_ofList]; exact List.cons_ne_nil _ _

/-- **A text that starts with no gap starts with a token.** -/
theorem exists_lexeme_append (hgap : isGap c = false) (cs : List Char) :
    ∃ t rest, c :: cs = t.slice.toList ++ rest ∧ Lexeme t rest := by
  by_cases hend : isLineEnd c = true
  · refine ⟨.invalid (String.ofList [c]), cs, ?_, .lineEnd hend⟩
    rw [slice, String.toList_ofList, List.singleton_append]
  by_cases hcomma : c = ','
  · exact ⟨.comma, cs, by rw [hcomma]; rfl, .comma⟩
  by_cases hquote : c = '\''
  · -- The text runs to the next quote, if there is one.
    by_cases hclosed : '\'' ∈ cs
    · obtain ⟨content, rest, hcs, hcontent⟩ := List.eq_append_cons_of_mem hclosed
      refine ⟨.text (String.ofList content), rest, ?_, .text (by rwa [String.toList_ofList])⟩
      rw [toList_slice_text, String.toList_ofList, hquote, hcs, List.cons_append,
        List.append_assoc, List.singleton_append]
    · refine ⟨.invalid (String.ofList ('\'' :: cs)), [], ?_, .unclosed hclosed⟩
      rw [slice, String.toList_ofList, List.append_nil, hquote]
  · -- Any other character is in a word, which is as long as it can be.
    have hc : isWordChar c = true := isWordChar_iff.2
      ⟨hgap, Bool.eq_false_iff.2 hend, hcomma, hquote⟩
    have hchars : ∀ d ∈ c :: cs.takeWhile isWordChar, isWordChar d = true :=
      List.forall_mem_cons.2 ⟨hc, fun d hd => List.mem_takeWhile_imp hd⟩
    have hrest := head_of_dropWhile (p := isWordChar) cs
    refine ⟨.word (String.ofList (c :: cs.takeWhile isWordChar)), cs.dropWhile isWordChar, ?_,
      .word (by simp) (by rwa [String.toList_ofList]) hrest⟩
    rw [slice, String.toList_ofList, List.cons_append, List.takeWhile_append_dropWhile]

/-- The tokens that the lexer finds tile the text. -/
theorem tiles_scan : ∀ cs : List Char, Tiles cs (scan cs)
  | [] => by
    rw [scan_nil]
    exact .nil
  | c :: cs => by
    by_cases hgap : isGap c = true
    · rw [scan_gap hgap]
      exact .gap hgap (tiles_scan cs)
    · -- The lexer goes on behind the token, which is further down in the text.
      obtain ⟨t, rest, hcs, lexeme⟩ := exists_lexeme_append (Bool.eq_false_iff.2 hgap) cs
      have hshorter : rest.length < (c :: cs).length := by
        have hpos := List.length_pos_iff.2 lexeme.slice_ne_nil
        rw [hcs, List.length_append]
        omega
      rw [hcs, scan_of_lexeme lexeme]
      exact .token lexeme (tiles_scan rest)
termination_by cs => cs.length
decreasing_by
  · exact Nat.lt_succ_self _
  · exact hshorter

/-- **A text is tiled in one way**, and the lexer finds it. -/
theorem tiles_iff : Tiles cs ts ↔ scan cs = ts := by
  constructor
  · intro h
    induction h with
    | nil => exact scan_nil
    | gap h _ ih => rw [scan_gap h, ih]
    | token lexeme _ ih => rw [scan_of_lexeme lexeme, ih]
  · -- The tokens are those that the lexer finds, and they tile the text.
    rintro rfl
    exact tiles_scan cs

/-! ### What tokens take from their text -/

theorem Tiles.exists_lexeme (h : Tiles cs ts) (ht : t ∈ ts) : ∃ rest, Lexeme t rest := by
  induction h with
  | nil => exact absurd ht List.not_mem_nil
  | gap _ _ ih => exact ih ht
  | token lexeme _ ih =>
    rcases List.mem_cons.1 ht with rfl | ht
    · exact ⟨_, lexeme⟩
    · exact ih ht

/-- The characters of a token stand in the text. -/
theorem Tiles.slice_isInfix (h : Tiles cs ts) (ht : t ∈ ts) : t.slice.toList <:+: cs := by
  induction h with
  | nil => exact absurd ht List.not_mem_nil
  | gap _ _ ih => exact (ih ht).trans (List.suffix_cons _ _).isInfix
  | token _ _ ih =>
    rcases List.mem_cons.1 ht with rfl | ht
    · exact (List.prefix_append _ _).isInfix
    · exact (ih ht).trans (List.suffix_append _ _).isInfix

/-- A text has no more tokens than characters. -/
theorem Tiles.length_le (h : Tiles cs ts) : ts.length ≤ cs.length := by
  induction h with
  | nil => exact Nat.le_refl _
  | gap _ _ ih => exact Nat.le_succ_of_le ih
  | token lexeme _ ih =>
    have hpos := List.length_pos_iff.2 lexeme.slice_ne_nil
    rw [List.length_cons, List.length_append]
    omega

/-- A text that starts with no gap starts with its first token. -/
theorem Tiles.head?_eq (h : Tiles (c :: cs) (t :: ts)) (hc : isGap c = false) :
    t.slice.toList.head? = some c := by
  -- The text has to be a variable for the case analysis.
  generalize hcs : c :: cs = cs' at h
  cases h with
  | gap hgap => cases hcs; rw [hgap] at hc; contradiction
  | token lexeme =>
    obtain ⟨d, ds, hslice⟩ := List.exists_cons_of_ne_nil lexeme.slice_ne_nil
    rw [hslice, List.cons_append] at hcs
    cases hcs
    rw [hslice, List.head?_cons]

/-- A text without tokens is nothing but gaps. -/
theorem Tiles.forall_isGap (h : Tiles cs []) : Gaps cs := by
  generalize hts : ([] : List Token) = ts at h
  induction h with
  | nil => exact nofun
  | gap hgap _ ih => exact List.forall_mem_cons.2 ⟨hgap, ih hts⟩
  | token => contradiction

/-- A text that ends with no gap ends with its last token. -/
theorem Tiles.getLast?_eq (h : Tiles cs ts) (ht : ts.getLast? = some t)
    (hcs : ∀ c ∈ cs.getLast?, isGap c = false) : t.slice.toList.getLast? = cs.getLast? := by
  induction h with
  | nil => contradiction
  | @gap c cs ts hgap tiles ih =>
    -- The gap is not the end, and so there is something behind it.
    cases cs with
    | nil => rw [hcs c rfl] at hgap; contradiction
    | cons d cs =>
      rw [List.getLast?_cons_cons] at hcs ⊢
      exact ih ht hcs
  | @token t' rest ts lexeme tiles ih =>
    cases hrest : rest.getLast? with
    | none =>
      -- Nothing is left behind this token, and so it is the last one.
      rw [List.getLast?_eq_none_iff.1 hrest] at tiles ⊢
      have hts : ts = [] := List.length_eq_zero_iff.1 (Nat.le_zero.1 tiles.length_le)
      rw [hts, List.getLast?_singleton, Option.some.injEq] at ht
      rw [List.append_nil, ht]
    | some c =>
      -- What is left ends with no gap either, and so it has tokens of its own.
      have hlast : (t'.slice.toList ++ rest).getLast? = some c := by
        rw [List.getLast?_append, hrest, Option.some_or]
      rw [hlast] at hcs ⊢
      cases ts with
      | nil =>
        have hgap := tiles.forall_isGap c (List.mem_of_getLast? hrest)
        rw [hcs c rfl] at hgap
        contradiction
      | cons t₂ ts =>
        rw [List.getLast?_cons_cons] at ht
        rw [← hrest]
        exact ih ht (by rwa [hrest])

/-! ### Gaps -/

variable {gap : List Char}

theorem Gaps.nil : Gaps [] :=
  List.forall_mem_nil _

/-- No word goes on in a gap. -/
theorem Gaps.head_append (hgap : Gaps gap) (hrest : ∀ c ∈ rest.head?, isWordChar c = false) :
    ∀ c ∈ (gap ++ rest).head?, isWordChar c = false := by
  cases gap with
  | nil => exact hrest
  | cons d gap =>
    rintro c ⟨⟩
    have hd : isGap d = true := hgap d List.mem_cons_self
    rw [isWordChar, hd]
    rfl

/-- Gaps can come before a text that consists of tokens. -/
theorem Tiles.gaps (hgap : Gaps gap) (h : Tiles cs ts) : Tiles (gap ++ cs) ts := by
  induction gap with
  | nil => exact h
  | cons c gap ih =>
    obtain ⟨hc, hgap⟩ := List.forall_mem_cons.1 hgap
    exact .gap hc (ih hgap)

/-- **The first token of a text**, with the gaps before it and what comes behind. -/
theorem Tiles.exists_eq_append (h : Tiles cs (t :: ts)) :
    ∃ gap rest, cs = gap ++ (t.slice.toList ++ rest) ∧ Gaps gap ∧ Lexeme t rest ∧
      Tiles rest ts := by
  generalize hts : t :: ts = ts' at h
  induction h with
  | nil => contradiction
  | gap hc _ ih =>
    obtain ⟨gap, rest, rfl, hgap, lexeme, tiles⟩ := ih hts
    exact ⟨_ :: gap, rest, rfl, List.forall_mem_cons.2 ⟨hc, hgap⟩, lexeme, tiles⟩
  | token lexeme tiles =>
    cases hts
    exact ⟨[], _, rfl, .nil, lexeme, tiles⟩

end Token

end TinyAsm
