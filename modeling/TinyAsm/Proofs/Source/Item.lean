import TinyAsm.Proofs.Except
import TinyAsm.Proofs.Source.Token
import TinyAsm.Source.Item

/-!
# Operand lists, written and read

An operand list reads as `items` exactly if its tokens are those of the items with a comma
between any two (`list_eq_ok_iff`). From this follow both directions that are needed:

* `lexical_of_list` — the items that are read are ones that can be written;
* `tiles_written` — items that can be written, with a comma and a blank between any two, are
  tiled by their tokens, and so they are read back.
-/

namespace TinyAsm

namespace Item

/-- The token that an item is written as. -/
def token : Item → Token
  | text content => .text content
  | word spelling => .word spelling

/-- The characters that an item is written with. -/
def chars (x : Item) : List Char :=
  x.token.slice.toList

/-- The tokens of an operand list: those of its items, with a comma between any two. -/
def tokens (items : List Item) : List Token :=
  (items.map token).intersperse .comma

/-- **An item that can be written**: its token reads as one token. -/
def Lexical : Item → Prop
  | text content => '\'' ∉ content.toList
  | word spelling => spelling.toList ≠ [] ∧ ∀ c ∈ spelling.toList, Token.isWordChar c = true

variable {t : Token} {ts : List Token} {x : Item} {items : List Item} {cs : List Char}

theorem ofToken?_eq_some_iff : ofToken? t = some x ↔ t = x.token := by
  cases t <;> cases x <;> simp [ofToken?, token]

theorem chars_text (content : String) :
    (text content).chars = '\'' :: (content.toList ++ ['\'']) :=
  Token.toList_slice_text content

/-! ### Commas -/

/-- Items with a comma before each of them are read as these items. -/
theorem more_flatMap (items : List Item) :
    more (items.flatMap fun x => [.comma, x.token]) = .ok items := by
  induction items with
  | nil => rfl
  | cons x items ih =>
    have hx : ofToken? x.token = some x := ofToken?_eq_some_iff.2 rfl
    rw [List.flatMap_cons, List.cons_append, List.cons_append, List.nil_append, more, hx]
    simp only [ih, Except.map_eq_ok_iff, Except.ok.injEq, List.cons.injEq, true_and,
      exists_eq_left']

/-- The tokens behind an item are a comma and an item each, if they are read. -/
theorem eq_flatMap_of_more (h : more ts = .ok items) :
    ts = items.flatMap fun x => [.comma, x.token] := by
  -- The cases are those of `more`. In only two of them the list goes on: where it ends, and
  -- where a comma and an item come next.
  induction ts using more.induct generalizing items with
  | case1 => cases h; rfl
  | case2 => contradiction
  | case3 t ts x hx ih =>
    rw [more, hx] at h
    obtain ⟨items, hmore, rfl⟩ := Except.map_eq_ok_iff.1 h
    rw [ofToken?_eq_some_iff.1 hx, ih hmore]
    rfl
  | case4 t ts hx => rw [more, hx] at h; contradiction
  | case5 t ts hne hcomma =>
    rw [more] at h
    · contradiction
    all_goals assumption

/-- The first item stands by itself, and every other one comes with its comma. -/
theorem tokens_cons (x : Item) (items : List Item) :
    tokens (x :: items) = x.token :: items.flatMap fun x => [.comma, x.token] := by
  induction items generalizing x with
  | nil => rfl
  | cons y items ih =>
    have hstep : tokens (x :: y :: items) = x.token :: .comma :: tokens (y :: items) :=
      List.intersperse_cons_cons
    rw [hstep, ih y]
    rfl

/-- **An operand list has a comma between any two items**, and no other. -/
theorem ofTokens_eq_ok_iff : ofTokens ts = .ok items ↔ ts = tokens items := by
  constructor
  · intro h
    cases ts with
    | nil => cases h; rfl
    | cons t ts =>
      -- The first token has to be an item; `more` reads what comes after it.
      rw [ofTokens] at h
      split at h
      · next x hx =>
        obtain ⟨items, hmore, rfl⟩ := Except.map_eq_ok_iff.1 h
        rw [tokens_cons, ofToken?_eq_some_iff.1 hx, eq_flatMap_of_more hmore]
      · contradiction
  · rintro rfl
    cases items with
    | nil => rfl
    | cons x items =>
      have hx : ofToken? x.token = some x := ofToken?_eq_some_iff.2 rfl
      rw [tokens_cons, ofTokens, hx]
      exact Except.map_eq_ok_iff.2 ⟨items, more_flatMap items, rfl⟩

/-- **A text is an operand list** exactly if the tokens of the list tile it. -/
theorem list_eq_ok_iff : list cs = .ok items ↔ Token.Tiles cs (tokens items) := by
  rw [list, ofTokens_eq_ok_iff, Token.tiles_iff]

theorem token_mem_tokens (h : x ∈ items) : x.token ∈ tokens items := by
  cases items with
  | nil => contradiction
  | cons y items =>
    rw [tokens_cons]
    rcases List.mem_cons.1 h with rfl | h
    · exact List.mem_cons_self
    · refine List.mem_cons_of_mem _ (List.mem_flatMap.2 ⟨x, h, ?_⟩)
      exact List.mem_cons_of_mem _ (List.mem_singleton.2 rfl)

/-- Every token is a comma or one of the items. -/
theorem eq_comma_or_exists_of_mem_tokens (h : t ∈ tokens items) :
    t = .comma ∨ ∃ x ∈ items, t = x.token := by
  cases items with
  | nil => contradiction
  | cons y items =>
    rw [tokens_cons] at h
    rcases List.mem_cons.1 h with rfl | h
    · exact .inr ⟨y, List.mem_cons_self, rfl⟩
    · obtain ⟨x, hx, ht⟩ := List.mem_flatMap.1 h
      rcases List.mem_cons.1 ht with rfl | ht
      · exact .inl rfl
      · exact .inr ⟨x, List.mem_cons_of_mem y hx, List.mem_singleton.1 ht⟩

/-! ### From the text to its items -/

/-- An item can be written if its token reads as one. -/
theorem lexical_of_lexeme {rest : List Char} (h : Token.Lexeme x.token rest) : x.Lexical := by
  cases x with
  | text content =>
    cases h with
    | text hcontent => exact hcontent
  | word spelling =>
    cases h with
    | word nonempty chars _ => exact ⟨nonempty, chars⟩

/-- The items of a text can be written. -/
theorem lexical_of_list (h : list cs = .ok items) : ∀ x ∈ items, x.Lexical := by
  intro x hx
  obtain ⟨rest, lexeme⟩ := (list_eq_ok_iff.1 h).exists_lexeme (token_mem_tokens hx)
  exact lexical_of_lexeme lexeme

/-- The items of a text are written in it. -/
theorem chars_isInfix_of_list (h : list cs = .ok items) (hx : x ∈ items) : x.chars <:+: cs :=
  (list_eq_ok_iff.1 h).slice_isInfix (token_mem_tokens hx)

/-- There are no more of them than characters. -/
theorem length_le_of_list (h : list cs = .ok items) : items.length ≤ cs.length := by
  have htokens := (list_eq_ok_iff.1 h).length_le
  rw [tokens, List.length_intersperse, List.length_map] at htokens
  omega

/-- A text without blanks around it starts with its first item. -/
theorem head?_of_list (h : list cs = .ok items) (hx : items.head? = some x)
    (hcs : ∀ c ∈ cs.head?, Token.isGap c = false) : x.chars.head? = cs.head? := by
  obtain ⟨items, rfl⟩ := List.head?_eq_some_iff.1 hx
  have htiles := list_eq_ok_iff.1 h
  rw [tokens_cons] at htiles
  cases cs with
  | nil => exact absurd htiles.length_le (Nat.not_succ_le_zero _)
  | cons c cs => exact htiles.head?_eq (hcs c rfl)

/-- An operand list that does not end with a gap ends as its last item does. -/
theorem getLast?_of_list (h : list cs = .ok items) (hx : items.getLast? = some x)
    (hcs : ∀ c ∈ cs.getLast?, Token.isGap c = false) : x.chars.getLast? = cs.getLast? := by
  obtain ⟨front, rfl⟩ := List.getLast?_eq_some_iff.1 hx
  -- No comma comes after the last item, and so its token is the last one.
  have hlast : (tokens (front ++ [x])).getLast? = some x.token := by
    cases front with
    | nil => rfl
    | cons y front =>
      rw [List.cons_append, tokens_cons, List.flatMap_append, ← List.cons_append,
        List.getLast?_append]
      rfl
  exact (list_eq_ok_iff.1 h).getLast?_eq hlast hcs

/-! ### From items to their text -/

/-- The characters of an operand list, as an instruction is written. -/
def written (items : List Item) : List Char :=
  [',', ' '].intercalate (items.map chars)

theorem written_singleton (x : Item) : written [x] = x.chars :=
  List.intercalate_singleton

theorem written_cons_cons (x y : Item) (items : List Item) :
    written (x :: y :: items) = x.chars ++ ([',', ' '] ++ written (y :: items)) := by
  rw [written, List.map_cons, List.map_cons, List.intercalate_cons_cons, List.append_assoc]
  rfl

/-- An operand list starts with its first item. -/
theorem exists_written_cons (x : Item) (items : List Item) :
    ∃ rest, written (x :: items) = x.chars ++ rest := by
  cases items with
  | nil => exact ⟨[], by rw [written_singleton, List.append_nil]⟩
  | cons y items => exact ⟨_, written_cons_cons x y items⟩

/-- A written operand list ends with its last item. -/
theorem exists_written_append (items : List Item) (x : Item) :
    ∃ front, written (items ++ [x]) = front ++ x.chars := by
  induction items with
  | nil => exact ⟨[], written_singleton x⟩
  | cons y items ih =>
    obtain ⟨front, hfront⟩ := ih
    obtain ⟨z, items', hz⟩ := List.exists_cons_of_ne_nil (List.append_ne_nil_of_right_ne_nil items
      (List.cons_ne_nil x []))
    rw [hz] at hfront
    refine ⟨y.chars ++ ([',', ' '] ++ front), ?_⟩
    -- There is an item behind the first one, and so a separator comes in between.
    rw [List.cons_append, hz, written_cons_cons, hfront, List.append_assoc, List.append_assoc]

/-- Apart from the separators, an operand list consists of its items. -/
theorem mem_written {c : Char} (h : c ∈ written items) :
    c = ',' ∨ c = ' ' ∨ ∃ x ∈ items, c ∈ x.chars := by
  induction items with
  | nil => contradiction
  | cons x items ih =>
    cases items with
    | nil => exact .inr (.inr ⟨x, List.mem_cons_self, by rwa [written_singleton] at h⟩)
    | cons y items =>
      rw [written_cons_cons, List.mem_append, List.mem_append, List.mem_cons,
        List.mem_singleton] at h
      -- In the first item, in the separator behind it, or further down.
      rcases h with hx | (hcomma | hblank) | hrest
      · exact .inr (.inr ⟨x, List.mem_cons_self, hx⟩)
      · exact .inl hcomma
      · exact .inr (.inl hblank)
      · rcases ih hrest with hcomma | hblank | ⟨z, hz, hc⟩
        · exact .inl hcomma
        · exact .inr (.inl hblank)
        · exact .inr (.inr ⟨z, List.mem_cons_of_mem x hz, hc⟩)

theorem chars_ne_nil (h : x.Lexical) : x.chars ≠ [] := by
  cases x with
  | text content => rw [chars_text]; exact List.cons_ne_nil _ _
  | word spelling => exact h.1

/-- A lexical item is one token where no word goes on behind it. -/
theorem lexeme_token {rest : List Char} (h : x.Lexical)
    (hrest : ∀ c ∈ rest.head?, Token.isWordChar c = false) : Token.Lexeme x.token rest := by
  cases x with
  | text content => exact .text h
  | word spelling => exact .word h.1 h.2 hrest

/-- **What is written reads as it was meant**: the items are the tokens of their text. -/
theorem tiles_written (h : ∀ x ∈ items, x.Lexical) :
    Token.Tiles (written items) (tokens items) := by
  -- The induction takes off an item at a time, with the separator behind it.
  induction items with
  | nil => exact .nil
  | cons x items ih =>
    obtain ⟨hx, hitems⟩ := List.forall_mem_cons.1 h
    cases items with
    | nil =>
      have hlexeme : Token.Lexeme x.token [] := lexeme_token hx nofun
      have htiles := Token.Tiles.token hlexeme .nil
      rw [List.append_nil] at htiles
      rw [written_singleton]
      exact htiles
    | cons y items =>
      -- The item ends at the comma, and the blank behind the comma is a gap.
      have hblank := Token.Tiles.gap (c := ' ') rfl (ih hitems)
      have hcomma := Token.Tiles.token Token.Lexeme.comma hblank
      have hitem := Token.Tiles.token (lexeme_token hx (by simp [Token.slice]; rfl)) hcomma
      rw [written_cons_cons]
      exact hitem

end Item

end TinyAsm
