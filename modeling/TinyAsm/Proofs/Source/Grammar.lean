import TinyAsm.Proofs.Source.Item

/-!
# The grammar of operand lists

Which texts are operand lists, and what is wrong with all others, said without the lexer and the
reader.

* `Item.Spelled items cs` — the text `cs` consists of the items in order, with a comma between any
  two and any number of gaps around items and commas;
* `Item.Opens ts` — the tokens `ts` are the first ones of some operand list;
* `Item.Misfit ts slice` — `slice` is the first of the tokens `ts` with which no operand list goes
  on, or a comma that nothing follows.

`list_eq_ok_iff_spelled` and `list_eq_error_iff` state that the reader of operand lists decides
between these two. Both go through the tokens of a list: they are items and commas in turn, so that
where a token stands among them tells what it must be (`Opens.exists_token`, `Opens.eq_comma`).
-/

namespace TinyAsm

namespace Item

open Token (Gaps Tiles Lexeme scan)

variable {t : Token} {ts : List Token} {x y : Item} {items : List Item}
  {cs before after rest : List Char} {slice slice' : String}

/-! ### Texts of operand lists -/

/-- **The text of an operand list**: the items in order, with a comma between any two, and gaps
around items and commas. -/
inductive Spelled : List Item → List Char → Prop where
  | empty {gap : List Char} (hgap : Gaps gap) : Spelled [] gap
  | last {before after : List Char} {x : Item} (hbefore : Gaps before) (hx : x.Lexical)
      (hafter : Gaps after) : Spelled [x] (before ++ (x.chars ++ after))
  | next {before after rest : List Char} {x y : Item} {items : List Item} (hbefore : Gaps before)
      (hx : x.Lexical) (hafter : Gaps after) (hrest : Spelled (y :: items) rest) :
      Spelled (x :: y :: items) (before ++ (x.chars ++ (after ++ ',' :: rest)))

theorem tokens_cons_cons (x y : Item) (items : List Item) :
    tokens (x :: y :: items) = x.token :: .comma :: tokens (y :: items) :=
  List.intersperse_cons_cons

/-- An item is the first token of a text in which it stands first. -/
theorem tiles_chars_append (hbefore : Gaps before) (hx : x.Lexical)
    (hrest : ∀ c ∈ rest.head?, Token.isWordChar c = false) (h : Tiles rest ts) :
    Tiles (before ++ (x.chars ++ rest)) (x.token :: ts) :=
  .gaps hbefore (.token (lexeme_token hx hrest) h)

/-- **The text of an operand list is the one that its tokens tile.** -/
theorem spelled_iff_tiles : Spelled items cs ↔ Tiles cs (tokens items) := by
  constructor
  · intro h
    have hnone : ∀ c ∈ ([] : List Char).head?, Token.isWordChar c = false := nofun
    have hcomma (rest : List Char) : ∀ c ∈ (',' :: rest).head?, Token.isWordChar c = false := by
      rintro c ⟨⟩
      rfl
    induction h with
    | @empty gap hgap =>
      have htiles := Tiles.gaps hgap .nil
      rwa [List.append_nil] at htiles
    | @last before after x hbefore hx hafter =>
      have hrest := hafter.head_append hnone
      have htiles := Tiles.gaps hafter .nil
      rw [List.append_nil] at hrest htiles
      exact tiles_chars_append hbefore hx hrest htiles
    | next hbefore hx hafter _ ih =>
      -- An item ends at the gap or at the comma that comes after it.
      rw [tokens_cons_cons]
      exact tiles_chars_append hbefore hx (hafter.head_append (hcomma _))
        (.gaps hafter (.token .comma ih))
  · intro h
    induction items generalizing cs with
    | nil => exact .empty h.forall_isGap
    | cons x items ih =>
      -- Take off the first token, and with it the comma, if another item comes next.
      cases items with
      | nil =>
        obtain ⟨before, after, rfl, hbefore, lexeme, hafter⟩ := h.exists_eq_append
        exact .last hbefore (lexical_of_lexeme lexeme) hafter.forall_isGap
      | cons y items =>
        rw [tokens_cons_cons] at h
        obtain ⟨before, _, rfl, hbefore, lexeme, h⟩ := h.exists_eq_append
        obtain ⟨after, rest, rfl, hafter, -, h⟩ := h.exists_eq_append
        exact .next hbefore (lexical_of_lexeme lexeme) hafter (ih h)

/-- **The reader accepts the grammar** and gives the items of the list. -/
theorem list_eq_ok_iff_spelled : list cs = .ok items ↔ Spelled items cs :=
  list_eq_ok_iff.trans spelled_iff_tiles.symm

theorem scan_of_spelled (h : Spelled items cs) : scan cs = tokens items :=
  Token.tiles_iff.1 (spelled_iff_tiles.1 h)

/-- Items that can be written have a text. -/
theorem spelled_written (h : ∀ x ∈ items, x.Lexical) : Spelled items (written items) :=
  spelled_iff_tiles.2 (tiles_written h)

/-! ### Tokens that can come first -/

/-- **The first tokens of an operand list**: some text is one and starts with these. -/
def Opens (ts : List Token) : Prop :=
  ∃ items cs, Spelled items cs ∧ ts <+: scan cs

variable {ts₁ ts₂ : List Token} {k : Nat}

/-- The beginning of a beginning is one. -/
theorem Opens.of_isPrefix (h : Opens ts₂) (hstart : ts₁ <+: ts₂) : Opens ts₁ := by
  obtain ⟨items, cs, hcs, hts⟩ := h
  exact ⟨items, cs, hcs, hstart.trans hts⟩

/-- Items that can be written begin a list, with as many of their tokens as one likes. -/
theorem opens_of_isPrefix_tokens (h : ∀ x ∈ items, x.Lexical) (hstart : ts <+: tokens items) :
    Opens ts := by
  have hspelled := spelled_written h
  exact ⟨items, written items, hspelled, by rwa [scan_of_spelled hspelled]⟩

/-- The token stands at the same place in some operand list. -/
theorem Opens.exists_getElem? (h : Opens (ts ++ [t])) :
    ∃ items, (tokens items)[ts.length]? = some t := by
  obtain ⟨items, cs, hcs, after, hafter⟩ := h
  refine ⟨items, ?_⟩
  rw [← scan_of_spelled hcs, ← hafter, List.append_assoc, List.getElem?_append_right le_rfl,
    Nat.sub_self]
  rfl

/-- **After an even number of tokens comes an item.** -/
theorem Opens.exists_token (h : Opens (ts ++ [t])) (hts : ts.length = 2 * k) :
    ∃ x : Item, t = x.token := by
  obtain ⟨items, hitems⟩ := h.exists_getElem?
  -- Items stand at the even places of a list of tokens.
  rw [hts, tokens, List.getElem?_intersperse_two_mul, List.getElem?_map] at hitems
  obtain ⟨x, -, hx⟩ := Option.map_eq_some_iff.1 hitems
  exact ⟨x, hx.symm⟩

/-- **After an odd number comes a comma.** -/
theorem Opens.eq_comma (h : Opens (ts ++ [t])) (hts : ts.length = 2 * k + 1) : t = .comma := by
  obtain ⟨items, hitems⟩ := h.exists_getElem?
  have hlt := (List.getElem?_eq_some_iff.1 hitems).1
  rw [tokens, List.length_intersperse, hts] at hlt
  have hk : k + 1 < (items.map token).length := by omega
  rw [hts, tokens, List.getElem?_intersperse_two_mul_add_one hk] at hitems
  exact (Option.some.inj hitems).symm

theorem length_tokens_cons (x : Item) (items : List Item) :
    (tokens (x :: items)).length = 2 * items.length + 1 := by
  rw [tokens, List.length_intersperse, List.length_map, List.length_cons]
  omega

theorem tokens_append_singleton (x y : Item) (items : List Item) :
    tokens (x :: items ++ [y]) = tokens (x :: items) ++ [.comma, y.token] := by
  rw [List.cons_append, tokens_cons, tokens_cons, List.flatMap_append]
  rfl

/-- A list that has an item can go on with a comma, and with another item. -/
theorem opens_tokens_append_comma (h : ∀ x ∈ items, x.Lexical) (hne : items ≠ []) :
    Opens (tokens items ++ [.comma]) := by
  obtain ⟨x, items, rfl⟩ := List.exists_cons_of_ne_nil hne
  have hall : ∀ y ∈ x :: items ++ [x], y.Lexical :=
    List.forall_mem_append.2 ⟨h, List.forall_mem_singleton.2 (h x List.mem_cons_self)⟩
  refine opens_of_isPrefix_tokens hall ⟨[x.token], ?_⟩
  rw [tokens_append_singleton, List.append_assoc]
  rfl

/-! ### What does not fit -/

/-- **What is wrong with tokens that are no operand list**: the first one with which no list can
go on, or the comma at the end. -/
inductive Misfit : List Token → String → Prop where
  | token {ts after : List Token} {t : Token} (opens : Opens ts) (stops : ¬Opens (ts ++ [t])) :
      Misfit (ts ++ t :: after) t.slice
  | comma {ts : List Token} (opens : Opens (ts ++ [.comma])) : Misfit (ts ++ [.comma]) ","

/-- Where no list can go on, no beginning of a list goes further. -/
theorem Opens.length_le {after rest : List Token} (h : Opens ts₂) (stops : ¬Opens (ts₁ ++ [t]))
    (hts : ts₁ ++ t :: after = ts₂ ++ rest) : ts₂.length ≤ ts₁.length := by
  by_contra hlt
  have hstop : ts₁ ++ [t] <+: ts₁ ++ t :: after := ⟨after, by rw [List.append_assoc]; rfl⟩
  have hlength : (ts₁ ++ [t]).length ≤ ts₂.length := by
    rw [List.length_append, List.length_singleton]
    omega
  exact stops (h.of_isPrefix (List.prefix_of_prefix_length_le hstop ⟨rest, hts.symm⟩ hlength))

/-- Of tokens that are all the beginning of a list, the first misfit is none. -/
theorem Opens.append_cons_ne {after : List Token} (h : Opens ts₂) (stops : ¬Opens (ts₁ ++ [t])) :
    ts₁ ++ t :: after ≠ ts₂ := by
  intro hts
  have hall : ts₁ ++ t :: after = ts₂ ++ [] := by rw [hts, List.append_nil]
  have hle : ts₂.length ≤ ts₁.length := h.length_le stops hall
  rw [← hts, List.length_append, List.length_cons] at hle
  omega

/-- There is only one token to blame. -/
theorem Misfit.unique (h : Misfit ts slice) (h' : Misfit ts slice') : slice = slice' := by
  cases h with
  | @token ts₁ after t opens stops =>
    generalize hts : ts₁ ++ t :: after = ts at h'
    cases h' with
    | @token ts₂ after' t' opens' stops' =>
      -- Neither of the two beginnings is longer than the other.
      have hlength : ts₁.length = ts₂.length :=
        le_antisymm (opens.length_le stops' hts.symm) (opens'.length_le stops hts)
      obtain ⟨-, hrest⟩ := List.append_inj hts hlength
      cases hrest
      rfl
    | comma opens' => exact absurd hts (opens'.append_cons_ne stops)
  -- The comma at the end is to blame only if all before it, and the comma itself, fit.
  | @comma ts₁ opens =>
    generalize hts : ts₁ ++ [.comma] = ts at h' opens
    cases h' with
    | token opens' stops' => exact absurd rfl (opens.append_cons_ne stops')
    | comma => rfl

/-- The tokens of an operand list all fit. -/
theorem not_misfit_tokens (h : ∀ x ∈ items, x.Lexical) : ¬Misfit (tokens items) slice := by
  have hall : Opens (tokens items) := opens_of_isPrefix_tokens h List.prefix_rfl
  intro hmisfit
  generalize hts : tokens items = ts at hmisfit hall
  cases hmisfit with
  | token opens stops => exact hall.append_cons_ne stops rfl
  | @comma ts opens =>
    -- The last token stands where an item has to be.
    cases items with
    | nil => exact absurd hts.symm (List.append_ne_nil_of_right_ne_nil ts (List.cons_ne_nil _ _))
    | cons x items =>
      have hlength := congrArg List.length hts
      rw [length_tokens_cons, List.length_append, List.length_singleton, Nat.add_right_cancel_iff]
        at hlength
      obtain ⟨y, hy⟩ := opens.exists_token hlength.symm
      cases y <;> contradiction

/-- Where an item should stand, no other token goes on. -/
theorem not_opens_of_ofToken?_eq_none (h : ofToken? t = none) (hts : ts.length = 2 * k) :
    ¬Opens (ts ++ [t]) := by
  intro hopens
  obtain ⟨x, rfl⟩ := hopens.exists_token hts
  rw [ofToken?_eq_some_iff.2 rfl] at h
  contradiction

/-- **Where the reader stops after some items**, something does not fit. -/
theorem exists_misfit_of_more {e : LineError} (hitems : ∀ y ∈ x :: items, y.Lexical)
    (hts : ∀ y : Item, y.token ∈ ts → y.Lexical) (h : more ts = .error e) :
    ∃ slice, e = .unexpectedInput slice ∧ Misfit (tokens (x :: items) ++ ts) slice := by
  -- The cases are those of `more`, which in its recursion has one more item behind it.
  induction ts using more.induct generalizing items with
  | case1 => contradiction
  | case2 =>
    cases h
    exact ⟨",", rfl, .comma (opens_tokens_append_comma hitems (List.cons_ne_nil x items))⟩
  | case3 t ts y hy ih =>
    -- One more item has been read, and the reader stops somewhere behind it.
    rw [more, hy, Except.map_eq_error_iff] at h
    obtain rfl := ofToken?_eq_some_iff.1 hy
    have hy : y.Lexical := hts y (List.mem_cons_of_mem _ List.mem_cons_self)
    have hmore : ∀ z ∈ x :: (items ++ [y]), z.Lexical :=
      List.forall_mem_append.2 ⟨hitems, List.forall_mem_singleton.2 hy⟩
    obtain ⟨slice, he, hmisfit⟩ := ih hmore
      (fun z hz => hts z (List.mem_cons_of_mem _ (List.mem_cons_of_mem _ hz))) h
    refine ⟨slice, he, ?_⟩
    rwa [← List.cons_append, tokens_append_singleton, List.append_assoc] at hmisfit
  | case4 t ts ht =>
    rw [more, ht] at h
    cases h
    -- The comma was in its place, but an item should come next.
    have hlength : (tokens (x :: items) ++ [Token.comma]).length = 2 * (items.length + 1) := by
      rw [List.length_append, length_tokens_cons]
      rfl
    have hmisfit : Misfit (tokens (x :: items) ++ [.comma] ++ t :: ts) t.slice :=
      .token (opens_tokens_append_comma hitems (List.cons_ne_nil x items))
        (not_opens_of_ofToken?_eq_none ht hlength)
    rw [List.append_assoc] at hmisfit
    exact ⟨t.slice, rfl, hmisfit⟩
  | case5 t ts hend hcomma =>
    -- After an item, nothing but a comma goes on.
    have ht : t ≠ .comma := by
      rintro rfl
      cases ts with
      | nil => exact hend rfl rfl
      | cons t' ts => exact hcomma t' ts rfl rfl
    rw [more] at h
    · cases h
      exact ⟨t.slice, rfl, .token (opens_of_isPrefix_tokens hitems List.prefix_rfl)
        fun hopens => ht (hopens.eq_comma (length_tokens_cons x items))⟩
    all_goals assumption

/-- Where a list of operands is not read, some token is a misfit. The first item has no comma
before it. -/
theorem exists_misfit_of_ofTokens {e : LineError} (hts : ∀ x : Item, x.token ∈ ts → x.Lexical)
    (h : ofTokens ts = .error e) : ∃ slice, e = .unexpectedInput slice ∧ Misfit ts slice := by
  cases ts with
  | nil => contradiction
  | cons t ts =>
    rw [ofTokens] at h
    split at h
    · next x hx =>
      obtain rfl := ofToken?_eq_some_iff.1 hx
      obtain ⟨hx, hts⟩ : x.Lexical ∧ ∀ y : Item, y.token ∈ ts → y.Lexical :=
        ⟨hts x List.mem_cons_self, fun y hy => hts y (List.mem_cons_of_mem _ hy)⟩
      exact exists_misfit_of_more (List.forall_mem_singleton.2 hx) hts (Except.map_eq_error_iff.1 h)
    · -- The first token is no item, and no list begins with it.
      next ht =>
      cases h
      have hnil : Opens [] := opens_of_isPrefix_tokens (List.forall_mem_nil _) List.nil_prefix
      exact ⟨t.slice, rfl, .token hnil (not_opens_of_ofToken?_eq_none (k := 0) ht rfl)⟩

/-! ### What the reader does with a text -/

theorem lexical_of_token_mem_scan (h : x.token ∈ scan cs) : x.Lexical := by
  obtain ⟨rest, lexeme⟩ := (Token.tiles_scan cs).exists_lexeme h
  exact lexical_of_lexeme lexeme

/-- **The reader refuses everything else**, and tells what does not fit. -/
theorem list_eq_error_iff {e : LineError} :
    list cs = .error e ↔ ∃ slice, e = .unexpectedInput slice ∧ Misfit (scan cs) slice := by
  have hscan : ∀ x : Item, x.token ∈ scan cs → x.Lexical := fun x => lexical_of_token_mem_scan
  constructor
  · intro h
    exact exists_misfit_of_ofTokens hscan h
  · rintro ⟨slice, rfl, hmisfit⟩
    -- The reader cannot have accepted the text, and what it reports is the one misfit.
    cases h : list cs with
    | ok items =>
      have hspelled : Spelled items cs := list_eq_ok_iff_spelled.1 h
      rw [scan_of_spelled hspelled] at hmisfit
      exact absurd hmisfit (not_misfit_tokens (lexical_of_list h))
    | error e =>
      obtain ⟨slice', rfl, hmisfit'⟩ := exists_misfit_of_ofTokens hscan h
      rw [hmisfit.unique hmisfit']

/-- **A text is read by the grammar of operand lists.** -/
structure ReadByGrammar (cs : List Char) : Prop where
  /-- The items that are read are those of which the text consists. -/
  ok_iff : ∀ items, list cs = .ok items ↔ Spelled items cs
  /-- Other gaps around items and commas do not change them. -/
  spacing : ∀ {items cs'}, list cs = .ok items → Spelled items cs' → list cs' = .ok items
  /-- Of any other text, the first token with which no operand list goes on is reported, or the
  comma at its end. -/
  error_iff : ∀ e, list cs = .error e ↔
    ∃ slice, e = .unexpectedInput slice ∧ Misfit (scan cs) slice

/-- **Every text is read by the grammar.** -/
theorem readByGrammar (cs : List Char) : ReadByGrammar cs where
  ok_iff := fun _ => list_eq_ok_iff_spelled
  spacing := fun _ hcs' => list_eq_ok_iff_spelled.2 hcs'
  error_iff := fun _ => list_eq_error_iff

example : list " a,\t'b, c' ".toList = .ok [.word "a", .text "b, c"] := by decide +kernel

example : list "a, b c,".toList = .error (.unexpectedInput "c") := by decide +kernel

end Item

end TinyAsm
