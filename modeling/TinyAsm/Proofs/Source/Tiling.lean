import TinyAsm.Proofs.Source.Token

/-!
# Tokens and gaps in their places

`Token.Tiles` tells of which tokens a text consists. This module tells where in the text they
stand. A text is cut into pieces, each of which is a gap and the token behind it, and a gap at the
end.

* `Token.laid pieces last` — the text that is put together from pieces and the gap at its end;
* `Token.Tiling cs pieces last` — the text `cs` is put together so, and every gap and every token
  is what its kind allows where it stands. This is said by characters and without the definitions
  that the lexer uses.

`tiledOnce` states that a text has a tiling and only one, and that the tokens in it are those that
the lexer finds. The proof goes through `Fit`, which says the same in the terms of `Tiles` and piece
by piece. Pieces that fit can be read off their text (`Fit.unique`): their tokens tile it, and so
there is no other choice of them, and each gap ends where a token starts.
-/

namespace TinyAsm

namespace Token

/-- A token in a text, and the gap before it. -/
@[ext]
structure Piece where
  gap : List Char
  token : Token
deriving DecidableEq, Repr

/-- The characters of a gap and of the token behind it. -/
def Piece.chars (p : Piece) : List Char :=
  p.gap ++ p.token.slice.toList

/-- **The text of pieces**, with the gap `last` at its end. -/
def laid (pieces : List Piece) (last : List Char) : List Char :=
  pieces.flatMap Piece.chars ++ last

/-- The characters at which a word ends. -/
def wordEnds : List Char :=
  [' ', '\t', '\x0c', '\r', '\n', ',', '\'']

/-- **A text cut into tokens and gaps.** -/
structure Tiling (cs : List Char) (pieces : List Piece) (last : List Char) : Prop where
  /-- The pieces make up the text, in order: no character is lost, and none is in two of them. -/
  laid_eq : laid pieces last = cs
  /-- Only spaces, tabs and form feeds are skipped. -/
  gaps : ∀ gap ∈ last :: pieces.map Piece.gap, ∀ c ∈ gap, c = ' ' ∨ c = '\t' ∨ c = '\x0c'
  /-- Every token has characters. -/
  nonempty : ∀ p ∈ pieces, p.token.slice ≠ ""
  /-- A word holds none of the characters at which words end, and ends only at one of them. -/
  word : ∀ front gap spelling back, pieces = front ++ ⟨gap, .word spelling⟩ :: back →
    (∀ c ∈ spelling.toList, c ∉ wordEnds) ∧ ∀ c ∈ (laid back last).head?, c ∈ wordEnds
  /-- A quoted text is what stands between two quotes, and holds none. -/
  text : ∀ gap content, ⟨gap, .text content⟩ ∈ pieces →
    (Token.text content).slice.toList = '\'' :: (content.toList ++ ['\'']) ∧
      '\'' ∉ content.toList
  /-- What belongs to no other token is a single character at the end of a line, or a quote that
  nothing closes, with all that is left. -/
  invalid : ∀ front gap slice back, pieces = front ++ ⟨gap, .invalid slice⟩ :: back →
    slice = "\r" ∨ slice = "\n" ∨
      (∃ inner, slice.toList = '\'' :: inner ∧ '\'' ∉ inner) ∧ back = [] ∧ last = []

/-- **Pieces that fit**, each in its place before the others and the gap at the end. -/
inductive Fit (last : List Char) : List Piece → Prop where
  | nil (hlast : Gaps last) : Fit last []
  | cons {p : Piece} {pieces : List Piece} (gap : Gaps p.gap)
      (lexeme : Lexeme p.token (laid pieces last)) (fit : Fit last pieces) : Fit last (p :: pieces)

variable {c : Char} {cs rest last last' : List Char} {t : Token} {ts : List Token} {p : Piece}
  {pieces pieces' front back : List Piece}

/-! ### Characters -/

/-- A word goes on up to the first character at which words end. -/
theorem isWordChar_iff_notMem : isWordChar c = true ↔ c ∉ wordEnds := by
  simp [isWordChar, isGap, isLineEnd, wordEnds, and_assoc]

theorem isWordChar_eq_false_iff_mem : isWordChar c = false ↔ c ∈ wordEnds := by
  rw [← Bool.not_eq_true, isWordChar_iff_notMem, not_not]

/-! ### Pieces -/

theorem laid_cons (p : Piece) (pieces : List Piece) (last : List Char) :
    laid (p :: pieces) last = p.gap ++ (p.token.slice.toList ++ laid pieces last) := by
  rw [laid, List.flatMap_cons, Piece.chars, List.append_assoc, List.append_assoc]
  rfl

/-- Where a token starts, the gap before it ends. -/
theorem Lexeme.isGap_head (h : Lexeme t rest) :
    ∀ c ∈ (t.slice.toList ++ rest).head?, isGap c = false := by
  -- Each kind of token starts with a character of its own: a comma, a quote, one of a word, or a
  -- line end.
  cases h with
  | comma =>
    rintro c ⟨⟩
    rfl
  | text =>
    rw [toList_slice_text]
    rintro c ⟨⟩
    rfl
  | @word spelling _ nonempty chars =>
    obtain ⟨d, ds, hds⟩ := List.exists_cons_of_ne_nil nonempty
    rw [slice, hds]
    rintro c ⟨⟩
    exact (isWordChar_iff.1 (chars d (hds ▸ List.mem_cons_self))).1
  | @lineEnd d _ h =>
    rw [slice, String.toList_ofList]
    rintro c ⟨⟩
    rcases isLineEnd_iff.1 h with rfl | rfl <;> rfl
  | unclosed =>
    rw [slice, String.toList_ofList]
    rintro c ⟨⟩
    rfl

/-- The tokens of pieces that fit tile their text. -/
theorem Fit.tiles (h : Fit last pieces) : Tiles (laid pieces last) (pieces.map Piece.token) := by
  induction h with
  | nil hlast =>
    have htiles := Tiles.gaps hlast .nil
    rwa [List.append_nil] at htiles
  | @cons p pieces gap lexeme _ ih =>
    rw [laid_cons]
    exact .gaps gap (.token lexeme ih)

/-- **Where tokens tile a text, they can be put in their places.** -/
theorem Tiles.exists_fit (h : Tiles cs ts) :
    ∃ pieces last, laid pieces last = cs ∧ pieces.map Piece.token = ts ∧ Fit last pieces := by
  -- The induction is on the tokens: each is taken off with the gap before it, and what is left
  -- behind the last one is the gap at the end.
  induction ts generalizing cs with
  | nil => exact ⟨[], cs, rfl, rfl, .nil h.forall_isGap⟩
  | cons t ts ih =>
    obtain ⟨gap, rest, rfl, hgap, lexeme, tiles⟩ := h.exists_eq_append
    obtain ⟨pieces, last, rfl, rfl, fit⟩ := ih tiles
    exact ⟨⟨gap, t⟩ :: pieces, last, laid_cons _ _ _, rfl, .cons hgap lexeme fit⟩

/-- **Pieces that fit are told by their text.** -/
theorem Fit.unique (h : Fit last pieces) (h' : Fit last' pieces')
    (hlaid : laid pieces last = laid pieces' last') : pieces = pieces' ∧ last = last' := by
  -- The tokens are the same, since a text is tiled in one way.
  have htokens : pieces.map Piece.token = pieces'.map Piece.token := by
    rw [← tiles_iff.1 h.tiles, ← tiles_iff.1 h'.tiles, hlaid]
  induction h generalizing pieces' with
  | nil =>
    cases h' with
    | nil => exact ⟨rfl, hlaid⟩
    | cons => contradiction
  | @cons p pieces gap lexeme fit ih =>
    cases h' with
    | nil => contradiction
    | @cons p' pieces' gap' lexeme' fit' =>
      obtain ⟨htoken, htokens⟩ := List.cons.inj htokens
      rw [laid_cons, laid_cons] at hlaid
      -- Each gap takes the same text up to its first character that is in no gap.
      obtain ⟨htake, hdrop⟩ := takeWhile_of_forall gap lexeme.isGap_head
      obtain ⟨htake', hdrop'⟩ := takeWhile_of_forall gap' lexeme'.isGap_head
      have hgap : p.gap = p'.gap := by rw [← htake, hlaid, htake']
      have hrest : p.token.slice.toList ++ laid pieces last =
          p'.token.slice.toList ++ laid pieces' last' := by rw [← hdrop, hlaid, hdrop']
      rw [htoken] at hrest
      obtain ⟨hpieces, hlast⟩ := ih fit' (List.append_cancel_left hrest) htokens
      rw [Piece.ext hgap htoken, hpieces]
      exact ⟨rfl, hlast⟩

/-! ### From pieces that fit to a tiling -/

theorem Fit.gaps (h : Fit last pieces) : ∀ gap ∈ last :: pieces.map Piece.gap, Gaps gap := by
  induction h with
  | nil hlast => exact List.forall_mem_singleton.2 hlast
  | cons gap _ _ ih =>
    obtain ⟨hlast, hpieces⟩ := List.forall_mem_cons.1 ih
    exact List.forall_mem_cons.2 ⟨hlast, List.forall_mem_cons.2 ⟨gap, hpieces⟩⟩

/-- A piece fits where it stands, and so do those behind it. -/
theorem Fit.of_append (h : Fit last (front ++ p :: back)) :
    Lexeme p.token (laid back last) ∧ Fit last back := by
  induction front with
  | nil =>
    cases h with
    | cons _ lexeme fit => exact ⟨lexeme, fit⟩
  | cons _ front ih =>
    cases h with
    | cons _ _ fit => exact ih fit

theorem Fit.exists_lexeme (h : Fit last pieces) (hp : p ∈ pieces) :
    ∃ rest, Lexeme p.token rest := by
  obtain ⟨front, back, rfl⟩ := List.append_of_mem hp
  exact ⟨_, h.of_append.1⟩

/-- No piece fits into a text without characters. -/
theorem Fit.eq_nil (h : Fit last pieces) (hlaid : laid pieces last = []) :
    pieces = [] ∧ last = [] := by
  cases h with
  | nil => exact ⟨rfl, hlaid⟩
  | cons _ lexeme _ =>
    rw [laid_cons, List.append_eq_nil_iff, List.append_eq_nil_iff] at hlaid
    exact absurd hlaid.2.1 lexeme.slice_ne_nil

/-- **Pieces that fit are a tiling of their text.** Each condition of the tiling is read off the
token that it is about. -/
theorem Fit.tiling (h : Fit last pieces) : Tiling (laid pieces last) pieces last where
  laid_eq := rfl
  gaps := fun gap hgap c hc => isGap_iff.1 (h.gaps gap hgap c hc)
  nonempty := by
    intro p hp hslice
    obtain ⟨rest, lexeme⟩ := h.exists_lexeme hp
    exact lexeme.slice_ne_nil (String.toList_eq_nil_iff.2 hslice)
  word := by
    rintro front gap spelling back rfl
    cases h.of_append.1 with
    | word _ chars maximal =>
      exact ⟨fun c hc => isWordChar_iff_notMem.1 (chars c hc),
        fun c hc => isWordChar_eq_false_iff_mem.1 (maximal c hc)⟩
  text := by
    intro gap content hp
    obtain ⟨rest, lexeme⟩ := h.exists_lexeme hp
    cases lexeme with
    | text hcontent => exact ⟨toList_slice_text content, hcontent⟩
  invalid := by
    rintro front gap slice back rfl
    obtain ⟨lexeme, fit⟩ := h.of_append
    generalize hrest : laid back last = rest at lexeme
    cases lexeme with
    | lineEnd hc =>
      -- A character that ends a line stands alone, as one of two.
      rcases isLineEnd_iff.1 hc with rfl | rfl
      · exact .inl rfl
      · exact .inr (.inl rfl)
    | @unclosed inner hinner =>
      -- Nothing is left behind it, and so neither a piece nor a gap.
      exact .inr (.inr ⟨⟨inner, String.toList_ofList, hinner⟩, fit.eq_nil hrest⟩)

/-! ### From a tiling to pieces that fit -/

/-- Behind its first piece, a text is tiled by the others. -/
theorem Tiling.tail (h : Tiling cs (p :: pieces) last) : Tiling (laid pieces last) pieces last where
  laid_eq := rfl
  gaps := by
    obtain ⟨hlast, hpieces⟩ := List.forall_mem_cons.1 h.gaps
    exact List.forall_mem_cons.2 ⟨hlast, (List.forall_mem_cons.1 hpieces).2⟩
  nonempty := (List.forall_mem_cons.1 h.nonempty).2
  word := fun front gap spelling back hpieces =>
    h.word (p :: front) gap spelling back (congrArg (p :: ·) hpieces)
  text := fun gap content hp => h.text gap content (List.mem_cons_of_mem p hp)
  invalid := fun front gap slice back hpieces =>
    h.invalid (p :: front) gap slice back (congrArg (p :: ·) hpieces)

/-- The first token is one where it stands. -/
theorem Tiling.lexeme (h : Tiling cs (p :: pieces) last) : Lexeme p.token (laid pieces last) := by
  obtain ⟨gap, t⟩ := p
  have hslice : t.slice ≠ "" := h.nonempty _ List.mem_cons_self
  cases t with
  | comma => exact .comma
  | text content => exact .text (h.text gap content List.mem_cons_self).2
  | word spelling =>
    obtain ⟨chars, maximal⟩ := h.word [] gap spelling pieces rfl
    exact .word (mt String.toList_eq_nil_iff.1 hslice)
      (fun c hc => isWordChar_iff_notMem.2 (chars c hc))
      (fun c hc => isWordChar_eq_false_iff_mem.2 (maximal c hc))
  | invalid slice =>
    -- A carriage return, a line feed, or a quote that nothing closes.
    rcases h.invalid [] gap slice pieces rfl with rfl | rfl | ⟨⟨inner, hinner, hquote⟩, rfl, rfl⟩
    · exact .lineEnd (c := '\r') rfl
    · exact .lineEnd (c := '\n') rfl
    · rw [← String.ofList_toList (s := slice), hinner]
      exact .unclosed hquote

/-- **The pieces of a tiling fit**, by induction on the pieces: the first one fits before the
others, and those are a tiling of what is left. -/
theorem Tiling.fit (h : Tiling cs pieces last) : Fit last pieces := by
  have hgaps : ∀ gap ∈ last :: pieces.map Piece.gap, Gaps gap := fun gap hgap c hc =>
    isGap_iff.2 (h.gaps gap hgap c hc)
  induction pieces generalizing cs with
  | nil => exact .nil (hgaps last List.mem_cons_self)
  | cons p pieces ih =>
    obtain ⟨hlast, hpieces⟩ := List.forall_mem_cons.1 hgaps
    obtain ⟨hgap, hpieces⟩ := List.forall_mem_cons.1 hpieces
    exact .cons hgap h.lexeme (ih h.tail (List.forall_mem_cons.2 ⟨hlast, hpieces⟩))

/-! ### Every text is tiled by what the lexer finds -/

/-- **A text is cut up in one way**, which is the lexer's. -/
structure TiledOnce (cs : List Char) : Prop where
  /-- A text can be cut into tokens and gaps. -/
  exists_tiling : ∃ pieces last, Tiling cs pieces last
  /-- There is no second way to cut it. -/
  unique : ∀ {pieces last pieces' last'}, Tiling cs pieces last → Tiling cs pieces' last' →
    pieces = pieces' ∧ last = last'
  /-- The tokens are those that the lexer finds, in their order. -/
  tokens_eq : ∀ {pieces last}, Tiling cs pieces last → pieces.map Piece.token = scan cs
  /-- Since each of them takes characters of its own, whoever reads them comes to an end. -/
  length_le : (scan cs).length ≤ cs.length

/-- **Every text is cut up in one way.** -/
theorem tiledOnce (cs : List Char) : TiledOnce cs where
  exists_tiling := by
    obtain ⟨pieces, last, rfl, -, fit⟩ := (tiles_scan cs).exists_fit
    exact ⟨pieces, last, fit.tiling⟩
  unique := fun h h' => h.fit.unique h'.fit (h.laid_eq.trans h'.laid_eq.symm)
  tokens_eq := by
    intro pieces last h
    obtain rfl := h.laid_eq
    exact (tiles_iff.1 h.fit.tiles).symm
  length_le := (tiles_scan cs).length_le

/-- A quote ends a word, and one that nothing closes takes the comma and the blanks behind it. -/
example : scan "a,\t'b, 'c\r'd, ".toList =
    [.word "a", .comma, .text "b, ", .word "c", .invalid "\r", .invalid "'d, "] := by
  decide +kernel

end Token

end TinyAsm
