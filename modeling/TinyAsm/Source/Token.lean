/-!
# Tokens of an operand list

The part of a line after its mnemonic is divided into tokens.

* Space, tab and form feed are gaps between tokens.
* A comma is a token.
* A quote starts a text, which runs to the next quote and may hold anything else.
* Any other character starts a word, which is as long as it can be: it ends before a
  gap, a line end, a comma or a quote.
* A carriage return or line feed outside a text, and a quote that nothing closes together
  with all that follows it, are invalid.

`Token.scan` is the lexer. `Token.slice` gives back the characters of a token.
-/

namespace TinyAsm

/-- A token of an operand list. -/
inductive Token where
  | comma
  /-- A text, without its quotes. -/
  | text (content : String)
  | word (spelling : String)
  /-- Characters that belong to no token. -/
  | invalid (slice : String)
deriving DecidableEq, Repr

namespace Token

/-- The characters a token consists of. -/
def slice : Token → String
  | comma => ","
  | text content => "'" ++ content ++ "'"
  | word spelling => spelling
  | invalid slice => slice

/-- Whether a character is a gap between tokens. -/
def isGap (c : Char) : Bool :=
  c = ' ' || c = '\t' || c = '\x0c'

/-- Whether a character ends a line of text. -/
def isLineEnd (c : Char) : Bool :=
  c = '\r' || c = '\n'

/-- Whether a character can stand in a word. -/
def isWordChar (c : Char) : Bool :=
  !(isGap c || isLineEnd c || c = ',' || c = '\'')

/-- The tokens of a text, in order. -/
def scan : List Char → List Token
  | [] => []
  | c :: cs =>
    if isGap c then
      scan cs
    else if isLineEnd c then
      invalid (String.ofList [c]) :: scan cs
    else if c = ',' then
      comma :: scan cs
    else if c = '\'' then
      -- The text runs to the next quote. Without one, nothing of the rest is a token.
      match _h : cs.dropWhile (· ≠ '\'') with
      | [] => [invalid (String.ofList (c :: cs))]
      | _ :: rest => text (String.ofList (cs.takeWhile (· ≠ '\''))) :: scan rest
    else
      word (String.ofList (c :: cs.takeWhile isWordChar)) :: scan (cs.dropWhile isWordChar)
termination_by cs => cs.length
decreasing_by
  · exact Nat.lt_succ_self _
  · exact Nat.lt_succ_self _
  · exact Nat.lt_succ_self _
  · have := (List.dropWhile_suffix (· ≠ '\'') (l := cs)).length_le
    rw [_h, List.length_cons] at this
    exact Nat.lt_succ_of_le (Nat.le_of_succ_le this)
  · exact Nat.lt_succ_of_le (List.dropWhile_suffix isWordChar).length_le

end Token

end TinyAsm
