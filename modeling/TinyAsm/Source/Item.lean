import TinyAsm.Source.Error
import TinyAsm.Source.Token

/-!
# Items of an operand list

An operand list is a sequence of items with a comma between any two. An item is a word
or a quoted text, as written; what it means is up to the opcode.

`Item.list` reads a list. It refuses the first token that cannot continue one, and a
comma with nothing after it.
-/

namespace TinyAsm

/-- An operand as it is written. -/
inductive Item where
  | text (content : String)
  | word (spelling : String)
deriving DecidableEq, Repr

namespace Item

/-- The item a token stands for. Commas and invalid tokens are none. -/
def ofToken? : Token → Option Item
  | .text content => some (.text content)
  | .word spelling => some (.word spelling)
  | .comma | .invalid _ => none

/-- The items that the tokens after an item add to the list. -/
def more : List Token → Except LineError (List Item)
  | [] => .ok []
  | [.comma] => .error (.unexpectedInput ",")
  | .comma :: t :: ts =>
    match ofToken? t with
    | some item => (item :: ·) <$> more ts
    | none => .error (.unexpectedInput t.slice)
  | t :: _ => .error (.unexpectedInput t.slice)

/-- The items of an operand list. -/
def ofTokens : List Token → Except LineError (List Item)
  | [] => .ok []
  | t :: ts =>
    match ofToken? t with
    | some item => (item :: ·) <$> more ts
    | none => .error (.unexpectedInput t.slice)

/-- The items of the text of an operand list. -/
def list (cs : List Char) : Except LineError (List Item) :=
  ofTokens (Token.scan cs)

/-! ### Items in their roles -/

/-- The item as a name. -/
def name : Item → Except LineError String
  | word spelling => .ok spelling
  | text content => .error (.unexpectedInput (Token.text content).slice)

/-- The item as an operand. -/
def operand (i : Item) : Except LineError Operand :=
  Operand.ofSpelling <$> i.name

/-- The item as a register to store into. -/
def target (i : Item) : Except LineError String :=
  match i.operand with
  | .ok (.register name) => .ok name
  | .ok (.literal value) => .error (.expectedRegister value)
  | .error e => .error e

/-- The item as a part of a message. -/
def part : Item → MessagePart
  | text content => .text content
  | word spelling => .value (Operand.ofSpelling spelling)

end Item

end TinyAsm
