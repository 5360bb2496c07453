import TinyAsm.Image.Layout

/-!
# Reading the body of an image

A reader takes what it reads off the front of a byte sequence. There is one reader for
each part of the layout, and three ways in which one can fail: the bytes end too early, a
tag names no alternative, or a text is not UTF-8. Whichever comes first is reported.
-/

namespace TinyAsm.Image

open Utf8 (Bytes)

/-- Why the body of an image cannot be read. -/
inductive BodyFault where
  | endOfBytes
  /-- The tag is `found`, and there are `count` alternatives. -/
  | badTag (found count : Nat)
  | badText (f : Utf8.Fault)
deriving DecidableEq, Repr

/-- The text of a body fault. -/
def BodyFault.message : BodyFault → String
  | endOfBytes => "io error: failed to fill whole buffer"
  | badTag found count =>
    "invalid value: integer `" ++ found.repr ++ "`, expected variant index 0 <= i < "
      ++ count.repr
  | badText f => "string is not valid utf8: " ++ f.message

/-- A reader of values from the front of a byte sequence. -/
abbrev Reader := StateT Bytes (Except BodyFault)

namespace Reader

/-! ### Numbers and texts -/

/-- Exactly `n` bytes. -/
def take (n : Nat) : Reader Bytes := fun bytes =>
  let front := bytes.take n
  -- A front part that is too short means that the bytes have ended.
  if front.length = n then .ok (front, bytes.drop n) else .error .endOfBytes

/-- A number of `width` bytes. -/
def number (width : Nat) : Reader Nat :=
  return ofLittleEndian (← take width)

/-- A length. -/
def count : Reader Nat := number 8

/-- A word. -/
def word : Reader Word :=
  return (UInt64.ofNat (← number 8)).toInt64

/-- A text. -/
def text : Reader String := do
  match Utf8.decode (← take (← count)) with
  | .ok cs => return String.ofList cs
  | .error f => throw (.badText f)

/-- `n` values, after those in `done`, which are last first. -/
def times {α : Type} (r : Reader α) (done : List α) : Nat → Reader (List α)
  | 0 => return done.reverse
  | n + 1 => do times r ((← r) :: done) n

/-- A sequence, its elements read by `element`. -/
def sequence {α : Type} (element : Reader α) : Reader (List α) := do
  times element [] (← count)

/-- An alternative. The tag says which of the readers goes on. -/
def alternative {α : Type} (readers : List (Reader α)) : Reader α := do
  let found ← number 4
  match readers[found]? with
  | some r => r
  | none => throw (.badTag found readers.length)

/-! ### Instructions -/

/-- An arithmetic operation. -/
def arithOp : Reader ArithOp := alternative (ArithOp.all.map pure)

/-- A condition. -/
def condition : Reader Condition := alternative (Condition.all.map pure)

/-- An operand. -/
def operand : Reader Operand :=
  alternative [return .literal (← word), return .register (← text)]

/-- A part of a message. -/
def messagePart : Reader MessagePart :=
  alternative [return .text (← text), return .value (← operand)]

/-- An instruction. -/
def instruction : Reader Instruction :=
  alternative [
    return .mov (← text) (← operand),
    return .inc (← text),
    return .dec (← text),
    return .arith (← arithOp) (← text) (← operand),
    return .cmp (← operand) (← operand),
    return .jmp (← text),
    return .jumpIf (← condition) (← text),
    return .call (← text),
    return .ret,
    return .msg (← sequence messagePart),
    return .halt]

/-- An entry of the label table. -/
def entry : Reader (String × Word) :=
  return (← text, ← word)

/-- The body of an image: instructions and label entries. -/
def body : Reader (List Instruction × List (String × Word)) :=
  return (← sequence instruction, ← sequence entry)

end Reader

end TinyAsm.Image
