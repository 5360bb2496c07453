import TinyAsm.Program.Basic
import TinyAsm.Text.Utf8

/-!
# The layout of a program image

An image is a byte sequence that holds a program:

* the line `ASMVMPROGRAM`, and a line with the version of the format;
* the body: the instructions, then the entries of the label table;
* a line end and `PROGEND`.

In the body a number takes a fixed count of bytes, the lowest first: four for the tag of
an alternative, eight for a length or a word. A text is its length in bytes and its UTF-8
bytes, and a sequence is its length and its elements. An alternative is its tag and its
parts.

`Image.write` writes an image with the label entries in any order, and `Image.encode`
one of a program with the entries ordered by name.
-/

namespace TinyAsm.Image

open Utf8 (Bytes)

/-! ### Fixed texts -/

/-- The version of the format. -/
def version : String := "0.1.0"

/-- The bytes an image starts with. -/
def magic : Bytes := Utf8.encode "ASMVMPROGRAM\n".toList

/-- The bytes after the body. -/
def trailer : Bytes := Utf8.encode "\nPROGEND".toList

/-! ### Numbers and texts -/

/-- The lowest `width` bytes of a number, the lowest first. -/
def littleEndian : Nat → Nat → Bytes
  | 0, _ => []
  | width + 1, n => UInt8.ofNat n :: littleEndian width (n / 256)

/-- The number whose bytes are given, the lowest first. -/
def ofLittleEndian (bytes : Bytes) : Nat :=
  bytes.foldr (fun b n => b.toNat + 256 * n) 0

@[simp] theorem length_littleEndian (width n : Nat) : (littleEndian width n).length = width := by
  induction width generalizing n with
  | zero => rfl
  | succ width ih => simp [littleEndian, ih]

/-- Reading a number undoes writing it, if it has enough bytes. -/
theorem ofLittleEndian_littleEndian {width n : Nat} (h : n < Nat.pow 256 width) :
    ofLittleEndian (littleEndian width n) = n := by
  induction width generalizing n with
  | zero =>
    obtain rfl : n = 0 := Nat.lt_one_iff.1 h
    rfl
  | succ width ih =>
    -- The other bytes are those of the quotient, which has one byte less.
    have hn : n / 256 < Nat.pow 256 width :=
      Nat.div_lt_of_lt_mul (Nat.mul_comm _ 256 ▸ h)
    have ih := ih hn
    unfold ofLittleEndian at ih ⊢
    rw [littleEndian, List.foldr_cons, ih, UInt8.toNat_ofNat']
    omega

/-- The tag of an alternative. -/
def tag (n : Nat) : Bytes := littleEndian 4 n

/-- A length. -/
def count (n : Nat) : Bytes := littleEndian 8 n

/-- A word. -/
def word (w : Word) : Bytes := littleEndian 8 w.toUInt64.toNat

/-- A text. -/
def text (s : String) : Bytes :=
  count (Utf8.encode s.toList).length ++ Utf8.encode s.toList

/-- A sequence, its elements written by `element`. -/
def sequence {α : Type} (element : α → Bytes) (xs : List α) : Bytes :=
  count xs.length ++ xs.flatMap element

/-! ### Instructions -/

/-- The tag of an arithmetic operation is its place among them. -/
def arithOp (op : ArithOp) : Bytes := tag (ArithOp.all.idxOf op)

/-- The tag of a condition is its place among them. -/
def condition (c : Condition) : Bytes := tag (Condition.all.idxOf c)

/-- An operand. -/
def operand : Operand → Bytes
  | .literal value => tag 0 ++ word value
  | .register name => tag 1 ++ text name

/-- A part of a message. -/
def messagePart : MessagePart → Bytes
  | .text content => tag 0 ++ text content
  | .value o => tag 1 ++ operand o

/-- An instruction. -/
def instruction : Instruction → Bytes
  | .mov target source => tag 0 ++ text target ++ operand source
  | .inc target => tag 1 ++ text target
  | .dec target => tag 2 ++ text target
  | .arith op target source => tag 3 ++ arithOp op ++ text target ++ operand source
  | .cmp left right => tag 4 ++ operand left ++ operand right
  | .jmp label => tag 5 ++ text label
  | .jumpIf c label => tag 6 ++ condition c ++ text label
  | .call label => tag 7 ++ text label
  | .ret => tag 8
  | .msg parts => tag 9 ++ sequence messagePart parts
  | .halt => tag 10

/-- An entry of the label table. -/
def entry (e : String × Word) : Bytes :=
  text e.1 ++ word e.2

/-! ### Images -/

/-- The body of an image. -/
def body (instructions : List Instruction) (entries : List (String × Word)) : Bytes :=
  sequence instruction instructions ++ sequence entry entries

/-- The image with the given instructions and label entries. -/
def write (instructions : List Instruction) (entries : List (String × Word)) : Bytes :=
  magic ++ Utf8.encode (version.toList ++ ['\n']) ++ body instructions entries ++ trailer

/-- The image of a program, with the label entries ordered by name. -/
def encode (p : Program) : Bytes :=
  write p.instructions.toList p.labels.toList

end TinyAsm.Image
