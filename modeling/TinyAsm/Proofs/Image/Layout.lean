import TinyAsm.Image.Layout

/-!
# What fits the layout

The layout has eight bytes for a length, and so it holds no text of `2 ^ 64` bytes and no
list of that many elements. The predicates `Fits` say of each kind of part that its lengths
are small enough. No value that is held in memory fails them.

A number of bytes is written and read back without loss in both directions:
`ofLittleEndian_littleEndian` in `TinyAsm.Image.Layout` and `littleEndian_ofLittleEndian`
here.
-/

namespace TinyAsm

/-! ### Lengths that fit -/

namespace Image

/-- How many lengths there are: `2 ^ 64`. -/
def lengthCount : Nat := 18446744073709551616

/-- The bytes of a text can be counted. -/
def TextFits (s : String) : Prop :=
  s.utf8ByteSize < lengthCount

/-- The elements of a list can be counted, and fit themselves. -/
def ListFits {α : Type} (fits : α → Prop) (xs : List α) : Prop :=
  xs.length < lengthCount ∧ ∀ x ∈ xs, fits x

end Image

open Image (TextFits ListFits)

/-- A literal has eight bytes; the name of a register has to be counted. -/
def Operand.Fits : Operand → Prop
  | .literal _ => True
  | .register name => TextFits name

/-- The text of a part, or the name in it, can be counted. -/
def MessagePart.Fits : MessagePart → Prop
  | .text content => TextFits content
  | .value operand => operand.Fits

/-- **Every text in the instruction can be counted**, and so can the parts of a message. -/
def Instruction.Fits : Instruction → Prop
  | .mov target source => TextFits target ∧ source.Fits
  | .inc target => TextFits target
  | .dec target => TextFits target
  | .arith _ target source => TextFits target ∧ source.Fits
  | .cmp left right => left.Fits ∧ right.Fits
  | .jmp label => TextFits label
  | .jumpIf _ label => TextFits label
  | .call label => TextFits label
  | .ret => True
  | .msg parts => ListFits MessagePart.Fits parts
  | .halt => True

namespace Image

/-- An entry of the label table fits if its name does. -/
def EntryFits (e : String × Word) : Prop :=
  TextFits e.1

end Image

/-- **The program fits an image**: its instructions and its labels can be counted, and so
can the bytes of every text in them. -/
structure Program.Fits (p : Program) : Prop where
  instructions : ListFits Instruction.Fits p.instructions.toList
  labels : ListFits Image.EntryFits p.labels.toList

section Decide

instance (s : String) : Decidable (TextFits s) :=
  inferInstanceAs (Decidable (s.utf8ByteSize < Image.lengthCount))

instance {α : Type} (fits : α → Prop) [DecidablePred fits] (xs : List α) :
    Decidable (ListFits fits xs) :=
  inferInstanceAs (Decidable (xs.length < Image.lengthCount ∧ ∀ x ∈ xs, fits x))

instance : DecidablePred Operand.Fits
  | .literal _ => .isTrue trivial
  | .register name => inferInstanceAs (Decidable (TextFits name))

instance : DecidablePred MessagePart.Fits
  | .text content => inferInstanceAs (Decidable (TextFits content))
  | .value operand => inferInstanceAs (Decidable operand.Fits)

instance : DecidablePred Instruction.Fits
  | .mov target source | .arith _ target source =>
    inferInstanceAs (Decidable (TextFits target ∧ source.Fits))
  | .inc text | .dec text | .jmp text | .jumpIf _ text | .call text =>
    inferInstanceAs (Decidable (TextFits text))
  | .cmp left right => inferInstanceAs (Decidable (left.Fits ∧ right.Fits))
  | .msg parts => inferInstanceAs (Decidable (ListFits MessagePart.Fits parts))
  | .ret | .halt => .isTrue trivial

instance : DecidablePred Image.EntryFits :=
  fun e => inferInstanceAs (Decidable (TextFits e.1))

instance (p : Program) : Decidable p.Fits :=
  decidable_of_iff
    (ListFits Instruction.Fits p.instructions.toList ∧ ListFits Image.EntryFits p.labels.toList)
    ⟨fun h => ⟨h.1, h.2⟩, fun h => ⟨h.1, h.2⟩⟩

end Decide

namespace Image

open Utf8 (Bytes)

/-! ### Numbers and texts -/

theorem length_encode_toList (s : String) : (Utf8.encode s.toList).length = s.utf8ByteSize := by
  have h : (Utf8.encode s.toList).toByteArray = s.toByteArray := String.utf8Encode_toList
  rw [← List.size_toByteArray, h, String.size_toByteArray]

theorem ofLittleEndian_cons (b : UInt8) (bytes : Bytes) :
    ofLittleEndian (b :: bytes) = b.toNat + 256 * ofLittleEndian bytes := rfl

/-- A number that was read is bounded by the width of its field. -/
theorem ofLittleEndian_lt (bytes : Bytes) : ofLittleEndian bytes < Nat.pow 256 bytes.length := by
  induction bytes with
  | nil => decide
  | cons b bytes ih =>
    have hb : b.toNat < 256 := b.toNat_lt
    have hpow : Nat.pow 256 (bytes.length + 1) = Nat.pow 256 bytes.length * 256 := rfl
    rw [ofLittleEndian_cons, List.length_cons, hpow]
    omega

/-- Writing a number undoes reading it, with as many bytes. -/
theorem littleEndian_ofLittleEndian (bytes : Bytes) :
    littleEndian bytes.length (ofLittleEndian bytes) = bytes := by
  induction bytes with
  | nil => rfl
  | cons b bytes ih =>
    have hb : b.toNat < 256 := b.toNat_lt
    -- The first byte is the remainder by `256`, and the others are the bytes of the quotient.
    have hdiv : (b.toNat + 256 * ofLittleEndian bytes) / 256 = ofLittleEndian bytes := by omega
    have hmod : UInt8.ofNat (b.toNat + 256 * ofLittleEndian bytes) = b := by
      rw [← UInt8.toNat_inj, UInt8.toNat_ofNat']
      omega
    rw [List.length_cons, littleEndian, ofLittleEndian_cons, hdiv, hmod, ih]

end Image

end TinyAsm
