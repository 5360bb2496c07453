/-!
# UTF-8

Texts enter and leave byte sequences in UTF-8.

* `Utf8.encode` writes a text;
* `Utf8.decode` reads one back. It accepts well-formed sequences only, and otherwise
  says where the first fault is: an ill-formed sequence of one to three bytes, or a
  sequence that the end of the bytes cuts short;
* `Utf8.decodeLossy` reads anything, with one replacement character for each fault.

All three go through a description of what a byte sequence starts with, `Utf8.next`.
A fault is as long as it can be: it ends before the first byte that no well-formed
sequence continues with.
-/

namespace TinyAsm.Utf8

/-- A sequence of bytes. -/
abbrev Bytes := List UInt8

/-! ### Writing -/

/-- The bytes of a text. -/
def encode (cs : List Char) : Bytes :=
  cs.flatMap String.utf8EncodeChar

@[simp] theorem encode_nil : encode [] = [] := rfl

@[simp] theorem encode_cons (c : Char) (cs : List Char) :
    encode (c :: cs) = String.utf8EncodeChar c ++ encode cs := rfl

@[simp] theorem encode_append (cs ds : List Char) :
    encode (cs ++ ds) = encode cs ++ encode ds := by
  simp [encode]

/-! ### The first character -/

/-- What a byte sequence starts with. -/
inductive Next where
  /-- A well-formed character, and the bytes after it. -/
  | char (c : Char) (rest : Bytes)
  /-- This many bytes that begin no well-formed character. -/
  | invalid (length : Nat)
  /-- All that is left, and it could still become a character. -/
  | incomplete

/-- The least second byte after the lead byte `b`. It excludes the forms that are
longer than needed. -/
def secondLow (b : UInt8) : UInt8 :=
  if b = 0xE0 then 0xA0 else if b = 0xF0 then 0x90 else 0x80

/-- The greatest second byte after the lead byte `b`. It excludes surrogates and what
lies beyond the last code point. -/
def secondHigh (b : UInt8) : UInt8 :=
  if b = 0xED then 0x9F else if b = 0xF4 then 0x8F else 0xBF

/-- Whether a byte can stand third or fourth in a character. -/
def isContinuation (b : UInt8) : Bool :=
  0x80 ≤ b && b ≤ 0xBF

/-- The payload of a byte after the lead byte. -/
def payload (b : UInt8) : Nat :=
  b.toNat % 64

/-- What the bytes `b :: bs` start with. -/
def next (b : UInt8) (bs : Bytes) : Next :=
  -- The lead byte tells how many bytes there should be. No lead byte from `0x80` to
  -- `0xC1` starts a character, and none above `0xF4`.
  if b < 0x80 then
    .char (Char.ofNat b.toNat) bs
  else if b < 0xC2 || 0xF4 < b then
    .invalid 1
  else match bs with
  | [] => .incomplete
  | b₁ :: bs =>
    if b₁ < secondLow b || secondHigh b < b₁ then
      .invalid 1
    else if b < 0xE0 then
      .char (Char.ofNat (b.toNat % 32 * 64 + payload b₁)) bs
    else match bs with
    | [] => .incomplete
    | b₂ :: bs =>
      if !isContinuation b₂ then
        .invalid 2
      else if b < 0xF0 then
        .char (Char.ofNat (b.toNat % 16 * 4096 + payload b₁ * 64 + payload b₂)) bs
      else match bs with
      | [] => .incomplete
      | b₃ :: bs =>
        if !isContinuation b₃ then
          .invalid 3
        else
          .char (Char.ofNat (b.toNat % 8 * 262144 + payload b₁ * 4096 + payload b₂ * 64
            + payload b₃)) bs

/-- A character takes at least its lead byte. -/
theorem length_le_of_next_eq_char {b : UInt8} {bs rest : Bytes} {c : Char}
    (h : next b bs = .char c rest) : rest.length ≤ bs.length := by
  unfold next at h
  repeat' split at h
  all_goals simp_all
  all_goals omega

/-! ### Reading -/

/-- Why a byte sequence is not the UTF-8 of a text. `index` counts the bytes of the
well-formed text before the fault. -/
inductive Fault where
  /-- `length` bytes from `index` on begin no character. -/
  | invalid (length index : Nat)
  /-- The bytes end inside the character that starts at `index`. -/
  | incomplete (index : Nat)
deriving DecidableEq, Repr

/-- The text of a fault. -/
def Fault.message : Fault → String
  | .invalid length index =>
    "invalid utf-8 sequence of " ++ length.repr ++ " bytes from index " ++ index.repr
  | .incomplete index => "incomplete utf-8 byte sequence from index " ++ index.repr

/-- Reads on after `index` bytes, which hold the characters `done`, last first. -/
def decodeFrom (done : List Char) (index : Nat) (bytes : Bytes) : Except Fault (List Char) :=
  match bytes with
  | [] => .ok done.reverse
  | b :: bs =>
    match _h : next b bs with
    | .char c rest => decodeFrom (c :: done) (index + c.utf8Size) rest
    | .invalid length => .error (.invalid length index)
    | .incomplete => .error (.incomplete index)
termination_by bytes.length
decreasing_by exact Nat.lt_succ_of_le (length_le_of_next_eq_char _h)

/-- The text of a well-formed byte sequence, or its first fault. -/
def decode (bytes : Bytes) : Except Fault (List Char) :=
  decodeFrom [] 0 bytes

/-- The text of any byte sequence. Each fault reads as U+FFFD. -/
def decodeLossy (bytes : Bytes) : List Char :=
  match bytes with
  | [] => []
  | b :: bs =>
    match h : next b bs with
    | .char c rest => c :: decodeLossy rest
    -- The fault is replaced as a whole. Its first byte has been taken off already.
    | .invalid length => '\uFFFD' :: decodeLossy (bs.drop (length - 1))
    | .incomplete => ['\uFFFD']
termination_by bytes.length
decreasing_by
  · exact Nat.lt_succ_of_le (length_le_of_next_eq_char h)
  · rw [List.length_drop, List.length_cons]
    omega

end TinyAsm.Utf8
