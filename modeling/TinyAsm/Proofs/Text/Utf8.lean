import TinyAsm.Text.Utf8

/-!
# Decoding UTF-8 undoes encoding it, and nothing else

Well-formed UTF-8 has exactly one byte sequence for each text. The decoder reads it off
ranges of bytes and the encoder writes it by ranges of code points; `Starts` is the table
that both of them follow.

* `next_eq_char_iff` — the decoder finds a character exactly where the encoder has put it;
* `decode_eq_ok_iff` — it accepts the bytes of texts, and no others;
* `decodeLossy_encode` and `eq_encode_of_decodeLossy` — the same of the lossy decoder, as
  long as it puts in no replacement character.
-/

namespace TinyAsm.Utf8

/-- **The table of well-formed characters**: the bytes start with the character `c`, and
`rest` comes after it. There is one constructor for each length. -/
inductive Starts : Bytes → Char → Bytes → Prop where
  | one {b : UInt8} {c : Char} {rest : Bytes} (hb : b.toNat < 0x80) (hc : c.toNat = b.toNat) :
      Starts (b :: rest) c rest
  | two {b b₁ : UInt8} {c : Char} {rest : Bytes} (hb : 0xC2 ≤ b.toNat ∧ b.toNat < 0xE0)
      (h₁ : (secondLow b).toNat ≤ b₁.toNat ∧ b₁.toNat ≤ (secondHigh b).toNat)
      (hc : c.toNat = (b.toNat - 0xC0) * 64 + (b₁.toNat - 0x80)) :
      Starts (b :: b₁ :: rest) c rest
  | three {b b₁ b₂ : UInt8} {c : Char} {rest : Bytes} (hb : 0xE0 ≤ b.toNat ∧ b.toNat < 0xF0)
      (h₁ : (secondLow b).toNat ≤ b₁.toNat ∧ b₁.toNat ≤ (secondHigh b).toNat)
      (h₂ : 0x80 ≤ b₂.toNat ∧ b₂.toNat ≤ 0xBF)
      (hc : c.toNat = (b.toNat - 0xE0) * 4096 + (b₁.toNat - 0x80) * 64 + (b₂.toNat - 0x80)) :
      Starts (b :: b₁ :: b₂ :: rest) c rest
  | four {b b₁ b₂ b₃ : UInt8} {c : Char} {rest : Bytes} (hb : 0xF0 ≤ b.toNat ∧ b.toNat ≤ 0xF4)
      (h₁ : (secondLow b).toNat ≤ b₁.toNat ∧ b₁.toNat ≤ (secondHigh b).toNat)
      (h₂ : 0x80 ≤ b₂.toNat ∧ b₂.toNat ≤ 0xBF) (h₃ : 0x80 ≤ b₃.toNat ∧ b₃.toNat ≤ 0xBF)
      (hc : c.toNat = (b.toNat - 0xF0) * 262144 + (b₁.toNat - 0x80) * 4096
        + (b₂.toNat - 0x80) * 64 + (b₃.toNat - 0x80)) :
      Starts (b :: b₁ :: b₂ :: b₃ :: rest) c rest

/-! ### Bytes and code points as numbers -/

section Numbers

variable {b b₁ : UInt8} {c : Char} {n : Nat}

theorem toNat_secondLow (b : UInt8) : (secondLow b).toNat =
    if b.toNat = 0xE0 then 0xA0 else if b.toNat = 0xF0 then 0x90 else 0x80 := by
  simp only [secondLow, apply_ite UInt8.toNat, ← UInt8.toNat_inj, UInt8.reduceToNat]

theorem toNat_secondHigh (b : UInt8) : (secondHigh b).toNat =
    if b.toNat = 0xED then 0x9F else if b.toNat = 0xF4 then 0x8F else 0xBF := by
  simp only [secondHigh, apply_ite UInt8.toNat, ← UInt8.toNat_inj, UInt8.reduceToNat]

/-- Every second byte continues a character, and four lead bytes narrow its range from one side:
those behind which shorter forms, surrogates or too great code points would stand. -/
theorem second_bounds
    (h : (secondLow b).toNat ≤ b₁.toNat ∧ b₁.toNat ≤ (secondHigh b).toNat) :
    (0x80 ≤ b₁.toNat ∧ b₁.toNat ≤ 0xBF) ∧
      (b.toNat = 0xE0 → 0xA0 ≤ b₁.toNat) ∧ (b.toNat = 0xED → b₁.toNat ≤ 0x9F) ∧
      (b.toNat = 0xF0 → 0x90 ≤ b₁.toNat) ∧ (b.toNat = 0xF4 → b₁.toNat ≤ 0x8F) := by
  rw [toNat_secondLow, toNat_secondHigh] at h
  repeat' split at h
  all_goals omega

theorem isContinuation_iff : isContinuation b = true ↔ 0x80 ≤ b.toNat ∧ b.toNat ≤ 0xBF := by
  simp only [isContinuation, Bool.and_eq_true, decide_eq_true_eq, UInt8.le_iff_toNat_le,
    UInt8.reduceToNat]

theorem toNat_ofNat_of_valid (h : n < 0xD800 ∨ 0xDFFF < n ∧ n < 0x110000) :
    (Char.ofNat n).toNat = n := by
  rw [Char.ofNat, dif_pos h]
  rfl

theorem ofNat_eq_of_toNat (c : Char) (h : n = c.toNat) : Char.ofNat n = c := by
  rw [h, Char.ofNat_toNat]

theorem byte_eq_of_toNat (b : UInt8) (h : n = b.toNat) : UInt8.ofNat n = b := by
  rw [h, UInt8.ofNat_toNat]

theorem toNat_byte (h : n < 256) : (UInt8.ofNat n).toNat = n := by
  rw [UInt8.toNat_ofNat', Nat.mod_eq_of_lt h]

end Numbers

/-! ### The encoder by ranges of code points -/

section Encoder

variable {c : Char}

/-- Below `0x80` the byte is the code point. -/
theorem encodeChar_one (h : c.toNat < 0x80) :
    String.utf8EncodeChar c = [UInt8.ofNat c.toNat] := by
  rw [String.utf8EncodeChar]
  exact if_pos (show c.val.toNat ≤ 0x7f from Nat.le_of_lt_succ h)

/-- Two bytes hold eleven bits, five of them in the lead byte. -/
theorem encodeChar_two (h : 0x80 ≤ c.toNat) (h' : c.toNat < 0x800) :
    String.utf8EncodeChar c =
      [UInt8.ofNat (c.toNat / 64 + 0xC0), UInt8.ofNat (c.toNat % 64 + 0x80)] := by
  have hv : c.val.toNat = c.toNat := rfl
  rw [String.utf8EncodeChar]
  simp only [hv]
  rw [if_neg (by omega), if_pos (by omega), Nat.mod_eq_of_lt (by omega : c.toNat / 64 < 0x20)]

/-- Three bytes hold sixteen bits, four of them in the lead byte. -/
theorem encodeChar_three (h : 0x800 ≤ c.toNat) (h' : c.toNat < 0x10000) :
    String.utf8EncodeChar c =
      [UInt8.ofNat (c.toNat / 4096 + 0xE0), UInt8.ofNat (c.toNat / 64 % 64 + 0x80),
        UInt8.ofNat (c.toNat % 64 + 0x80)] := by
  have hv : c.val.toNat = c.toNat := rfl
  rw [String.utf8EncodeChar]
  simp only [hv]
  rw [if_neg (by omega), if_neg (by omega), if_pos (by omega),
    Nat.mod_eq_of_lt (by omega : c.toNat / 4096 < 0x10)]

/-- Four bytes hold twenty-one bits, three of them in the lead byte. -/
theorem encodeChar_four (h : 0x10000 ≤ c.toNat) :
    String.utf8EncodeChar c =
      [UInt8.ofNat (c.toNat / 262144 + 0xF0), UInt8.ofNat (c.toNat / 4096 % 64 + 0x80),
        UInt8.ofNat (c.toNat / 64 % 64 + 0x80), UInt8.ofNat (c.toNat % 64 + 0x80)] := by
  have hv : c.val.toNat = c.toNat := rfl
  -- Code points end below `0x110000`, and so the quotient fits into three bits.
  have hc : c.toNat < 0xD800 ∨ 0xDFFF < c.toNat ∧ c.toNat < 0x110000 := c.valid
  rw [String.utf8EncodeChar]
  simp only [hv]
  rw [if_neg (by omega), if_neg (by omega), if_neg (by omega),
    Nat.mod_eq_of_lt (by omega : c.toNat / 262144 < 0x08)]

/-- **The encoder writes what the table allows.** -/
theorem starts_encode (c : Char) (rest : Bytes) :
    Starts (String.utf8EncodeChar c ++ rest) c rest := by
  have hc : c.toNat < 0xD800 ∨ 0xDFFF < c.toNat ∧ c.toNat < 0x110000 := c.valid
  -- One case for each length; the payloads come out of the bytes as they were put in.
  rcases Nat.lt_or_ge c.toNat 0x80 with h | h
  · have hb : (UInt8.ofNat c.toNat).toNat = c.toNat := toNat_byte (by omega)
    rw [encodeChar_one h]
    exact .one (by omega) (by omega)
  rcases Nat.lt_or_ge c.toNat 0x800 with h' | h'
  · have hb : (UInt8.ofNat (c.toNat / 64 + 0xC0)).toNat = c.toNat / 64 + 0xC0 :=
      toNat_byte (by omega)
    have h₁ : (UInt8.ofNat (c.toNat % 64 + 0x80)).toNat = c.toNat % 64 + 0x80 :=
      toNat_byte (by omega)
    rw [encodeChar_two h h']
    refine .two (by omega) ?_ (by omega)
    rw [toNat_secondLow, toNat_secondHigh, hb, h₁]
    repeat' split
    all_goals omega
  rcases Nat.lt_or_ge c.toNat 0x10000 with h'' | h''
  · have hb : (UInt8.ofNat (c.toNat / 4096 + 0xE0)).toNat = c.toNat / 4096 + 0xE0 :=
      toNat_byte (by omega)
    have h₁ : (UInt8.ofNat (c.toNat / 64 % 64 + 0x80)).toNat = c.toNat / 64 % 64 + 0x80 :=
      toNat_byte (by omega)
    have h₂ : (UInt8.ofNat (c.toNat % 64 + 0x80)).toNat = c.toNat % 64 + 0x80 :=
      toNat_byte (by omega)
    rw [encodeChar_three h' h'']
    refine .three (by omega) ?_ (by omega) (by omega)
    -- The second byte is narrower where shorter forms and surrogates would begin.
    rw [toNat_secondLow, toNat_secondHigh, hb, h₁]
    repeat' split
    all_goals omega
  · have hb : (UInt8.ofNat (c.toNat / 262144 + 0xF0)).toNat = c.toNat / 262144 + 0xF0 :=
      toNat_byte (by omega)
    have h₁ : (UInt8.ofNat (c.toNat / 4096 % 64 + 0x80)).toNat = c.toNat / 4096 % 64 + 0x80 :=
      toNat_byte (by omega)
    have h₂ : (UInt8.ofNat (c.toNat / 64 % 64 + 0x80)).toNat = c.toNat / 64 % 64 + 0x80 :=
      toNat_byte (by omega)
    have h₃ : (UInt8.ofNat (c.toNat % 64 + 0x80)).toNat = c.toNat % 64 + 0x80 :=
      toNat_byte (by omega)
    rw [encodeChar_four h'']
    refine .four (by omega) ?_ (by omega) (by omega) (by omega)
    rw [toNat_secondLow, toNat_secondHigh, hb, h₁]
    repeat' split
    all_goals omega

/-- **The table allows nothing else**: shorter and longer forms of a character are ruled out by
the bounds of the lead byte and of the second one. -/
theorem eq_encode_of_starts {bytes rest : Bytes} (h : Starts bytes c rest) :
    bytes = String.utf8EncodeChar c ++ rest := by
  cases h with
  -- In each case the code point is in the range of its length, and the payload of each byte is
  -- read off it by division.
  | @one b _ _ hb hc =>
    rw [encodeChar_one (by omega), byte_eq_of_toNat b hc]
    rfl
  | @two b b₁ _ _ hb h₁ hc =>
    have h₁ := second_bounds h₁
    rw [encodeChar_two (by omega) (by omega), byte_eq_of_toNat b (by omega),
      byte_eq_of_toNat b₁ (by omega)]
    rfl
  | @three b b₁ b₂ _ _ hb h₁ h₂ hc =>
    -- Behind `0xE0` the second byte is at least `0xA0`: the code point is not below `0x800`.
    have h₁ := second_bounds h₁
    rw [encodeChar_three (by omega) (by omega), byte_eq_of_toNat b (by omega),
      byte_eq_of_toNat b₁ (by omega), byte_eq_of_toNat b₂ (by omega)]
    rfl
  | @four b b₁ b₂ b₃ _ _ hb h₁ h₂ h₃ hc =>
    -- Behind `0xF0` it is at least `0x90`: the code point is not below `0x10000`.
    have h₁ := second_bounds h₁
    rw [encodeChar_four (by omega), byte_eq_of_toNat b (by omega),
      byte_eq_of_toNat b₁ (by omega), byte_eq_of_toNat b₂ (by omega),
      byte_eq_of_toNat b₃ (by omega)]
    rfl

end Encoder

/-! ### The decoder by ranges of bytes -/

section Decoder

variable {b : UInt8} {bs rest bytes : Bytes} {c : Char}

/-- What the decoder takes for a character is in the table. The cases are its branches in their
order, each reading one byte more. -/
theorem starts_of_next (h : next b bs = .char c rest) : Starts (b :: bs) c rest := by
  unfold next payload at h
  simp only [Bool.or_eq_true, decide_eq_true_eq, UInt8.lt_iff_toNat_lt, UInt8.reduceToNat,
    Bool.not_eq_true', ← Bool.not_eq_true, isContinuation_iff] at h
  -- a single byte
  split at h
  · next hb =>
    cases h
    exact .one hb (toNat_ofNat_of_valid (by omega))
  -- a lead byte, and a second byte in its range
  split at h
  · contradiction
  split at h
  · contradiction
  next b₁ bs =>
  split at h
  · contradiction
  next hb h₁ =>
  -- The decoder asks whether the second byte is out of its range.
  have h₁ : (secondLow b).toNat ≤ b₁.toNat ∧ b₁.toNat ≤ (secondHigh b).toNat := by omega
  have h₁' := second_bounds h₁
  split at h
  · cases h
    refine .two (by omega) h₁ ?_
    rw [toNat_ofNat_of_valid (by omega)]
    omega
  -- a third byte
  split at h
  · contradiction
  next b₂ bs =>
  split at h
  · contradiction
  next h₂ =>
  rw [Classical.not_not] at h₂
  split at h
  · cases h
    refine .three (by omega) h₁ h₂ ?_
    rw [toNat_ofNat_of_valid (by omega)]
    omega
  -- a fourth byte
  split at h
  · contradiction
  next b₃ bs =>
  split at h
  · contradiction
  next h₃ =>
  rw [Classical.not_not] at h₃
  cases h
  refine .four (by omega) h₁ h₂ h₃ ?_
  rw [toNat_ofNat_of_valid (by omega)]
  omega

/-- What is in the table, the decoder takes for the character that is given there. -/
theorem next_of_starts (h : Starts (b :: bs) c rest) : next b bs = .char c rest := by
  unfold next payload
  simp only [Bool.or_eq_true, decide_eq_true_eq, UInt8.lt_iff_toNat_lt, UInt8.reduceToNat,
    Bool.not_eq_true', ← Bool.not_eq_true, isContinuation_iff]
  -- The bounds of each constructor pass the tests before its branch and fail none in it.
  cases h with
  | one hb hc => rw [if_pos hb, ofNat_eq_of_toNat c hc.symm]
  | two hb h₁ hc =>
    have h₁' := second_bounds h₁
    rw [if_neg (by omega), if_neg (by omega)]
    simp only
    rw [if_neg (by omega), if_pos (by omega), ofNat_eq_of_toNat c (by omega)]
  | three hb h₁ h₂ hc =>
    have h₁' := second_bounds h₁
    rw [if_neg (by omega), if_neg (by omega)]
    simp only
    rw [if_neg (by omega), if_neg (by omega), if_neg (by omega), if_pos (by omega),
      ofNat_eq_of_toNat c (by omega)]
  | four hb h₁ h₂ h₃ hc =>
    have h₁' := second_bounds h₁
    rw [if_neg (by omega), if_neg (by omega)]
    simp only
    rw [if_neg (by omega), if_neg (by omega), if_neg (by omega), if_neg (by omega),
      if_neg (by omega), ofNat_eq_of_toNat c (by omega)]

/-- **The decoder reads what the encoder writes**, and finds a character nowhere else. -/
theorem next_eq_char_iff :
    next b bs = .char c rest ↔ b :: bs = String.utf8EncodeChar c ++ rest := by
  constructor
  · exact fun h => eq_encode_of_starts (starts_of_next h)
  · intro h
    refine next_of_starts ?_
    rw [h]
    exact starts_encode c rest

/-! ### Whole texts -/

variable {cs done : List Char} {index : Nat}

theorem exists_cons_of_encode (c : Char) (rest : Bytes) :
    ∃ b bs, String.utf8EncodeChar c ++ rest = b :: bs ∧ next b bs = .char c rest := by
  cases h : String.utf8EncodeChar c ++ rest with
  | nil => exact absurd (List.append_eq_nil_iff.1 h).1 String.utf8EncodeChar_ne_nil
  | cons b bs => exact ⟨b, bs, rfl, next_eq_char_iff.2 h.symm⟩

/-- The decoder goes through the bytes of a text from character to character. -/
theorem decodeFrom_encode (done : List Char) (index : Nat) (cs : List Char) :
    decodeFrom done index (encode cs) = .ok (done.reverse ++ cs) := by
  induction cs generalizing done index with
  | nil => rw [encode_nil, decodeFrom, List.append_nil]
  | cons c cs ih =>
    obtain ⟨b, bs, hb, hnext⟩ := exists_cons_of_encode c (encode cs)
    -- The other two outcomes of `next` are ruled out by `hnext`.
    rw [encode_cons, hb, decodeFrom]
    split
    · next c' rest h =>
      rw [hnext] at h
      cases h
      rw [ih, List.reverse_cons, List.append_assoc]
      rfl
    · next h => rw [hnext] at h; contradiction
    · next h => rw [hnext] at h; contradiction

/-- Conversely, bytes that are decoded to the end are those of the characters found. -/
theorem eq_encode_of_decodeFrom (h : decodeFrom done index bytes = .ok cs) :
    ∃ ds, cs = done.reverse ++ ds ∧ bytes = encode ds := by
  induction done, index, bytes using decodeFrom.induct with
  -- The cases are those of the decoder: no byte is left, a character, a faulty one, one that is
  -- cut off. Only the first two of them end well.
  | case1 done index =>
    rw [decodeFrom] at h
    cases h
    exact ⟨[], (List.append_nil _).symm, rfl⟩
  | case2 done index b bs c rest hnext ih =>
    rw [decodeFrom] at h
    split at h
    · next c' rest' h' =>
      rw [hnext] at h'
      cases h'
      obtain ⟨ds, rfl, rfl⟩ := ih h
      refine ⟨c :: ds, ?_, next_eq_char_iff.1 hnext⟩
      rw [List.reverse_cons, List.append_assoc]
      rfl
    · contradiction
    · contradiction
  | case3 done index b bs length hnext =>
    rw [decodeFrom] at h
    split at h
    · next h' => rw [hnext] at h'; contradiction
    · contradiction
    · contradiction
  | case4 done index b bs hnext =>
    rw [decodeFrom] at h
    split at h
    · next h' => rw [hnext] at h'; contradiction
    · contradiction
    · contradiction

/-- **The decoder accepts the bytes of texts**, and no others. -/
theorem decode_eq_ok_iff : decode bytes = .ok cs ↔ bytes = encode cs := by
  constructor
  · intro h
    obtain ⟨ds, rfl, rfl⟩ := eq_encode_of_decodeFrom h
    rfl
  · rintro rfl
    exact decodeFrom_encode [] 0 cs

/-- In the bytes of a text the lossy decoder has nothing to replace. -/
theorem decodeLossy_encode (cs : List Char) : decodeLossy (encode cs) = cs := by
  induction cs with
  | nil => rw [encode_nil, decodeLossy]
  | cons c cs ih =>
    obtain ⟨b, bs, hb, hnext⟩ := exists_cons_of_encode c (encode cs)
    rw [encode_cons, hb, decodeLossy]
    split
    · next h =>
      rw [hnext] at h
      cases h
      rw [ih]
    · next h => rw [hnext] at h; contradiction
    · next h => rw [hnext] at h; contradiction

/-- **Nothing is lost where no replacement character stands**: then the bytes are those of
the text. -/
theorem eq_encode_of_decodeLossy (h : '\uFFFD' ∉ decodeLossy bytes) :
    bytes = encode (decodeLossy bytes) := by
  induction bytes using decodeLossy.induct with
  | case1 => rw [decodeLossy]; rfl
  | case2 b bs c rest hnext ih =>
    have hcons : decodeLossy (b :: bs) = c :: decodeLossy rest := by
      rw [decodeLossy]
      split
      · next h' => rw [hnext] at h'; cases h'; rfl
      · next h' => rw [hnext] at h'; contradiction
      · next h' => rw [hnext] at h'; contradiction
    rw [hcons] at h ⊢
    rw [encode_cons, ← ih (fun hm => h (List.mem_cons_of_mem _ hm))]
    exact next_eq_char_iff.1 hnext
  | case3 b bs length hnext ih =>
    -- A fault leaves a replacement character in front.
    refine absurd ?_ h
    rw [decodeLossy]
    split
    · next h' => rw [hnext] at h'; contradiction
    · exact List.mem_cons_self
    · exact List.mem_cons_self
  | case4 b bs hnext =>
    -- So does a character that the end cuts off.
    refine absurd ?_ h
    rw [decodeLossy]
    split
    · next h' => rw [hnext] at h'; contradiction
    · exact List.mem_cons_self
    · exact List.mem_cons_self

end Decoder

end TinyAsm.Utf8
