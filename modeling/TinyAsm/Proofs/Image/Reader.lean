import TinyAsm.Image.Reader
import TinyAsm.Proofs.Except
import TinyAsm.Proofs.Image.Layout
import TinyAsm.Proofs.Text.Utf8

/-!
# Reading undoes writing, and nothing else

A reader is exact for a way of writing if it succeeds on what was written, with any bytes
behind it, and on nothing else. Since this is one equivalence (`Reader.Undoes`), it gives both
that an image is read back and that no other bytes are read as one.

Each reader of the body is exact, and a larger one because its parts are:

* `undoes_number`, `undoes_word`, `undoes_text` — the parts with bytes of their own;
* `Undoes.run_map_iff`, `run_map₂_iff`, `run_map₃_iff` — one, two or three parts in a row;
* `Undoes.sequence` — a list of parts, by induction on their number;
* `undoes_alternative` — a tag and the parts it stands for;
* `undoes_body` — the instructions and the label entries of an image.
-/

namespace TinyAsm.Image

open Utf8 (Bytes)

namespace Reader

/-- **The reader undoes the writing of values that fit**: it succeeds exactly on the bytes
of such a value, whatever comes after them. -/
def Undoes {α : Type} (r : Reader α) (fits : α → Prop) (write : α → Bytes) : Prop :=
  ∀ (bytes : Bytes) (x : α) (rest : Bytes),
    r.run bytes = .ok (x, rest) ↔ fits x ∧ bytes = write x ++ rest

section Combine

variable {α β γ δ : Type} {r : Reader α} {r₂ : Reader β} {r₃ : Reader γ} {bytes rest : Bytes}
  {fits : α → Prop} {fits₂ : β → Prop} {fits₃ : γ → Prop}
  {write : α → Bytes} {write₂ : β → Bytes} {write₃ : γ → Bytes}

/-! ### Parts in a row -/

/-- The second reader starts where the first one stopped. -/
theorem run_bind_eq_ok_iff {f : α → Reader β} {y : β} :
    (r >>= f).run bytes = .ok (y, rest) ↔
      ∃ x mid, r.run bytes = .ok (x, mid) ∧ (f x).run mid = .ok (y, rest) := by
  rw [StateT.run_bind, Except.bind_eq_ok_iff]
  constructor
  · rintro ⟨⟨x, mid⟩, h, h'⟩
    exact ⟨x, mid, h, h'⟩
  · rintro ⟨x, mid, h, h'⟩
    exact ⟨(x, mid), h, h'⟩

theorem run_pure_eq_ok_iff {x y : α} :
    (pure x : Reader α).run bytes = .ok (y, rest) ↔ x = y ∧ bytes = rest := by
  rw [StateT.run_pure, Except.pure_eq_ok_iff, Prod.mk.injEq]

/-- A reader that undoes the writing of `x`, followed by one that is known at `x`. -/
theorem Undoes.run_bind_iff (h : Undoes r fits write) {f : α → Reader β} {y : β} :
    (r >>= f).run bytes = .ok (y, rest) ↔
      ∃ x mid, fits x ∧ bytes = write x ++ mid ∧ (f x).run mid = .ok (y, rest) := by
  rw [run_bind_eq_ok_iff]
  constructor
  · rintro ⟨x, mid, hx, hf⟩
    obtain ⟨hfits, hbytes⟩ := (h _ _ _).1 hx
    exact ⟨x, mid, hfits, hbytes, hf⟩
  · rintro ⟨x, mid, hfits, hbytes, hf⟩
    exact ⟨x, mid, (h _ _ _).2 ⟨hfits, hbytes⟩, hf⟩

/-- One part and what is made of it. -/
theorem Undoes.run_map_iff (h : Undoes r fits write) {f : α → β} {y : β} :
    StateT.run (do return f (← r)) bytes = .ok (y, rest) ↔
      ∃ x, fits x ∧ f x = y ∧ bytes = write x ++ rest := by
  rw [h.run_bind_iff]
  constructor
  · rintro ⟨x, mid, hx, rfl, hf⟩
    obtain ⟨rfl, rfl⟩ := run_pure_eq_ok_iff.1 hf
    exact ⟨x, hx, rfl, rfl⟩
  · rintro ⟨x, hx, rfl, rfl⟩
    exact ⟨x, rest, hx, rfl, rfl⟩

/-- Two parts in a row, in the order in which they are written. -/
theorem Undoes.run_map₂_iff (h : Undoes r fits write) (h₂ : Undoes r₂ fits₂ write₂)
    {f : α → β → γ} {z : γ} :
    StateT.run (do return f (← r) (← r₂)) bytes = .ok (z, rest) ↔
      ∃ x y, fits x ∧ fits₂ y ∧ f x y = z ∧ bytes = write x ++ write₂ y ++ rest := by
  rw [h.run_bind_iff]
  constructor
  · rintro ⟨x, mid, hx, rfl, hf⟩
    obtain ⟨y, hy, rfl, rfl⟩ := h₂.run_map_iff.1 hf
    exact ⟨x, y, hx, hy, rfl, (List.append_assoc ..).symm⟩
  · rintro ⟨x, y, hx, hy, rfl, rfl⟩
    refine ⟨x, write₂ y ++ rest, hx, List.append_assoc .., ?_⟩
    exact h₂.run_map_iff.2 ⟨y, hy, rfl, rfl⟩

theorem Undoes.run_map₃_iff (h : Undoes r fits write) (h₂ : Undoes r₂ fits₂ write₂)
    (h₃ : Undoes r₃ fits₃ write₃) {f : α → β → γ → δ} {u : δ} :
    StateT.run (do return f (← r) (← r₂) (← r₃)) bytes = .ok (u, rest) ↔
      ∃ x y z, fits x ∧ fits₂ y ∧ fits₃ z ∧ f x y z = u ∧
        bytes = write x ++ write₂ y ++ write₃ z ++ rest := by
  rw [h.run_bind_iff]
  constructor
  · rintro ⟨x, mid, hx, rfl, hf⟩
    obtain ⟨y, z, hy, hz, rfl, rfl⟩ := (h₂.run_map₂_iff h₃).1 hf
    exact ⟨x, y, z, hx, hy, hz, rfl, by simp only [List.append_assoc]⟩
  · rintro ⟨x, y, z, hx, hy, hz, rfl, rfl⟩
    refine ⟨x, write₂ y ++ write₃ z ++ rest, hx, by simp only [List.append_assoc], ?_⟩
    exact (h₂.run_map₂_iff h₃).2 ⟨y, z, hy, hz, rfl, rfl⟩

/-- Bytes that a reader undoes say what was written and where it ends. -/
theorem Undoes.inj (h : Undoes r fits write) {x x' : α} {rest' : Bytes} (hx : fits x)
    (hx' : fits x') (heq : write x ++ rest = write x' ++ rest') : x = x' ∧ rest = rest' := by
  -- The reader gives one result for the one sequence of bytes.
  have hrun : r.run (write x ++ rest) = .ok (x, rest) := (h _ _ _).2 ⟨hx, rfl⟩
  rw [(h _ _ _).2 ⟨hx', heq⟩] at hrun
  cases hrun
  exact ⟨rfl, rfl⟩

/-! ### Lists -/

/-- **As many parts as are asked for**, each of them undone by its reader. -/
theorem Undoes.times (h : Undoes r fits write) (done : List α) (n : Nat) {xs : List α} :
    (times r done n).run bytes = .ok (xs, rest) ↔
      ∃ ys, ys.length = n ∧ (∀ y ∈ ys, fits y) ∧ xs = done.reverse ++ ys ∧
        bytes = ys.flatMap write ++ rest := by
  -- The values in `done` were read already; what is still to be read is a list of length `n`.
  induction n generalizing done bytes with
  | zero =>
    rw [Reader.times, run_pure_eq_ok_iff]
    constructor
    · rintro ⟨rfl, rfl⟩
      exact ⟨[], rfl, nofun, (List.append_nil _).symm, rfl⟩
    · rintro ⟨ys, hlen, -, rfl, rfl⟩
      obtain rfl := List.length_eq_zero_iff.1 hlen
      exact ⟨(List.append_nil _).symm, rfl⟩
  | succ n ih =>
    -- One part is read and put in front of `done`; the others are read behind it.
    rw [Reader.times, h.run_bind_iff]
    constructor
    · rintro ⟨y, mid, hy, rfl, hr⟩
      obtain ⟨ys, rfl, hys, rfl, rfl⟩ := (ih _).1 hr
      refine ⟨y :: ys, rfl, List.forall_mem_cons.2 ⟨hy, hys⟩, ?_, ?_⟩
      · rw [List.reverse_cons, List.append_assoc]
        rfl
      · rw [List.flatMap_cons, List.append_assoc]
    · rintro ⟨ys, hlen, hys, rfl, rfl⟩
      obtain ⟨y, ys, rfl⟩ := List.exists_cons_of_length_eq_add_one hlen
      obtain ⟨hy, hys⟩ := List.forall_mem_cons.1 hys
      refine ⟨y, ys.flatMap write ++ rest, hy, ?_, (ih _).2 ⟨ys, ?_, hys, ?_, rfl⟩⟩
      · rw [List.flatMap_cons, List.append_assoc]
      · exact Nat.succ.inj hlen
      · rw [List.reverse_cons, List.append_assoc]
        rfl

end Combine

/-! ### Numbers and texts -/

/-- A field is read if all of its bytes are there. -/
theorem run_take_eq_ok_iff {n : Nat} {bytes front rest : Bytes} :
    (take n).run bytes = .ok (front, rest) ↔ front.length = n ∧ bytes = front ++ rest := by
  -- A field that the end cuts off is shorter than what was asked for.
  have hrun : (take n).run bytes =
      if (bytes.take n).length = n then .ok (bytes.take n, bytes.drop n)
      else .error .endOfBytes := rfl
  rw [hrun]
  constructor
  · intro h
    split at h
    · next hlen =>
      cases h
      exact ⟨hlen, (List.take_append_drop n bytes).symm⟩
    · contradiction
  · rintro ⟨rfl, rfl⟩
    rw [List.take_left, List.drop_left, if_pos rfl]

/-- **A number** is undone by its bytes if there are enough of them. -/
theorem undoes_number (width : Nat) :
    Undoes (number width) (· < Nat.pow 256 width) (littleEndian width) := by
  intro bytes n rest
  rw [number, run_bind_eq_ok_iff]
  constructor
  · rintro ⟨front, mid, htake, hn⟩
    obtain ⟨rfl, rfl⟩ := run_take_eq_ok_iff.1 htake
    obtain ⟨rfl, rfl⟩ := run_pure_eq_ok_iff.1 hn
    exact ⟨ofLittleEndian_lt front, by rw [littleEndian_ofLittleEndian]⟩
  · rintro ⟨hn, rfl⟩
    refine ⟨littleEndian width n, rest, run_take_eq_ok_iff.2 ⟨?_, rfl⟩, ?_⟩
    · exact length_littleEndian width n
    · exact run_pure_eq_ok_iff.2 ⟨ofLittleEndian_littleEndian hn, rfl⟩

theorem undoes_count : Undoes Reader.count (· < lengthCount) Image.count :=
  undoes_number 8

/-- **A word** is undone whatever its eight bytes are: each of them makes up a word. -/
theorem undoes_word : Undoes Reader.word (fun _ => True) Image.word := by
  intro bytes w rest
  rw [Reader.word, (undoes_number 8).run_map_iff]
  constructor
  · rintro ⟨n, hn, rfl, rfl⟩
    -- Going through the signed word loses no bit.
    have hback : (UInt64.ofNat n).toInt64.toUInt64.toNat = n := UInt64.toNat_ofNat_of_lt' hn
    exact ⟨trivial, by rw [Image.word, hback]⟩
  · rintro ⟨-, rfl⟩
    refine ⟨w.toUInt64.toNat, w.toUInt64.toNat_lt, ?_, rfl⟩
    rw [UInt64.ofNat_toNat]
    rfl

/-- **A text** is undone by its length and its bytes. Bytes that are no UTF-8 are not read, and so
no two byte sequences are read as one text. -/
theorem undoes_text : Undoes Reader.text TextFits Image.text := by
  intro bytes s rest
  rw [Reader.text, undoes_count.run_bind_iff]
  constructor
  · rintro ⟨n, mid, hn, rfl, hrest⟩
    obtain ⟨front, mid', htake, h⟩ := run_bind_eq_ok_iff.1 hrest
    obtain ⟨rfl, rfl⟩ := run_take_eq_ok_iff.1 htake
    split at h
    · next cs hcs =>
      -- the bytes are those of the text, since no others would have been accepted
      obtain rfl := Utf8.decode_eq_ok_iff.1 hcs
      obtain ⟨rfl, rfl⟩ := run_pure_eq_ok_iff.1 h
      have hlen := length_encode_toList (String.ofList cs)
      rw [String.toList_ofList] at hlen
      refine ⟨?_, ?_⟩
      · rwa [TextFits, ← hlen]
      · rw [Image.text, String.toList_ofList, List.append_assoc]
    · contradiction
  · rintro ⟨hs, rfl⟩
    have hlen := length_encode_toList s
    refine ⟨(Utf8.encode s.toList).length, Utf8.encode s.toList ++ rest, by rwa [hlen],
      List.append_assoc .., ?_⟩
    -- The length is read, then the bytes, and these are decoded as the text.
    refine run_bind_eq_ok_iff.2 ⟨_, rest, run_take_eq_ok_iff.2 ⟨rfl, rfl⟩, ?_⟩
    rw [Utf8.decode_eq_ok_iff.2 rfl]
    exact run_pure_eq_ok_iff.2 ⟨String.ofList_toList, rfl⟩

/-- **A list** is undone if its elements are. -/
theorem Undoes.sequence {α : Type} {r : Reader α} {fits : α → Prop} {write : α → Bytes}
    (h : Undoes r fits write) :
    Undoes (sequence r) (ListFits fits) (Image.sequence write) := by
  intro bytes xs rest
  rw [Reader.sequence, undoes_count.run_bind_iff]
  constructor
  · -- The length that was read is that of the list.
    rintro ⟨n, mid, hn, rfl, hr⟩
    obtain ⟨ys, rfl, hys, rfl, rfl⟩ := (h.times [] _).1 hr
    exact ⟨⟨hn, hys⟩, (List.append_assoc ..).symm⟩
  · rintro ⟨⟨hlen, hxs⟩, rfl⟩
    refine ⟨xs.length, xs.flatMap write ++ rest, hlen, List.append_assoc .., ?_⟩
    exact (h.times [] _).2 ⟨xs, rfl, hxs, rfl, rfl⟩

/-! ### Alternatives -/

section Alternative

variable {α : Type} {readers : List (Reader α)} {fits : α → Prop} {write : α → Bytes}

/-- A tag has four bytes, and its reader goes on behind them. -/
theorem run_alternative_eq_ok_iff {bytes rest : Bytes} {x : α} :
    (alternative readers).run bytes = .ok (x, rest) ↔
      ∃ k r mid, readers[k]? = some r ∧ k < Nat.pow 256 4 ∧ bytes = tag k ++ mid ∧
        r.run mid = .ok (x, rest) := by
  rw [alternative, (undoes_number 4).run_bind_iff]
  constructor
  · rintro ⟨k, mid, hk, rfl, h⟩
    split at h
    · next r hr => exact ⟨k, r, mid, hr, hk, rfl, h⟩
    · contradiction
  · rintro ⟨k, r, mid, hr, hk, rfl, h⟩
    refine ⟨k, mid, hk, rfl, ?_⟩
    rw [hr]
    exact h

/-- **A choice among readers** undoes a way of writing if each reader finds only values that
are written with its tag, and each value that fits is found by the reader of its tag. -/
theorem undoes_alternative
    (sound : ∀ k r, readers[k]? = some r → ∀ bytes x rest, r.run bytes = .ok (x, rest) →
      fits x ∧ tag k ++ bytes = write x ++ rest)
    (complete : ∀ x, fits x → ∃ k r bytes, readers[k]? = some r ∧ k < Nat.pow 256 4 ∧
      write x = tag k ++ bytes ∧ ∀ rest, r.run (bytes ++ rest) = .ok (x, rest)) :
    Undoes (alternative readers) fits write := by
  intro bytes x rest
  rw [run_alternative_eq_ok_iff]
  constructor
  · rintro ⟨k, r, mid, hr, -, rfl, h⟩
    exact sound k r hr mid x rest h
  · rintro ⟨hx, rfl⟩
    obtain ⟨k, r, bytes, hr, hk, hwrite, hrun⟩ := complete x hx
    refine ⟨k, r, bytes ++ rest, hr, hk, ?_, hrun rest⟩
    rw [hwrite, List.append_assoc]

/-- The values of a list without repetitions, each with its place as the tag. -/
theorem undoes_place [BEq α] [LawfulBEq α] {all : List α} (hall : ∀ x, x ∈ all)
    (hdup : all.Nodup) (hlen : all.length ≤ Nat.pow 256 4) :
    Undoes (alternative (all.map pure)) (fun _ => True) fun x => tag (all.idxOf x) := by
  refine undoes_alternative (fun k r hr bytes x rest h => ?_) (fun x _ => ?_)
  · -- without repetitions, the place of what stands at `k` is `k` itself
    rw [List.getElem?_map, Option.map_eq_some_iff] at hr
    obtain ⟨y, hy, rfl⟩ := hr
    obtain ⟨rfl, rfl⟩ := run_pure_eq_ok_iff.1 h
    obtain ⟨hk, rfl⟩ := List.getElem?_eq_some_iff.1 hy
    rw [hdup.idxOf_getElem]
    exact ⟨trivial, rfl⟩
  · -- every value has a place, and it is below the number of tags
    have hx : all.idxOf x < all.length := List.idxOf_lt_length_of_mem (hall x)
    refine ⟨all.idxOf x, pure x, [], ?_, Nat.lt_of_lt_of_le hx hlen, (List.append_nil _).symm,
      fun rest => run_pure_eq_ok_iff.2 ⟨rfl, rfl⟩⟩
    rw [List.getElem?_map, List.getElem?_eq_getElem hx, List.getElem_idxOf hx]
    rfl

end Alternative

/-! ### Instructions -/

theorem undoes_arithOp : Undoes Reader.arithOp (fun _ => True) Image.arithOp :=
  undoes_place ArithOp.mem_all (by decide) (by decide)

theorem undoes_condition : Undoes Reader.condition (fun _ => True) Image.condition :=
  undoes_place Condition.mem_all (by decide) (by decide)

/-- A literal has the tag `0` and a register the tag `1`. -/
theorem undoes_operand : Undoes Reader.operand Operand.Fits Image.operand := by
  refine undoes_alternative ?sound ?complete
  case sound =>
    intro k r hr bytes x rest h
    -- No other tag has a reader.
    match k, hr with
    | 0, rfl =>
      obtain ⟨value, -, rfl, rfl⟩ := undoes_word.run_map_iff.1 h
      exact ⟨trivial, (List.append_assoc ..).symm⟩
    | 1, rfl =>
      obtain ⟨name, hname, rfl, rfl⟩ := undoes_text.run_map_iff.1 h
      exact ⟨hname, (List.append_assoc ..).symm⟩
  case complete =>
    intro x hx
    cases x with
    | literal value =>
      exact ⟨0, _, _, rfl, by decide, rfl, fun rest =>
        undoes_word.run_map_iff.2 ⟨value, trivial, rfl, rfl⟩⟩
    | register name =>
      exact ⟨1, _, _, rfl, by decide, rfl, fun rest =>
        undoes_text.run_map_iff.2 ⟨name, hx, rfl, rfl⟩⟩

/-- A text has the tag `0` and an operand the tag `1`. -/
theorem undoes_messagePart :
    Undoes Reader.messagePart MessagePart.Fits Image.messagePart := by
  refine undoes_alternative ?sound ?complete
  case sound =>
    intro k r hr bytes x rest h
    -- No tag from `2` on has a reader.
    match k, hr with
    | 0, rfl =>
      obtain ⟨content, hcontent, rfl, rfl⟩ := undoes_text.run_map_iff.1 h
      exact ⟨hcontent, (List.append_assoc ..).symm⟩
    | 1, rfl =>
      obtain ⟨operand, hoperand, rfl, rfl⟩ := undoes_operand.run_map_iff.1 h
      exact ⟨hoperand, (List.append_assoc ..).symm⟩
  case complete =>
    intro x hx
    cases x with
    | text content =>
      exact ⟨0, _, _, rfl, by decide, rfl, fun rest =>
        undoes_text.run_map_iff.2 ⟨content, hx, rfl, rfl⟩⟩
    | value operand =>
      exact ⟨1, _, _, rfl, by decide, rfl, fun rest =>
        undoes_operand.run_map_iff.2 ⟨operand, hx, rfl, rfl⟩⟩

/-- **An instruction** is undone. Its tag is the place of its constructor, and there is one case
for each tag in either direction. -/
theorem undoes_instruction :
    Undoes Reader.instruction Instruction.Fits Image.instruction := by
  refine undoes_alternative ?sound ?complete
  case sound =>
    intro k r hr bytes x rest h
    -- No tag from `11` on has a reader.
    match k, hr with
    | 0, rfl =>
      obtain ⟨target, source, ht, hs, rfl, rfl⟩ := (undoes_text.run_map₂_iff undoes_operand).1 h
      exact ⟨⟨ht, hs⟩, by simp only [Image.instruction, List.append_assoc]⟩
    | 1, rfl =>
      obtain ⟨target, ht, rfl, rfl⟩ := undoes_text.run_map_iff.1 h
      exact ⟨ht, (List.append_assoc ..).symm⟩
    | 2, rfl =>
      obtain ⟨target, ht, rfl, rfl⟩ := undoes_text.run_map_iff.1 h
      exact ⟨ht, (List.append_assoc ..).symm⟩
    | 3, rfl =>
      obtain ⟨op, target, source, -, ht, hs, rfl, rfl⟩ :=
        (undoes_arithOp.run_map₃_iff undoes_text undoes_operand).1 h
      exact ⟨⟨ht, hs⟩, by simp only [Image.instruction, List.append_assoc]⟩
    | 4, rfl =>
      obtain ⟨left, right, hl, hr, rfl, rfl⟩ :=
        (undoes_operand.run_map₂_iff undoes_operand).1 h
      exact ⟨⟨hl, hr⟩, by simp only [Image.instruction, List.append_assoc]⟩
    | 5, rfl =>
      obtain ⟨label, hl, rfl, rfl⟩ := undoes_text.run_map_iff.1 h
      exact ⟨hl, (List.append_assoc ..).symm⟩
    | 6, rfl =>
      obtain ⟨condition, label, -, hl, rfl, rfl⟩ :=
        (undoes_condition.run_map₂_iff undoes_text).1 h
      exact ⟨hl, by simp only [Image.instruction, List.append_assoc]⟩
    | 7, rfl =>
      obtain ⟨label, hl, rfl, rfl⟩ := undoes_text.run_map_iff.1 h
      exact ⟨hl, (List.append_assoc ..).symm⟩
    | 8, rfl =>
      obtain ⟨rfl, rfl⟩ := run_pure_eq_ok_iff.1 h
      exact ⟨trivial, rfl⟩
    | 9, rfl =>
      obtain ⟨parts, hparts, rfl, rfl⟩ := undoes_messagePart.sequence.run_map_iff.1 h
      exact ⟨hparts, (List.append_assoc ..).symm⟩
    | 10, rfl =>
      obtain ⟨rfl, rfl⟩ := run_pure_eq_ok_iff.1 h
      exact ⟨trivial, rfl⟩
  case complete =>
    intro x hx
    -- The bytes of each constructor are named where the layout does not show them as a tag and a
    -- rest.
    cases x with
    | mov target source =>
      refine ⟨0, _, _, rfl, by decide, List.append_assoc .., fun rest => ?_⟩
      exact (undoes_text.run_map₂_iff undoes_operand).2 ⟨target, source, hx.1, hx.2, rfl, rfl⟩
    | inc target =>
      refine ⟨1, _, _, rfl, by decide, rfl, fun rest => ?_⟩
      exact undoes_text.run_map_iff.2 ⟨target, hx, rfl, rfl⟩
    | dec target =>
      refine ⟨2, _, _, rfl, by decide, rfl, fun rest => ?_⟩
      exact undoes_text.run_map_iff.2 ⟨target, hx, rfl, rfl⟩
    | arith op target source =>
      refine ⟨3, _, Image.arithOp op ++ Image.text target ++ Image.operand source, rfl,
        by decide, ?_, fun rest => ?_⟩
      · simp only [Image.instruction, List.append_assoc]
      · exact (undoes_arithOp.run_map₃_iff undoes_text undoes_operand).2
          ⟨op, target, source, trivial, hx.1, hx.2, rfl, rfl⟩
    | cmp left right =>
      refine ⟨4, _, _, rfl, by decide, List.append_assoc .., fun rest => ?_⟩
      exact (undoes_operand.run_map₂_iff undoes_operand).2 ⟨left, right, hx.1, hx.2, rfl, rfl⟩
    | jmp label =>
      refine ⟨5, _, _, rfl, by decide, rfl, fun rest => ?_⟩
      exact undoes_text.run_map_iff.2 ⟨label, hx, rfl, rfl⟩
    | jumpIf condition label =>
      refine ⟨6, _, _, rfl, by decide, List.append_assoc .., fun rest => ?_⟩
      exact (undoes_condition.run_map₂_iff undoes_text).2
        ⟨condition, label, trivial, hx, rfl, rfl⟩
    | call label =>
      refine ⟨7, _, _, rfl, by decide, rfl, fun rest => ?_⟩
      exact undoes_text.run_map_iff.2 ⟨label, hx, rfl, rfl⟩
    | ret =>
      refine ⟨8, _, [], rfl, by decide, (List.append_nil _).symm, fun rest => ?_⟩
      exact run_pure_eq_ok_iff.2 ⟨rfl, rfl⟩
    | msg parts =>
      refine ⟨9, _, _, rfl, by decide, rfl, fun rest => ?_⟩
      exact undoes_messagePart.sequence.run_map_iff.2 ⟨parts, hx, rfl, rfl⟩
    | halt =>
      refine ⟨10, _, [], rfl, by decide, (List.append_nil _).symm, fun rest => ?_⟩
      exact run_pure_eq_ok_iff.2 ⟨rfl, rfl⟩

theorem undoes_entry : Undoes Reader.entry EntryFits Image.entry := by
  intro bytes e rest
  rw [Reader.entry, undoes_text.run_map₂_iff undoes_word]
  constructor
  · rintro ⟨name, position, hname, -, rfl, rfl⟩
    exact ⟨hname, rfl⟩
  · rintro ⟨hname, rfl⟩
    exact ⟨e.1, e.2, hname, trivial, rfl, rfl⟩

/-- The parts of a body can be counted. -/
def BodyFits (x : List Instruction × List (String × Word)) : Prop :=
  ListFits Instruction.Fits x.1 ∧ ListFits EntryFits x.2

/-- **The body of an image** is read back as what it was written from, and nothing else is
read as a body. -/
theorem undoes_body : Undoes Reader.body BodyFits fun x => Image.body x.1 x.2 := by
  intro bytes x rest
  rw [Reader.body, undoes_instruction.sequence.run_map₂_iff undoes_entry.sequence]
  constructor
  · rintro ⟨instructions, entries, hi, he, rfl, rfl⟩
    exact ⟨⟨hi, he⟩, rfl⟩
  · rintro ⟨⟨hi, he⟩, rfl⟩
    exact ⟨x.1, x.2, hi, he, rfl, rfl⟩

end Reader

end TinyAsm.Image
