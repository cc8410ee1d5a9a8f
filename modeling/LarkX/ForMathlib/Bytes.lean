import Mathlib.Data.List.TakeDrop
import Mathlib.Algebra.Group.Nat.Defs
import Mathlib.Tactic.Common

/-!
# Bytes and buffers

A buffer is a list of bytes. Reading and writing at a place are partial: they have no result where
they would leave the buffer. `le32` writes a 32-bit number, least significant byte first.
-/

namespace LarkX

variable {buf bytes : List UInt8} {i n : ℕ}

/-- `n` bytes from place `i` on, where there are as many. -/
def readAt (buf : List UInt8) (i n : ℕ) : Option (List UInt8) :=
  if i + n ≤ buf.length then some ((buf.drop i).take n) else none

/-- The buffer with the bytes written from place `i` on, where they fit. -/
def writeAt (buf : List UInt8) (i : ℕ) (bytes : List UInt8) : Option (List UInt8) :=
  if i + bytes.length ≤ buf.length then
    some (buf.take i ++ bytes ++ buf.drop (i + bytes.length))
  else none

/-- `std::vector::resize`: the bytes that are new are zero. -/
def resize (buf : List UInt8) (n : ℕ) : List UInt8 :=
  buf.take n ++ List.replicate (n - buf.length) 0

theorem readAt_eq_none : readAt buf i n = none ↔ buf.length < i + n := by
  unfold readAt
  split
  · exact ⟨nofun, fun h => absurd ‹_› (Nat.not_le.2 h)⟩
  · exact ⟨fun _ => Nat.not_le.1 ‹_›, fun _ => rfl⟩

theorem readAt_eq_some : readAt buf i n = some bytes ↔
    i + n ≤ buf.length ∧ (buf.drop i).take n = bytes := by
  unfold readAt
  split
  · exact ⟨fun h => ⟨‹_›, Option.some.inj h⟩, fun h => congrArg some h.2⟩
  · exact ⟨nofun, fun h => absurd h.1 ‹_›⟩

/-- Writing over the whole of a buffer, in two parts. -/
theorem writeAt_zero (h : bytes.length ≤ buf.length) :
    writeAt buf 0 bytes = some (bytes ++ buf.drop bytes.length) := by
  rw [writeAt, Nat.zero_add, if_pos h, List.take_zero, List.nil_append]

theorem writeAt_append (front : List UInt8) {rest : List UInt8} (h : bytes.length ≤ rest.length) :
    writeAt (front ++ rest) front.length bytes =
      some (front ++ bytes ++ rest.drop bytes.length) := by
  have hle : front.length + bytes.length ≤ (front ++ rest).length := by
    rw [List.length_append]
    exact Nat.add_le_add_left h _
  rw [writeAt, if_pos hle, List.take_left, List.drop_append]
  simp

@[simp]
theorem length_resize (buf : List UInt8) (n : ℕ) : (resize buf n).length = n := by
  rw [resize, List.length_append, List.length_take, List.length_replicate]
  omega

theorem resize_of_le (h : n ≤ buf.length) : resize buf n = buf.take n := by
  rw [resize, Nat.sub_eq_zero_of_le h, List.replicate_zero, List.append_nil]

/-! ### Numbers -/

/-- The four bytes of a number, least significant first. -/
def le32 (x : UInt32) : List UInt8 :=
  [.ofNat x.toNat, .ofNat (x.toNat / 2 ^ 8), .ofNat (x.toNat / 2 ^ 16), .ofNat (x.toNat / 2 ^ 24)]

/-- The number that four bytes stand for, least significant first. -/
def ofLe32 : List UInt8 → UInt32
  | [] => 0
  | b :: bytes => .ofNat (b.toNat + 2 ^ 8 * (ofLe32 bytes).toNat)

@[simp]
theorem length_le32 (x : UInt32) : (le32 x).length = 4 :=
  rfl

theorem ofLe32_le32 (x : UInt32) : ofLe32 (le32 x) = x := by
  have hx := x.toNat_lt
  refine UInt32.toNat_inj.1 ?_
  simp only [le32, ofLe32, UInt32.toNat_ofNat', UInt8.toNat_ofNat', UInt32.toNat_zero]
  omega

end LarkX
