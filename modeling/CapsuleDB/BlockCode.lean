import Mathlib.Data.List.Basic
import Mathlib.Logic.Function.Basic

/-!
# Codes of blocks of one length

A code of items by blocks of one positive length extends to lists of items, one
block after another. Cutting the blocks off again decodes the list, so that
lists of any lengths have different codes. A code of one type is a code of any
type that maps into it without loss.
-/

namespace CapsuleDB.BlockCode

/-- A code of items by blocks of one length, with its decoder. -/
structure Code (α κ : Type*) where
  /-- The length of a block. -/
  width : ℕ
  /-- The block of an item. -/
  encode : α → List κ
  /-- The item of a block. -/
  decode : List κ → Option α
  /-- No block is empty. -/
  width_pos : 0 < width
  /-- All blocks have one length. -/
  length_encode : ∀ a, (encode a).length = width
  /-- The decoder finds the item again. -/
  decode_encode : ∀ a, decode (encode a) = some a

variable {α β κ : Type*}

namespace Code

/-- Each block in turn. -/
def encodeAll (c : Code α κ) (as : List α) : List κ := as.flatMap c.encode

/-- Decode some blocks, with nothing left over. -/
def decodeBlocks (c : Code α κ) : ℕ → List κ → Option (List α)
  | 0, [] => some []
  | 0, _ :: _ => none
  | blocks+1, l =>
    match c.decode (l.take c.width), c.decodeBlocks blocks (l.drop c.width) with
    | some a, some as => some (a :: as)
    | _, _ => none

/-- Decode as many blocks as there is room for. -/
def decodeAll (c : Code α κ) (l : List κ) : Option (List α) :=
  c.decodeBlocks (l.length/c.width) l

/-- The length of a code. -/
theorem length_encodeAll (c : Code α κ) (as : List α) :
    (c.encodeAll as).length = c.width*as.length := by
  unfold encodeAll
  induction as with
  | nil => rfl
  | cons a as ih =>
    rw [List.flatMap_cons, List.length_append, c.length_encode, ih, List.length_cons, Nat.mul_succ,
      Nat.add_comm]

/-- The blocks of a list decode to it. -/
theorem decodeBlocks_encodeAll (c : Code α κ) (as : List α) :
    c.decodeBlocks as.length (c.encodeAll as) = some as := by
  unfold encodeAll
  induction as with
  | nil => rfl
  | cons a as ih =>
    rw [List.flatMap_cons, List.length_cons, decodeBlocks, List.take_left' (c.length_encode a),
      List.drop_left' (c.length_encode a), c.decode_encode, ih]

/-- The decoder finds every list again. -/
theorem decodeAll_encodeAll (c : Code α κ) (as : List α) :
    c.decodeAll (c.encodeAll as) = some as := by
  rw [decodeAll, length_encodeAll, Nat.mul_div_cancel_left _ c.width_pos, decodeBlocks_encodeAll]

/-- Different lists have different codes. -/
theorem encodeAll_injective (c : Code α κ) : Function.Injective c.encodeAll := by
  intro as bs h
  have hdecode := c.decodeAll_encodeAll as
  rw [h, decodeAll_encodeAll] at hdecode
  exact (Option.some_inj.mp hdecode).symm

/-- The code of another type through a map that has a left inverse. -/
def comap (c : Code α κ) (f : β → α) (g : α → β) (hgf : Function.LeftInverse g f) :
    Code β κ where
  width := c.width
  encode b := c.encode (f b)
  decode l := (c.decode l).map g
  width_pos := c.width_pos
  length_encode b := c.length_encode (f b)
  decode_encode b := by rw [c.decode_encode, Option.map_some, hgf b]

/-- It encodes the images. -/
theorem encodeAll_comap (c : Code α κ) {f : β → α} {g : α → β}
    (hgf : Function.LeftInverse g f) (bs : List β) :
    (c.comap f g hgf).encodeAll bs = c.encodeAll (bs.map f) := by
  unfold encodeAll
  rw [List.flatMap_map]
  rfl

end Code

end CapsuleDB.BlockCode
