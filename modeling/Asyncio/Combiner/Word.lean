import Mathlib.Data.BitVec

/-!
# The tagged head word

An object's head word `header.tag.low` holds the address of an operation node, or a stub, or
nothing, together with six signal bits in the bits that the node's alignment leaves free. The model
keeps the two parts apart: `TaggedPtr` is a node and a tag. This file also says what that pair is
as a 64-bit word, and that the word's atomic operations are the pair's.

## Main definitions

* `Combiner.TaggedPtr` — a head word, with `null`, `stub` and `make`
* `Combiner.OpAddr`, `Combiner.TaggedPtr.encode` — the addresses a node can have, and the word

## Main results

* `Combiner.headWord_refines` — any operations on the word are those on the pair
-/

namespace Asyncio

namespace Combiner

/-- The signal bits of a head word: `COMBINER_TAG_SIZE` is 6. -/
abbrev Tag := BitVec 6

/-- `COMBINER_TAG_PROGRESS_READ` -/
def tagProgressRead : Tag := 1#6
/-- `COMBINER_TAG_PROGRESS_WRITE` -/
def tagProgressWrite : Tag := 2#6
/-- `COMBINER_TAG_ERROR` -/
def tagError : Tag := 4#6
/-- `COMBINER_TAG_CANCEL` -/
def tagCancel : Tag := 8#6
/-- `COMBINER_TAG_DELETE` -/
def tagDelete : Tag := 16#6
/-- `COMBINER_TAG_CANCELIO` -/
def tagCancelIo : Tag := 32#6
/-- `COMBINER_TAG_PROGRESS_MASK` -/
def tagProgressMask : Tag := tagProgressRead ||| tagProgressWrite

/-- `tag & bits` as a condition. -/
def Tag.has (tag bits : Tag) : Bool := tag &&& bits != 0#6

@[simp] theorem Tag.zero_has (bits : Tag) : Tag.has 0#6 bits = false := by
  simp [Tag.has]

/-- What the address part of a head word can be. -/
inductive Node (α : Type) where
  | null
  | stub
  | op (a : α)
  deriving DecidableEq, Repr

/-- `AsyncOpTaggedPtr` -/
structure TaggedPtr (α : Type) where
  node : Node α
  tag : Tag
  deriving DecidableEq, Repr

namespace TaggedPtr

variable {α : Type}

/-- `taggedAsyncOpNull` -/
def null : TaggedPtr α := ⟨.null, 0#6⟩

/-- `taggedAsyncOpStub` -/
def stub : TaggedPtr α := ⟨.stub, 0#6⟩

/-- `taggedAsyncOpMake` -/
def make (a : α) : TaggedPtr α := ⟨.op a, 0#6⟩

/-- The word with more signal bits set. -/
def or (p : TaggedPtr α) (bits : Tag) : TaggedPtr α := { p with tag := p.tag ||| bits }

@[simp] theorem make_ne_null (a : α) : make a ≠ null := by simp [make, null]

@[simp] theorem stub_ne_null : (stub : TaggedPtr α) ≠ null := by simp [stub, null]

end TaggedPtr

theorem Tag.or_eq_zero_iff {a b : Tag} : a ||| b = 0#6 ↔ a = 0#6 ∧ b = 0#6 := by
  revert a b; decide

theorem Tag.or_has (a b bits : Tag) : (a ||| b).has bits = (a.has bits || b.has bits) := by
  rw [Bool.eq_iff_iff, Bool.or_eq_true]
  simp only [Tag.has, BitVec.and_or_distrib_right, bne_iff_ne, ne_eq, Tag.or_eq_zero_iff]
  exact not_and_or

/-- Adding DELETE sets it, where it was clear. -/
theorem Tag.add_delete {tag : Tag} (h : tag.has tagDelete = false) :
    tag + tagDelete = tag ||| tagDelete := by
  revert tag; decide

theorem TaggedPtr.or_ne_null {α : Type} (p : TaggedPtr α) {bits : Tag} (h : bits ≠ 0#6) :
    p.or bits ≠ .null := by
  intro heq
  have htag : p.tag ||| bits = 0#6 := congrArg TaggedPtr.tag heq
  exact h (Tag.or_eq_zero_iff.mp htag).2

/-! ### The word itself -/

/-- The stub's word: all ones above the tag. -/
def stubWord : BitVec 64 := ~~~0#64 ^^^ ((1#64 <<< 6) - 1#64)

/-- The mask of `taggedAsyncOpDecode`. -/
def tagMask : BitVec 64 := (1#64 <<< 6) - 1#64

/-- An address an operation node can have: `asyncOpAlloc` aligns it to `1 << COMBINER_TAG_SIZE`,
and it is neither null nor the stub. -/
structure OpAddr where
  word : BitVec 64
  aligned : word &&& tagMask = 0#64
  ne_null : word ≠ 0#64
  ne_stub : word ≠ stubWord
  deriving DecidableEq

/-- The address part of a word. -/
def Node.word : Node OpAddr → BitVec 64
  | .null => 0#64
  | .stub => stubWord
  | .op a => a.word

/-- The head word of a pair. -/
def TaggedPtr.encode (p : TaggedPtr OpAddr) : BitVec 64 := p.node.word ||| p.tag.setWidth 64

theorem Node.word_and_mask (n : Node OpAddr) : n.word &&& tagMask = 0#64 := by
  cases n with
  | null => rfl
  | stub => rfl
  | op a => exact a.aligned

theorem Node.word_injective {m n : Node OpAddr} (h : m.word = n.word) : m = n := by
  have hs : stubWord ≠ 0#64 := by decide
  cases m with
  | null =>
    cases n with
    | null => rfl
    | stub => exact absurd h.symm hs
    | op a => exact absurd h.symm a.ne_null
  | stub =>
    cases n with
    | null => exact absurd h hs
    | stub => rfl
    | op a => exact absurd h.symm a.ne_stub
  | op a =>
    cases n with
    | null => exact absurd h a.ne_null
    | stub => exact absurd h a.ne_stub
    | op b => cases a; cases b; cases h; rfl

/-- A mask has the bits below its size. -/
theorem getLsbD_ones {k : ℕ} (hk : k ≤ 64) (i : ℕ) :
    (BitVec.ofNat 64 (2 ^ k - 1)).getLsbD i = decide (i < k) := by
  rw [BitVec.getLsbD_ofNat, Nat.testBit_two_pow_sub_one, Bool.and_eq_right_iff_imp]
  exact fun h => decide_eq_true ((of_decide_eq_true h).trans_le hk)

theorem getLsbD_tagMask (i : ℕ) : tagMask.getLsbD i = decide (i < 6) := getLsbD_ones (k := 6) (by decide) i

/-- An aligned word has no bit below the tag size. -/
theorem getLsbD_of_aligned {w : BitVec 64} (h : w &&& tagMask = 0#64) {i : ℕ} (hi : i < 6) :
    w.getLsbD i = false := by
  have := congrArg (fun v => v.getLsbD i) h
  simpa [getLsbD_tagMask, hi] using this

/-- `taggedAsyncOpDecode` reads the tag. -/
theorem TaggedPtr.encode_and_mask (p : TaggedPtr OpAddr) :
    p.encode &&& tagMask = p.tag.setWidth 64 := by
  have htag : ∀ tag : Tag, tag.setWidth 64 &&& tagMask = tag.setWidth 64 := by decide
  rw [encode, BitVec.and_or_distrib_right, p.node.word_and_mask, htag, BitVec.zero_or]

/-- `taggedAsyncOpDecode` reads the node. -/
theorem TaggedPtr.encode_and_not_mask (p : TaggedPtr OpAddr) :
    p.encode &&& ~~~tagMask = p.node.word := by
  have htag : ∀ tag : Tag, tag.setWidth 64 &&& ~~~tagMask = 0#64 := by decide
  have hnode : p.node.word &&& (tagMask ||| ~~~tagMask) = p.node.word &&& ~~~tagMask := by
    rw [BitVec.and_or_distrib_left, p.node.word_and_mask, BitVec.zero_or]
  rw [encode, BitVec.and_or_distrib_right, htag, BitVec.or_zero, ← hnode, BitVec.or_not_self,
    BitVec.and_allOnes]

/-- **Comparing head words is comparing pairs**: what a CAS on the word tests. -/
theorem TaggedPtr.encode_injective {p q : TaggedPtr OpAddr} (h : p.encode = q.encode) : p = q := by
  have hnode : p.node = q.node := by
    apply Node.word_injective
    rw [← p.encode_and_not_mask, ← q.encode_and_not_mask, h]
  have htag : p.tag = q.tag := by
    have hw : p.tag.setWidth 64 = q.tag.setWidth 64 := by
      rw [← p.encode_and_mask, ← q.encode_and_mask, h]
    have := congrArg (BitVec.setWidth 6) hw
    simpa [BitVec.setWidth_setWidth_of_le] using this
  cases p; cases q; cases hnode; cases htag; rfl

theorem TaggedPtr.encode_eq_zero_iff {p : TaggedPtr OpAddr} : p.encode = 0#64 ↔ p = .null := by
  have hnull : (TaggedPtr.null : TaggedPtr OpAddr).encode = 0#64 := by decide
  rw [← hnull]
  exact ⟨encode_injective, congrArg _⟩

/-- `__uint64_atomic_fetch_or` on the head word sets signal bits. -/
theorem TaggedPtr.encode_or (p : TaggedPtr OpAddr) (bits : Tag) :
    p.encode ||| bits.setWidth 64 = (p.or bits).encode := by
  simp [encode, TaggedPtr.or, BitVec.or_assoc, BitVec.setWidth_or]

theorem TaggedPtr.encode_and_delete (p : TaggedPtr OpAddr) :
    p.encode &&& tagDelete.setWidth 64 = 0#64 ↔ p.tag &&& tagDelete = 0#6 := by
  have hd : tagDelete.setWidth 64 = tagMask &&& tagDelete.setWidth 64 := by decide
  rw [hd, ← BitVec.and_assoc, encode_and_mask, ← BitVec.setWidth_and]
  generalize p.tag = tag
  revert tag
  decide

/-- `__uint64_atomic_fetch_and_add` of DELETE sets the DELETE bit, given the clear bit that
`combinerPushDelete` asserts. With the bit set it would carry into CANCELIO. -/
theorem TaggedPtr.encode_add_delete (p : TaggedPtr OpAddr) (h : p.tag &&& tagDelete = 0#6) :
    p.encode + tagDelete.setWidth 64 = (p.or tagDelete).encode := by
  rw [← encode_or]
  exact BitVec.add_eq_or_of_and_eq_zero _ _ (p.encode_and_delete.mpr h)

/-- `taggedAsyncOpDecode` -/
def taggedAsyncOpDecode (w : BitVec 64) : BitVec 64 × BitVec 32 :=
  (w &&& ~~~tagMask, (w &&& tagMask).setWidth 32)

/-- An atomic operation on `header.tag.low`. -/
inductive HeadOp
  | compareAndSwap (expected desired : TaggedPtr OpAddr)
  | fetchOr (bits : Tag)
  | fetchAddDelete

/-- The operation on the pair, with the assertion of `combinerPushDelete`. -/
def HeadOp.onPair (p : TaggedPtr OpAddr) : HeadOp → Option (TaggedPtr OpAddr)
  | compareAndSwap expected desired => if p = expected then desired else p
  | fetchOr bits => p.or bits
  | fetchAddDelete => if p.tag &&& tagDelete = 0#6 then p.or tagDelete else none

/-- The operation on the word. -/
def HeadOp.onWord (w : BitVec 64) : HeadOp → Option (BitVec 64)
  | compareAndSwap expected desired => if w = expected.encode then desired.encode else w
  | fetchOr bits => w ||| bits.setWidth 64
  | fetchAddDelete =>
    if w &&& tagDelete.setWidth 64 = 0#64 then w + tagDelete.setWidth 64 else none

theorem HeadOp.onWord_encode (p : TaggedPtr OpAddr) (op : HeadOp) :
    op.onWord p.encode = (op.onPair p).map TaggedPtr.encode := by
  cases op with
  | compareAndSwap expected desired =>
    by_cases h : p = expected
    · simp [onWord, onPair, h]
    · simp [onWord, onPair, h, mt TaggedPtr.encode_injective h]
  | fetchOr bits => exact congrArg some (p.encode_or bits)
  | fetchAddDelete =>
    by_cases h : p.tag &&& tagDelete = 0#6
    · simp [onWord, onPair, p.encode_and_delete, h, p.encode_add_delete h]
    · simp [onWord, onPair, p.encode_and_delete, h]

/-- **The head word is the pair.** Any atomic operations make of the word that of the pair they make, or
fail the assertion on both, and the word is decoded, and is zero, as the pair. -/
theorem headWord_refines (p : TaggedPtr OpAddr) (ops : List HeadOp) :
    ops.foldlM HeadOp.onWord p.encode = (ops.foldlM HeadOp.onPair p).map TaggedPtr.encode ∧
      ∀ q : TaggedPtr OpAddr, taggedAsyncOpDecode q.encode = (q.node.word, q.tag.setWidth 32) ∧
        (q.encode = 0#64 ↔ q = .null) := by
  constructor
  · induction ops generalizing p with
    | nil => rfl
    | cons op ops ih =>
      rw [List.foldlM_cons, List.foldlM_cons, op.onWord_encode]
      cases op.onPair p with
      | none => rfl
      | some q => exact ih q
  · intro q
    refine ⟨?_, q.encode_eq_zero_iff⟩
    rw [taggedAsyncOpDecode, q.encode_and_not_mask, q.encode_and_mask,
      BitVec.setWidth_setWidth_of_le _ (by decide)]

end Combiner

end Asyncio
