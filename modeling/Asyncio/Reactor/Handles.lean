import Asyncio.Combiner.Word
import Mathlib.Data.Int.ModEq

/-!
# Kernel handles

What the kernel is given for an object or an event packs the address of its header and the low bits of its
generation into a word. The bits that are left out come from the header itself when the word is decoded.

`kernelHandle_incarnation` says what is decoded, and in which incarnations it is accepted.
-/

namespace Asyncio

namespace KernelHandle

open Combiner

/-- `uint128`, the tag of a header. -/
structure Uint128 where
  low : BitVec 64
  high : BitVec 64
  deriving DecidableEq

/-- The address of a header, as `kernelHandleEncode` asserts it. -/
structure HeaderAddress where
  pointer : BitVec 64
  ne_zero : pointer ≠ 0
  aligned : pointer &&& 63 = 0
  lt : pointer < 1 <<< 48

/-- `REACTOR_HANDLE_GENERATION_MASK` -/
def generationMask : BitVec 64 := 1 <<< 22 - 1

/-- `REACTOR_HANDLE_POINTER_MASK` -/
def pointerMask : BitVec 64 := 1 <<< 42 - 1

/-- `kernelHandleEncode` of a header with a generation. -/
def kernelHandleEncode (header : HeaderAddress) (generation : BitVec 64) : BitVec 64 :=
  header.pointer >>> 6 ||| (generation &&& generationMask) <<< 42

/-- `kernelHandleDecode`; `objectHeaderGeneration` is the generation at an address. -/
def kernelHandleDecode (objectHeaderGeneration : BitVec 64 → BitVec 64) (encoded : BitVec 64) :
    BitVec 64 × BitVec 64 :=
  let decoded := (encoded &&& pointerMask) <<< 6
  (decoded, objectHeaderGeneration decoded &&& ~~~generationMask ||| encoded >>> 42)

theorem getLsbD_generationMask (i : ℕ) : generationMask.getLsbD i = decide (i < 22) :=
  getLsbD_ones (k := 22) (by decide) i

theorem getLsbD_pointerMask (i : ℕ) : pointerMask.getLsbD i = decide (i < 42) :=
  getLsbD_ones (k := 42) (by decide) i

variable (header : HeaderAddress)

theorem HeaderAddress.getLsbD_high {i : ℕ} (hi : 48 ≤ i) : header.pointer.getLsbD i = false := by
  have h : header.pointer.toNat < 2 ^ 48 := header.lt
  exact Nat.testBit_lt_two_pow (h.trans_le (Nat.pow_le_pow_right Nat.two_pos hi))

theorem modEq_iff_bits {x y : BitVec 64} {k : ℕ} :
    x.toNat ≡ y.toNat [MOD 2 ^ k] ↔ ∀ i < k, x.getLsbD i = y.getLsbD i := by
  constructor
  · intro h i hi
    have hbit := congrArg (·.testBit i) h
    simp only [Nat.testBit_mod_two_pow, hi, decide_true, Bool.true_and] at hbit
    exact hbit
  · intro h
    refine Nat.eq_of_testBit_eq fun i => ?_
    rw [Nat.testBit_mod_two_pow, Nat.testBit_mod_two_pow]
    by_cases hi : i < k
    · exact congrArg _ (h i hi)
    · rw [decide_eq_false hi, Bool.false_and, Bool.false_and]

variable (generation : BitVec 64)

theorem getLsbD_encode (i : ℕ) : (kernelHandleEncode header generation).getLsbD i =
    if i < 42 then header.pointer.getLsbD (i + 6) else generation.getLsbD (i - 42) && decide (i < 64) := by
  simp only [kernelHandleEncode, BitVec.getLsbD_or, BitVec.getLsbD_ushiftRight, BitVec.getLsbD_shiftLeft,
    BitVec.getLsbD_and, getLsbD_generationMask]
  split
  · grind
  · have := header.getLsbD_high (i := 6 + i) (by omega)
    grind

/-- The address is decoded. -/
theorem decode_encode : (kernelHandleEncode header generation &&& pointerMask) <<< 6 = header.pointer := by
  refine BitVec.eq_of_getLsbD_eq fun i hi => ?_
  rw [BitVec.getLsbD_shiftLeft, BitVec.getLsbD_and, getLsbD_encode, getLsbD_pointerMask]
  have hlow := @getLsbD_of_aligned _ header.aligned i
  have hhigh := @header.getLsbD_high i
  grind

theorem kernelHandleEncode_ne_zero : kernelHandleEncode header generation ≠ 0 := by
  intro h
  have hpointer := decode_encode header generation
  rw [h] at hpointer
  exact header.ne_zero hpointer.symm

/-- The low bits are those that were encoded, the others are the current ones. -/
theorem getLsbD_decode (current : BitVec 64 → BitVec 64) (i : ℕ) :
    (kernelHandleDecode current (kernelHandleEncode header generation)).2.getLsbD i =
      if i < 22 then generation.getLsbD i else (current header.pointer).getLsbD i := by
  simp only [kernelHandleDecode, decode_encode, BitVec.getLsbD_or, BitVec.getLsbD_and, BitVec.getLsbD_not,
    BitVec.getLsbD_ushiftRight, getLsbD_generationMask, getLsbD_encode]
  have hcurrent := (current header.pointer).getLsbD_of_ge i
  grind

/-- The loop of a claim. `found` is what its compare-and-swaps find in the tag, whatever others have made of
it. Answers the tag that was swapped, or `none` for a claim that is refused. -/
def claimLoop (refuses : BitVec 64 → Bool) (generation : BitVec 64) :
    Uint128 → List Uint128 → Option (Option Uint128)
  | expected, found =>
    if expected.high ≠ generation || refuses expected.low then some none
    else
      match found with
      | [] => none
      | tag :: found => if tag = expected then some (some tag) else claimLoop refuses generation tag found

/-- `combinerPushValidated`, up to its compare-and-swap; `low` is what it loads. -/
def combinerPushValidated (generation low : BitVec 64) : List Uint128 → Option (Option Uint128) :=
  claimLoop (fun _ => false) generation ⟨low, generation⟩

/-- `eventTryClaimReference` -/
def eventTryClaimReference (eventGeneration : BitVec 64) (allowDeletedWaiter : Bool) (low : BitVec 64) :
    List Uint128 → Option (Option Uint128) :=
  claimLoop (fun low => low &&& 0x3fffffffffffffff == 0 ||
      (low &&& 0x8000000000000000 != 0 &&
        (!allowDeletedWaiter || low &&& 0x4000000000000000 == 0)))
    eventGeneration ⟨low, eventGeneration⟩

variable {generation}

/-- A claim swaps only a tag with its generation. -/
theorem high_of_claimLoop {refuses : BitVec 64 → Bool} {found : List Uint128} {expected tag : Uint128}
    (h : claimLoop refuses generation expected found = some (some tag)) : tag.high = generation := by
  induction found generalizing expected with
  | nil =>
    rw [claimLoop] at h
    split at h <;> cases h
  | cons next found ih =>
    rw [claimLoop] at h
    split at h
    · cases h
    · next hexpected =>
      split at h
      · next heq =>
        cases h
        rw [heq]
        simp only [ne_eq, Bool.or_eq_true, decide_eq_true_eq, not_or, not_not] at hexpected
        exact hexpected.1
      · exact ih h

/-- **Handles identify the incarnation.** The encoded word is not zero. The address is decoded, and with it
the current generation exactly if that agrees with the encoded one modulo `2 ^ 22`. What is decoded is
accepted only in such an incarnation, also if the generation is no longer the one at the decoding. -/
theorem kernelHandle_incarnation (header : HeaderAddress) (generation : BitVec 64)
    (current : BitVec 64 → BitVec 64) :
    let encoded := kernelHandleEncode header generation
    let decoded := kernelHandleDecode current encoded
    encoded ≠ 0 ∧ decoded.1 = header.pointer ∧
      (decoded.2 = current header.pointer ↔
        (current header.pointer).toNat ≡ generation.toNat [MOD 2 ^ 22]) ∧
      (∀ low found tag, combinerPushValidated decoded.2 low found = some (some tag) →
        tag.high.toNat ≡ generation.toNat [MOD 2 ^ 22]) ∧
      ∀ allowDeletedWaiter low found tag,
        eventTryClaimReference decoded.2 allowDeletedWaiter low found = some (some tag) →
          tag.high.toNat ≡ generation.toNat [MOD 2 ^ 22] := by
  intro encoded decoded
  have hbits := getLsbD_decode header generation current
  have hmod : decoded.2.toNat ≡ generation.toNat [MOD 2 ^ 22] :=
    modEq_iff_bits.mpr fun i hi => (hbits i).trans (if_pos hi)
  refine ⟨kernelHandleEncode_ne_zero header generation, decode_encode header generation,
    ⟨fun h => h ▸ hmod, fun h => ?_⟩, fun low found tag h => high_of_claimLoop h ▸ hmod,
    fun allow low found tag h => high_of_claimLoop h ▸ hmod⟩
  refine BitVec.eq_of_getLsbD_eq fun i _ => (hbits i).trans ?_
  split
  · next hi => exact (modEq_iff_bits.mp h i hi).symm
  · rfl

/-- An object of generation 17 is taken for itself `2 ^ 22` generations later. -/
theorem kernelHandle_incarnation_wrap :
    let decoded := kernelHandleDecode (fun _ => 0x400011)
      (kernelHandleEncode ⟨64, by decide, by decide, by decide⟩ 17)
    decoded.2 = 0x400011 ∧ (0x400011 : BitVec 64).toNat ≡ (17 : BitVec 64).toNat [MOD 2 ^ 22] :=
  ⟨by decide, (kernelHandle_incarnation ⟨64, by decide, by decide, by decide⟩ 17 fun _ => 0x400011).2.2.2.1
    0 [⟨0, 0x400011⟩] ⟨0, 0x400011⟩ (by decide)⟩

end KernelHandle

end Asyncio
