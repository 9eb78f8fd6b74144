import Asyncio.Uri.Build

/-!
# Percent coding

`uriPctDecode` compacts a string in place. What is read is never before what is written, so that nothing that
was decoded is decoded again (`decodeFrom_eq`). `pct_coding` says that it undoes `uriPctEncode`.
-/

namespace Asyncio

namespace Uri

open Computability Grammar Rfc3986 List

/-- The loop of `uriPctDecode` over the string that it changes. -/
def decodeFrom (out : List UInt8) (read write : ℕ) : List UInt8 :=
  if _h : read < out.length then
    if out.getD read 0 = 37 && decide (out.length - read ≥ 3) && isHexDigit (out.getD (read + 1) 0) &&
        isHexDigit (out.getD (read + 2) 0) then
      let s := decodeHex (out.getD (read + 1) 0) <<< 4 + decodeHex (out.getD (read + 2) 0)
      decodeFrom (out.set write (.ofNat s)) (read + 3) (write + 1)
    else decodeFrom (out.set write (out.getD read 0)) (read + 1) (write + 1)
  else out.take write
termination_by out.length - read
decreasing_by all_goals rw [length_set]; omega

/-- `uriPctDecode`, in place. -/
def uriPctDecodeInPlace (out : List UInt8) : List UInt8 :=
  if 37 ∈ out then decodeFrom out (out.idxOf 37) (out.idxOf 37) else out

theorem uriPctDecode_of_hex {a b : UInt8} (ha : isHexDigit a = true) (hb : isHexDigit b = true)
    (rest : List UInt8) : uriPctDecode (37 :: a :: b :: rest) =
      .ofNat (decodeHex a <<< 4 + decodeHex b) :: uriPctDecode rest := by
  rw [uriPctDecode, ha, hb]
  rfl

/-- A byte that does not begin an escape. -/
theorem uriPctDecode_cons {c : UInt8} {p : List UInt8}
    (h : c = 37 → ∀ a b q, p = a :: b :: q → isHexDigit a = true → isHexDigit b = false) :
    uriPctDecode (c :: p) = c :: uriPctDecode p := by
  match p with
  | [] => rfl
  | [a] => rfl
  | a :: b :: q =>
    rw [uriPctDecode, if_neg]
    rintro hescape
    simp only [Bool.and_eq_true, decide_eq_true_eq] at hescape
    obtain ⟨⟨hc, ha⟩, hb⟩ := hescape
    rw [h hc a b q rfl ha] at hb
    cases hb

theorem uriPctDecode_append {x : List UInt8} (h : 37 ∉ x) (y : List UInt8) :
    uriPctDecode (x ++ y) = x ++ uriPctDecode y := by
  induction x with
  | nil => rfl
  | cons c x ih =>
    obtain ⟨hc, hx⟩ := not_or.mp (mt mem_cons.mpr h)
    rw [cons_append, uriPctDecode_cons (fun heq => absurd heq.symm hc), ih hx, cons_append]

theorem uriPctDecode_of_not_mem {x : List UInt8} (h : 37 ∉ x) : uriPctDecode x = x := by
  have happend := uriPctDecode_append h []
  rwa [append_nil, uriPctDecode, append_nil] at happend

theorem take_set_append {out : List UInt8} {write : ℕ} (h : write < out.length) (c : UInt8) :
    (out.set write c).take (write + 1) = out.take write ++ [c] := by
  rw [take_add_one, take_set_of_le le_rfl, getElem?_set_self h, Option.toList_some]

/-- What is before `write` is decoded, and what is from `read` on is as it was. -/
theorem decodeFrom_eq (out : List UInt8) (read write : ℕ) (h : write ≤ read) :
    decodeFrom out read write = out.take write ++ uriPctDecode (out.drop read) := by
  fun_induction decodeFrom out read write with
  | case1 out read write hread hescape s ih =>
    simp only [Bool.and_eq_true, decide_eq_true_eq, ge_iff_le] at hescape
    obtain ⟨⟨⟨hpercent, hlength⟩, ha⟩, hb⟩ := hescape
    have hdrop : out.drop read =
        37 :: out.getD (read + 1) 0 :: out.getD (read + 2) 0 :: out.drop (read + 3) := by
      rw [drop_eq_getElem_cons hread, drop_eq_getElem_cons (by omega : read + 1 < out.length),
        drop_eq_getElem_cons (by omega : read + 1 + 1 < out.length), ← hpercent,
        getD_eq_getElem _ _ hread, getD_eq_getElem, getD_eq_getElem]
    rw [ih (by omega), take_set_append (by omega), drop_set_of_lt (by omega), hdrop,
      uriPctDecode_of_hex ha hb, append_assoc, singleton_append]
  | case2 out read write hread hescape ih =>
    have hdrop := drop_eq_getElem_cons hread
    rw [← getD_eq_getElem _ 0 hread] at hdrop
    rw [ih (by omega), take_set_append (by omega), drop_set_of_lt (by omega), hdrop,
      uriPctDecode_cons, append_assoc, singleton_append]
    intro hc a b q hq ha
    have hget (k : ℕ) : out.getD (read + 1 + k) 0 = (a :: b :: q).getD k 0 := by
      rw [← hq, getD_eq_getElem?_getD, getD_eq_getElem?_getD, getElem?_drop]
    have hlength := congrArg List.length hq
    rw [length_drop, length_cons, length_cons] at hlength
    refine Bool.eq_false_iff.mpr fun hb => hescape ?_
    rw [hc, hget 0, hget 1]
    simp [ha, hb]
    omega
  | case3 out read write hread =>
    rw [drop_of_length_le (Nat.le_of_not_lt hread), uriPctDecode, append_nil]

theorem uriPctDecodeInPlace_eq (x : List UInt8) : uriPctDecodeInPlace x = uriPctDecode x := by
  unfold uriPctDecodeInPlace
  split
  · next h =>
    have hbefore : 37 ∉ x.take (x.idxOf 37) := fun hmem =>
      Nat.lt_irrefl _ ((mem_take_iff_idxOf_lt h).mp hmem)
    rw [decodeFrom_eq _ _ _ le_rfl, ← uriPctDecode_append hbefore, take_append_drop]
  · next h => exact (uriPctDecode_of_not_mem h).symm

/-! ### Encoding and decoding -/

/-- A byte that `uriPctEncode` copies. -/
def isPlain (extra : List UInt8) (c : UInt8) : Bool := isUnreserved c || isSubDelims c || extra.contains c

theorem uriPctEncode_cons (extra : List UInt8) (c : UInt8) (x : List UInt8) :
    uriPctEncode extra (c :: x) = (if c ≠ 0 && isPlain extra c then [c]
      else [37, encodeHex (c >>> 4), encodeHex (c &&& 0xF)]) ++ uriPctEncode extra x :=
  flatMap_cons ..

/-- The digits of an escape. -/
theorem encodeHex_spec (c : UInt8) :
    isHexDigit (encodeHex (c >>> 4)) = true ∧ isHexDigit (encodeHex (c &&& 0xF)) = true ∧
      .ofNat (decodeHex (encodeHex (c >>> 4)) <<< 4 + decodeHex (encodeHex (c &&& 0xF))) = c :=
  forall_byte (P := fun c => isHexDigit (encodeHex (c >>> 4)) = true ∧
    isHexDigit (encodeHex (c &&& 0xF)) = true ∧
    .ofNat (decodeHex (encodeHex (c >>> 4)) <<< 4 + decodeHex (encodeHex (c &&& 0xF))) = c)
    (by decide +kernel) c

theorem uriPctDecode_encode {extra : List UInt8} (h : 37 ∉ extra) (x : List UInt8) :
    uriPctDecode (uriPctEncode extra x) = x := by
  induction x with
  | nil => rfl
  | cons c x ih =>
    rw [uriPctEncode_cons]
    split
    · next hplain =>
      have hc : c ≠ 37 := by
        rintro rfl
        simp [isPlain, h, isUnreserved, isSubDelims, isLetter, isDigit] at hplain
      rw [singleton_append, uriPctDecode_cons fun heq => absurd heq hc, ih]
    · obtain ⟨ha, hb, hvalue⟩ := encodeHex_spec c
      rw [cons_append, cons_append, singleton_append, uriPctDecode_of_hex ha hb, hvalue, ih]

theorem uriPctEncode_mem (extra x : List UInt8) : uriPctEncode extra x ∈ (escapable (isPlain extra))∗ := by
  induction x with
  | nil => exact Language.nil_mem_kstar _
  | cons c x ih =>
    rw [uriPctEncode_cons]
    refine append_mem_kstar ?_ ih
    split
    · next hplain => exact .inl ⟨c, (Bool.and_eq_true_iff.mp hplain).2, rfl⟩
    · obtain ⟨ha, hb, -⟩ := encodeHex_spec c
      exact .inr (mem_pctEncoded.mpr ⟨_, _, ha, hb, rfl⟩)

theorem length_uriPctDecode_le (x : List UInt8) : (uriPctDecode x).length ≤ x.length := by
  fun_induction uriPctDecode x with
  | case1 => exact Nat.le_refl 0
  | case2 c a b q h ih =>
    simp only [length_cons]
    omega
  | case3 c a b q h ih => exact Nat.succ_le_succ ih
  | case4 c p h ih => exact Nat.succ_le_succ ih

/-- There is a complete escape in a text. -/
def HasEscape (x : List UInt8) : Prop :=
  ∃ u a b v, x = u ++ 37 :: a :: b :: v ∧ isHexDigit a = true ∧ isHexDigit b = true

theorem uriPctDecode_of_not_hasEscape {x : List UInt8} (h : ¬HasEscape x) : uriPctDecode x = x := by
  induction x with
  | nil => rfl
  | cons c p ih =>
    have hrest : ¬HasEscape p := by
      rintro ⟨u, a, b, v, rfl, hab⟩
      exact h ⟨c :: u, a, b, v, rfl, hab⟩
    rw [uriPctDecode_cons, ih hrest]
    rintro rfl a b q rfl ha
    exact Bool.eq_false_iff.mpr fun hb => h ⟨[], a, b, q, rfl, ha, hb⟩

/-- **Percent coding is invertible.** -/
theorem pct_coding (x extra : List UInt8) (h : 37 ∉ extra) :
    uriPctDecodeInPlace (uriPctEncode extra x) = x ∧
      uriPctEncode extra x ∈ (escapable fun c => isUnreserved c || isSubDelims c || extra.contains c)∗ ∧
      ∀ s, (uriPctDecodeInPlace s).length ≤ s.length ∧ (¬HasEscape s → uriPctDecodeInPlace s = s) := by
  simp only [uriPctDecodeInPlace_eq]
  exact ⟨uriPctDecode_encode h x, uriPctEncode_mem extra x,
    fun s => ⟨length_uriPctDecode_le s, uriPctDecode_of_not_hasEscape⟩⟩

theorem pct_coding_bytes :
    uriPctDecodeInPlace (uriPctEncode [47, 58] [0, 37, 255, 47]) = [0, 37, 255, 47] :=
  (pct_coding [0, 37, 255, 47] [47, 58] (by decide)).1

end Uri

end Asyncio
