import Asyncio.Uri.Spans
import Mathlib.Data.List.DropRight

/-!
# The elements of a query

`uriParseQuery` goes over a query once. Each `=` ends a name, also one in the middle of a value, so what is
delivered for a piece between two `&` is what is before its last `=` and what is after it.

## Main results

* `elementsOf_queryOut` — the elements that are delivered
* `lastPairs_eq_iff` — when they are the pairs of the query
-/

namespace Asyncio

namespace Uri

open Grammar Incremental Rfc3986 List

/-! ### Pairs -/

/-- The name before the first `=` of a piece, and the value after it. -/
def pairOf (piece : List UInt8) : Option (List UInt8 × List UInt8) :=
  if 61 ∈ piece then some (piece.takeWhile (· ≠ 61), (piece.dropWhile (· ≠ 61)).drop 1) else none

/-- The pairs of a query. -/
def pairs (q : List UInt8) : List (List UInt8 × List UInt8) := (q.splitOn 38).filterMap pairOf

/-- What is before the last `=` of a piece, and what is after it. -/
def lastPairOf (piece : List UInt8) : Option (List UInt8 × List UInt8) :=
  if 61 ∈ piece then some ((piece.rdropWhile (· ≠ 61)).dropLast, piece.rtakeWhile (· ≠ 61)) else none

def lastPairs (q : List UInt8) : List (List UInt8 × List UInt8) := (q.splitOn 38).filterMap lastPairOf

/-- The name and the value of an element. -/
def elementOf : UriComponent → Option (List UInt8 × List UInt8)
  | .queryElement raw raw2 => some (raw, raw2)
  | _ => none

/-- The elements of a query among what was delivered. -/
def elementsOf (out : List UriComponent) : List (List UInt8 × List UInt8) := out.filterMap elementOf

theorem forall_ne_of_not_mem {x : List UInt8} (hx : 61 ∉ x) : ∀ c ∈ x, decide (c ≠ 61) = true := by
  intro c hc
  rw [decide_eq_true_iff]
  rintro rfl
  exact hx hc

theorem pairOf_append {name : List UInt8} (hname : 61 ∉ name) (value : List UInt8) :
    pairOf (name ++ 61 :: value) = some (name, value) := by
  have hall := forall_ne_of_not_mem hname
  rw [pairOf, if_pos (mem_append_right _ mem_cons_self), takeWhile_append_of_pos hall,
    dropWhile_append_of_pos hall]
  simp

theorem lastPairOf_append (name : List UInt8) {value : List UInt8} (hvalue : 61 ∉ value) :
    lastPairOf (name ++ 61 :: value) = some (name, value) := by
  have hall : ∀ c ∈ value.reverse, decide (c ≠ 61) = true := fun c hc =>
    forall_ne_of_not_mem hvalue c (mem_reverse.mp hc)
  have hreverse : (name ++ 61 :: value).reverse = value.reverse ++ 61 :: name.reverse := by simp
  rw [lastPairOf, if_pos (mem_append_right _ mem_cons_self), List.rdropWhile, List.rtakeWhile,
    hreverse, dropWhile_append_of_pos hall, takeWhile_append_of_pos hall]
  simp

theorem lastPairOf_none {piece : List UInt8} (h : 61 ∉ piece) : lastPairOf piece = none := if_neg h

/-- Where the first `=` is. -/
theorem exists_first {piece : List UInt8} (h : 61 ∈ piece) :
    ∃ name value, piece = name ++ 61 :: value ∧ 61 ∉ name := by
  obtain ⟨name, value, heq⟩ := append_of_mem h
  induction name generalizing piece with
  | nil => exact ⟨[], value, heq, not_mem_nil⟩
  | cons c name ih =>
    by_cases hc : c = 61
    · exact ⟨[], name ++ 61 :: value, by rw [heq, hc]; rfl, not_mem_nil⟩
    · obtain ⟨name', value', htail, hname'⟩ := ih (mem_append_right name mem_cons_self) rfl
      refine ⟨c :: name', value', by rw [heq, cons_append, htail]; rfl, ?_⟩
      rw [mem_cons, not_or]
      exact ⟨fun h => hc h.symm, hname'⟩

/-- The first `=` is the last one, if there are no more. -/
theorem lastPairOf_eq_iff (piece : List UInt8) :
    lastPairOf piece = pairOf piece ↔ piece.count 61 ≤ 1 := by
  by_cases hmem : 61 ∈ piece
  · obtain ⟨name, value, rfl, hname⟩ := exists_first hmem
    rw [pairOf_append hname, count_append, count_cons_self, count_eq_zero.mpr hname]
    by_cases hvalue : 61 ∈ value
    · have hpos := count_pos_iff.mpr hvalue
      constructor
      · intro heq
        -- the name that is delivered has the first `=` in it
        obtain ⟨front, last, hsplit, hlast⟩ : ∃ front last, value = front ++ 61 :: last ∧ 61 ∉ last := by
          obtain ⟨last, front, hsplit, hlast⟩ := exists_first (mem_reverse.mpr hvalue)
          refine ⟨front.reverse, last.reverse, ?_, fun h => hlast (mem_reverse.mp h)⟩
          rw [← reverse_reverse value, hsplit]
          simp
        rw [hsplit, ← cons_append, ← append_assoc, lastPairOf_append _ hlast] at heq
        have hnames : name ++ 61 :: front = name := congrArg Prod.fst (Option.some.inj heq)
        have hin : 61 ∈ name := by
          rw [← hnames]
          exact mem_append_right _ mem_cons_self
        exact absurd hin hname
      · intro hcount
        omega
    · rw [lastPairOf_append _ hvalue, count_eq_zero.mpr hvalue]
      exact ⟨fun _ => le_rfl, fun _ => rfl⟩
  · rw [lastPairOf_none hmem, count_eq_zero.mpr hmem]
    exact ⟨fun _ => Nat.zero_le _, fun _ => (if_neg hmem).symm⟩

theorem isSome_lastPairOf (piece : List UInt8) : (lastPairOf piece).isSome = (pairOf piece).isSome := by
  rw [lastPairOf, pairOf]
  split
  · rfl
  · rfl

/-- Results that are there together, one by one. -/
theorem filterMap_eq_iff {α β : Type} {f g : α → Option β}
    (hsome : ∀ a, (f a).isSome = (g a).isSome) (l : List α) :
    l.filterMap f = l.filterMap g ↔ ∀ a ∈ l, f a = g a := by
  induction l with
  | nil => exact ⟨fun _ => nofun, fun _ => rfl⟩
  | cons a l ih =>
    have ha := hsome a
    rw [forall_mem_cons, ← ih]
    cases hf : f a with
    | none =>
      cases hg : g a with
      | none =>
        rw [filterMap_cons_none hf, filterMap_cons_none hg]
        exact ⟨fun h => ⟨rfl, h⟩, fun h => h.2⟩
      | some y =>
        rw [hf, hg] at ha
        cases ha
    | some x =>
      cases hg : g a with
      | none =>
        rw [hf, hg] at ha
        cases ha
      | some y =>
        rw [filterMap_cons_some hf, filterMap_cons_some hg, List.cons.injEq, Option.some.injEq]

/-- **When the elements that are delivered are the pairs of the query.** -/
theorem lastPairs_eq_iff (q : List UInt8) :
    lastPairs q = pairs q ↔ ∀ piece ∈ q.splitOn 38, piece.count 61 ≤ 1 := by
  rw [lastPairs, pairs, filterMap_eq_iff isSome_lastPairOf]
  constructor
  · intro h piece hpiece
    exact (lastPairOf_eq_iff piece).mp (h piece hpiece)
  · intro h piece hpiece
    exact (lastPairOf_eq_iff piece).mpr (h piece hpiece)

/-! ### The loop -/

/-- `lastName`, `lastNameSize` and `lastValue` are about the last `=`. -/
def QueryState.Marked (st : QueryState) : Prop :=
  match st.value with
  | none => 61 ∉ st.name
  | some value => st.name = st.name.take st.nameSize ++ 61 :: value ∧ 61 ∉ value

variable {st : QueryState}

theorem QueryState.Marked.last (h : st.Marked) :
    elementsOf st.last = (lastPairOf st.name).toList := by
  rw [QueryState.Marked] at h
  rw [QueryState.last]
  cases hvalue : st.value with
  | none =>
    rw [hvalue] at h
    rw [lastPairOf_none h]
    rfl
  | some value =>
    rw [hvalue] at h
    obtain ⟨hname, hvalue⟩ := h
    have hpair := lastPairOf_append (st.name.take st.nameSize) hvalue
    rw [← hname] at hpair
    rw [hpair]
    rfl

theorem QueryState.Marked.push (h : st.Marked) {c : UInt8} (hc : c ≠ 61) :
    (st.push [c]).Marked := by
  have hmem : 61 ∉ [c] := fun hmem => hc (mem_singleton.mp hmem).symm
  rw [QueryState.Marked] at h
  rw [QueryState.Marked, QueryState.push]
  cases hvalue : st.value with
  | none =>
    rw [hvalue] at h
    exact fun hin => (mem_append.mp hin).elim h hmem
  | some value =>
    rw [hvalue] at h
    obtain ⟨hname, hnot⟩ := h
    have hsize : st.nameSize ≤ st.name.length := by
      have hlength := congrArg List.length hname
      rw [length_append, length_take, length_cons] at hlength
      omega
    refine ⟨?_, fun hin => (mem_append.mp hin).elim hnot hmem⟩
    show st.name ++ [c] = (st.name ++ [c]).take st.nameSize ++ 61 :: (value ++ [c])
    rw [take_append_of_le_length hsize, ← cons_append, ← append_assoc, ← hname]

theorem QueryState.marked_equal (st : QueryState) : st.equal.Marked := by
  refine ⟨?_, not_mem_nil⟩
  show st.name ++ [61] = (st.name ++ [61]).take st.name.length ++ [61]
  rw [take_left]

/-- The elements so far, and those to come. -/
theorem elementsOf_foldl (h : st.Marked) (x : List UInt8) :
    elementsOf ((x.foldl QueryState.plain st).out ++ (x.foldl QueryState.plain st).last) =
      elementsOf st.out ++ ((x.splitOn 38).modifyHead (st.name ++ ·)).filterMap lastPairOf := by
  have happend (out out' : List UriComponent) :
      elementsOf (out ++ out') = elementsOf out ++ elementsOf out' := filterMap_append
  induction x generalizing st with
  | nil =>
    rw [foldl_nil, happend, h.last, splitOn_nil, modifyHead_cons, append_nil]
    cases hpair : lastPairOf st.name with
    | none => rw [filterMap_cons_none hpair]; rfl
    | some pair => rw [filterMap_cons_some hpair]; rfl
  | cons c x ih =>
    rw [foldl_cons, splitOn_cons]
    obtain ⟨piece, pieces, hsplit⟩ := exists_cons_of_ne_nil (splitOnP_ne_nil (· == 38) x)
    rw [← List.splitOn] at hsplit
    by_cases hamp : c = 38
    · have hplain : st.plain c = st.ampersand := by
        rw [QueryState.plain, hamp]
        rfl
      have hmarked : st.ampersand.Marked := not_mem_nil
      rw [if_pos hamp, hplain, ih hmarked, hsplit]
      show elementsOf (st.out ++ st.last) ++ (piece :: pieces).filterMap lastPairOf =
        elementsOf st.out ++ ((st.name ++ []) :: piece :: pieces).filterMap lastPairOf
      rw [happend, h.last, append_nil, append_assoc]
      cases hpair : lastPairOf st.name with
      | none => rw [filterMap_cons_none hpair]; rfl
      | some pair => rw [filterMap_cons_some hpair]; rfl
    · have hplain : (st.plain c).Marked ∧ (st.plain c).out = st.out ∧
          (st.plain c).name = st.name ++ [c] := by
        rw [QueryState.plain]
        split
        · next hc =>
          rw [hc]
          exact ⟨st.marked_equal, rfl, rfl⟩
        · next hc =>
          exact ⟨h.push hc, rfl, rfl⟩
      obtain ⟨hmarked, hout, hname⟩ := hplain
      rw [if_neg hamp, ih hmarked, hout, hname, hsplit]
      show _ ++ ((st.name ++ [c] ++ piece) :: pieces).filterMap lastPairOf =
        _ ++ ((st.name ++ c :: piece) :: pieces).filterMap lastPairOf
      rw [append_assoc, singleton_append]

/-- **The elements that are delivered** for a query. -/
theorem elementsOf_queryOut (q : List UInt8) : elementsOf (queryOut q) = lastPairs q := by
  have hmarked : QueryState.Marked ⟨[], [], [], [], 0, none⟩ := not_mem_nil
  have hfold := elementsOf_foldl hmarked q
  have hhead : (q.splitOn 38).modifyHead ([] ++ ·) = q.splitOn 38 := by
    cases q.splitOn 38 with
    | nil => rfl
    | cons piece pieces => rfl
  rw [hhead] at hfold
  by_cases hq : q = []
  · rw [hq]
    rfl
  · obtain ⟨-, -, hsince⟩ := @foldl_query ⟨[], [], [], [], 0, none⟩ rfl q
    rw [queryOut, if_pos (hsince (.inl hq)), elementsOf, filterMap_append]
    show elementsOf _ ++ [] = _
    rw [append_nil, hfold]
    rfl

end Uri

end Asyncio
