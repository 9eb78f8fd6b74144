import Mathlib.Computability.Language
import Mathlib.Order.CompletePartialOrder

/-!
# Spans of items

A scanner that repeats one item as long as it finds one reads a word of the star of the language of its
items. If the items are told apart by how they begin, it reads the only such word that no other item
follows.

## Main results

* `Reads.span_append` — a span is read, whatever follows it, as long as this is not an item
* `Reads.span_spec` — what is read is a span
-/

namespace Grammar

open Computability List

variable {α : Type}

/-- Read at most `fuel` items; `item` gives what is left after one. -/
def spanLoop (item : List α → Option (List α)) : ℕ → List α → List α × List α
  | 0, s => ([], s)
  | fuel + 1, s =>
    match item s with
    | none => ([], s)
    | some rest =>
      (s.take (s.length - rest.length) ++ (spanLoop item fuel rest).1, (spanLoop item fuel rest).2)

/-- Read items: what was read, and what is left. -/
def span (item : List α → Option (List α)) (s : List α) : List α × List α :=
  spanLoop item s.length s

/-- `item` reads a word of `l`. -/
structure Reads (item : List α → Option (List α)) (l : Language α) : Prop where
  sound : ∀ {s rest}, item s = some rest → ∃ x ∈ l, x ≠ [] ∧ s = x ++ rest
  complete : ∀ {x}, x ∈ l → x ≠ [] ∧ ∀ rest, item (x ++ rest) = some rest

/-- Induction on the number of words. -/
theorem kstar_induction {l : Language α} {P : List α → Prop} (nil : P [])
    (append : ∀ x ∈ l, ∀ y ∈ l∗, P y → P (x ++ y)) {x : List α} (h : x ∈ l∗) : P x := by
  obtain ⟨words, rfl, hwords⟩ := Language.mem_kstar.mp h
  clear h
  induction words with
  | nil => exact nil
  | cons word words ih =>
    have htail : ∀ y ∈ words, y ∈ l := fun y hy => hwords y (mem_cons_of_mem _ hy)
    have hstar : words.flatten ∈ l∗ := Language.join_mem_kstar htail
    exact append word (hwords word mem_cons_self) _ hstar (ih htail)

theorem append_mem_kstar {l : Language α} {x y : List α} (hx : x ∈ l) (hy : y ∈ l∗) : x ++ y ∈ l∗ :=
  (mul_kstar_le_kstar : l * l∗ ≤ l∗) (Language.append_mem_mul hx hy)

namespace Reads

variable {item : List α → Option (List α)} {l : Language α}

theorem spanLoop_append (h : Reads item l) {x rest : List α} (hx : x ∈ l∗) (hrest : item rest = none)
    {fuel : ℕ} (hfuel : x.length ≤ fuel) : spanLoop item fuel (x ++ rest) = (x, rest) := by
  revert fuel
  refine kstar_induction (P := fun x => ∀ {fuel : ℕ}, x.length ≤ fuel →
    spanLoop item fuel (x ++ rest) = (x, rest)) (fun {fuel} _ => ?_)
    (fun word hword y _ ih {fuel} hfuel => ?_) hx
  · cases fuel with
    | zero => rfl
    | succ fuel => rw [nil_append, spanLoop, hrest]
  · obtain ⟨hne, hitem⟩ := h.complete hword
    have hpos := length_pos_of_ne_nil hne
    rw [length_append] at hfuel
    cases fuel with
    | zero => omega
    | succ fuel =>
      rw [append_assoc, spanLoop, hitem]
      dsimp only
      rw [ih (by omega), length_append, Nat.add_sub_cancel, take_left]

/-- **Completeness.** -/
theorem span_append (h : Reads item l) {x rest : List α} (hx : x ∈ l∗) (hrest : item rest = none) :
    span item (x ++ rest) = (x, rest) :=
  h.spanLoop_append hx hrest (by rw [length_append]; omega)

theorem spanLoop_spec (h : Reads item l) {fuel : ℕ} {s : List α} (hfuel : s.length ≤ fuel) :
    (spanLoop item fuel s).1 ∈ l∗ ∧ (spanLoop item fuel s).1 ++ (spanLoop item fuel s).2 = s ∧
      item (spanLoop item fuel s).2 = none := by
  have hstop {s : List α} (hitem : item s = none) :
      ([] : List α) ∈ l∗ ∧ [] ++ s = s ∧ item s = none :=
    ⟨Language.nil_mem_kstar l, nil_append s, hitem⟩
  induction fuel generalizing s with
  | zero =>
    obtain rfl := eq_nil_of_length_eq_zero (Nat.le_zero.mp hfuel)
    refine hstop (?_ : item [] = none)
    cases hitem : item [] with
    | none => rfl
    | some rest =>
      obtain ⟨x, -, hne, heq⟩ := h.sound hitem
      exact absurd (append_eq_nil_iff.mp heq.symm).1 hne
  | succ fuel ih =>
    rw [spanLoop]
    cases hitem : item s with
    | none => exact hstop hitem
    | some rest =>
      obtain ⟨x, hx, hne, rfl⟩ := h.sound hitem
      have hpos := length_pos_of_ne_nil hne
      rw [length_append] at hfuel
      obtain ⟨hstar, happend, hnone⟩ := @ih rest (by omega)
      dsimp only
      rw [length_append, Nat.add_sub_cancel, take_left]
      exact ⟨append_mem_kstar hx hstar, by rw [append_assoc, happend], hnone⟩

/-- **Soundness.** -/
theorem span_spec (h : Reads item l) (s : List α) :
    (span item s).1 ∈ l∗ ∧ (span item s).1 ++ (span item s).2 = s ∧ item (span item s).2 = none :=
  h.spanLoop_spec le_rfl

theorem span_of_none {s : List α} (hitem : item s = none) : span item s = ([], s) := by
  unfold span
  cases s.length with
  | zero => rfl
  | succ fuel => rw [spanLoop, hitem]

/-- One word more. -/
theorem span_word (h : Reads item l) {w : List α} (hw : w ∈ l) (rest : List α) :
    span item (w ++ rest) = (w ++ (span item rest).1, (span item rest).2) := by
  obtain ⟨hstar, happend, hnone⟩ := h.span_spec rest
  have hspan := h.span_append (append_mem_kstar hw hstar) hnone
  rwa [append_assoc, happend] at hspan

/-- Some words more. -/
theorem span_star (h : Reads item l) {x : List α} (hx : x ∈ l∗) (rest : List α) :
    span item (x ++ rest) = (x ++ (span item rest).1, (span item rest).2) := by
  obtain ⟨hstar, happend, hnone⟩ := h.span_spec rest
  have hboth : x ++ (span item rest).1 ∈ l∗ := by
    rw [← kstar_mul_kstar]
    exact Language.append_mem_mul hx hstar
  have hspan := h.span_append hboth hnone
  rwa [append_assoc, happend] at hspan

end Reads

end Grammar
