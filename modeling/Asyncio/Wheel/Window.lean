import Mathlib.Data.Nat.ModEq
import Mathlib.Tactic.Ring
import Mathlib.Tactic.Linarith

/-!
# Windows of a rotating slot

A slot that comes round every `p` ticks, at the ticks with residue `r`, stands at any time for one of
them: the first that is not over. `next p r c` is the first such tick from `c` on.

## Main results

* `Window.eq_next` — it is the only one before the slot comes round again
* `Window.next_succ_self`, `Window.next_succ_of_ne` — one tick later it is the same, unless the slot
  was at that tick
-/

namespace Window

variable {p r c x y : ℕ}

/-- The first number from `c` on that has residue `r` modulo `p`. -/
def next (p r c : ℕ) : ℕ := c + (r + (p - c % p)) % p

theorem le_next (p r c : ℕ) : c ≤ next p r c := Nat.le_add_right _ _

theorem next_lt (hp : 0 < p) : next p r c < c + p :=
  Nat.add_lt_add_left (Nat.mod_lt _ hp) c

theorem next_mod (hr : r < p) : next p r c % p = r := by
  have hp : 0 < p := Nat.zero_lt_of_lt hr
  have hc : c % p ≤ p := (Nat.mod_lt c hp).le
  unfold next
  calc (c + (r + (p - c % p)) % p) % p
      = (c % p + (r + (p - c % p))) % p := by rw [Nat.add_mod_mod, Nat.mod_add_mod]
    _ = (r + p) % p := by congr 1; omega
    _ = r := by rw [Nat.add_mod_right, Nat.mod_eq_of_lt hr]

/-- Two numbers with one residue that are less than `p` apart are the same. -/
theorem eq_of_mod_eq (hmod : x % p = y % p) (hle : x ≤ y) (hlt : y < x + p) : x = y := by
  have hdvd : p ∣ y - x := (Nat.modEq_iff_dvd' hle).mp hmod
  have := Nat.eq_zero_of_dvd_of_lt hdvd (by omega)
  omega

theorem eq_next (hr : r < p) (hmod : x % p = r) (hle : c ≤ x) (hlt : x < c + p) :
    x = next p r c := by
  have hnext := next_mod (c := c) hr
  have hp : 0 < p := Nat.zero_lt_of_lt hr
  rcases Nat.le_total x (next p r c) with h | h
  · exact eq_of_mod_eq (hmod.trans hnext.symm) h
      ((next_lt hp).trans_le (Nat.add_le_add_right hle p))
  · exact (eq_of_mod_eq (hnext.trans hmod.symm) h
      (hlt.trans_le (Nat.add_le_add_right (le_next p r c) p))).symm

theorem next_self (hr : r < p) (hc : c % p = r) : next p r c = c :=
  (eq_next hr hc (Nat.le_refl c) (Nat.lt_add_of_pos_right (Nat.zero_lt_of_lt hr))).symm

theorem next_eq_self_iff (hr : r < p) : next p r c = c ↔ c % p = r :=
  ⟨fun h => by rw [← next_mod (c := c) hr, h], next_self hr⟩

theorem next_succ_self (hr : r < p) (hc : c % p = r) : next p r (c + 1) = c + p := by
  have hp : 0 < p := Nat.zero_lt_of_lt hr
  refine (eq_next hr ?_ (by omega) (by omega)).symm
  rw [Nat.add_mod_right, hc]

theorem next_succ_of_ne (hr : r < p) (hc : c % p ≠ r) : next p r (c + 1) = next p r c := by
  have hne := mt (next_eq_self_iff hr).mp hc
  have hle := le_next p r c
  have hlt := next_lt (r := r) (c := c) (Nat.zero_lt_of_lt hr)
  exact (eq_next hr (next_mod hr) (by omega) (by omega)).symm

/-- From any tick up to the slot's own, it is the same. -/
theorem next_eq_of_le (hr : r < p) (hle : c ≤ x) (hx : x ≤ next p r c) :
    next p r x = next p r c := by
  have hlt := next_lt (r := r) (c := c) (Nat.zero_lt_of_lt hr)
  exact (eq_next hr (next_mod hr) hx (by omega)).symm

theorem next_mono (hr : r < p) (h : c ≤ x) : next p r c ≤ next p r x := by
  rcases Nat.le_total x (next p r c) with hx | hx
  · exact (next_eq_of_le hr h hx).ge
  · exact hx.trans (le_next p r x)

/-- A whole number of rounds later, it is as much later. -/
theorem next_add_mul (k : ℕ) : next p r (c + p * k) = next p r c + p * k := by
  unfold next
  rw [Nat.add_mul_mod_self_left]
  omega

/-- Of two numbers with one residue, the later is the same or at least a round later. -/
theorem eq_or_add_le (hx : x % p = r) (hy : y % p = r) (hle : x ≤ y) : y = x ∨ x + p ≤ y := by
  by_contra h
  push Not at h
  exact h.1 (eq_of_mod_eq (hx.trans hy.symm) hle h.2).symm

end Window
