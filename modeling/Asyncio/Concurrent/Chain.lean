import Mathlib.Data.List.Nodup

/-!
# Linked chains in memory

`Chain ptr next p es q` says that the word `p` leads through the cells of `es`, in this order, to
the word `q`: `p` is the word that points to the first cell, the first cell's link field is the
word that points to the second, and so on, and the last cell's link field is `q`. A word may carry
more than an address, so `ptr` maps a cell to the whole word.

A stack that threads push onto and one thread reverses in place is a chain throughout: pushing is
`Chain.cons`, and one turn of the reversal moves a cell from one chain to another.
-/

namespace Concurrent

variable {E P : Type} {ptr : E → P}

/-- `p` leads through `es` to `q`. -/
def Chain (ptr : E → P) (next : E → P) : P → List E → P → Prop
  | p, [], q => p = q
  | p, e :: es, q => p = ptr e ∧ Chain ptr next (next e) es q

@[simp] theorem chain_nil {next : E → P} {p q : P} : Chain ptr next p [] q ↔ p = q := Iff.rfl

@[simp] theorem chain_cons {next : E → P} {p q : P} {e : E} {es : List E} :
    Chain ptr next p (e :: es) q ↔ p = ptr e ∧ Chain ptr next (next e) es q := Iff.rfl

/-- A chain depends on the link fields of its own cells only. -/
theorem Chain.congr {next next' : E → P} {p q : P} {es : List E} (h : Chain ptr next p es q)
    (heq : ∀ e ∈ es, next' e = next e) : Chain ptr next' p es q := by
  induction es generalizing p with
  | nil => exact h
  | cons e es ih =>
    refine ⟨h.1, ?_⟩
    rw [heq e (List.mem_cons_self ..)]
    exact ih h.2 fun f hf => heq f (List.mem_cons_of_mem _ hf)

/-- Where no cell's word is the last word `q`, only the empty chain starts at `q`. -/
theorem Chain.eq_nil {next : E → P} {q : P} {es : List E} (h : Chain ptr next q es q)
    (hq : ∀ e ∈ es, ptr e ≠ q) : es = [] := by
  cases es with
  | nil => rfl
  | cons e es => exact absurd h.1.symm (hq e (List.mem_cons_self ..))

end Concurrent
