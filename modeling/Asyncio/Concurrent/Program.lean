import Mathlib.Data.Nat.Notation
import Mathlib.Logic.Function.Basic
import Mathlib.Logic.Relation

/-!
# Shared-memory programs

A small language for code that runs in several threads over one shared state. A program is a
tree of atomic instructions: an instruction reads and writes the shared state in one step, and
between two instructions any other thread may run. This is sequential consistency, with nothing
weaker expressible.

## What is deliberately absent

There are no local variables: what a thread holds privately is bound by `bind` and passed to its
continuation, exactly as `do` notation writes it. There is no syntax for expressions or for
conditionals either. A conditional is Lean's own `if`, so only the shared accesses of the modelled
code become steps.

## Main definitions

* `Concurrent.Prog` — programs, with `act` for an instruction and `loop` for a retry loop
* `Concurrent.Step` — one step of one thread
* `Concurrent.PoolStep`, `Concurrent.Run` — one step of some thread, and any number of them
-/

namespace Concurrent

open Function

/-- A program over the shared state `S` that returns a `β`. -/
inductive Prog (S : Type) : Type → Type 1
  /-- Return a value; no shared access. -/
  | ret {β : Type} (x : β) : Prog S β
  /-- One atomic instruction. It cannot run where it answers `none`. -/
  | act {β : Type} (f : S → Option (β × S)) : Prog S β
  /-- A choice the code does not make: any answer and next state the relation admits. -/
  | pick {β : Type} (r : S → β → S → Prop) : Prog S β
  /-- Sequencing. -/
  | bind {γ β : Type} (p : Prog S γ) (k : γ → Prog S β) : Prog S β
  /-- Repeat `body`, passing `Sum.inl` to the next turn, until it answers `Sum.inr`. -/
  | loop {σ β : Type} (body : σ → Prog S (σ ⊕ β)) (x : σ) : Prog S β

namespace Prog

variable {S : Type}

instance : Monad (Prog S) where
  pure := Prog.ret
  bind := Prog.bind

end Prog

variable {S : Type}

/-- One step of a program. Only `act` and `pick` touch the shared state. -/
inductive Step : {β : Type} → Prog S β → S → Prog S β → S → Prop
  | act {β : Type} {f : S → Option (β × S)} {s s' : S} {x : β} :
      f s = some (x, s') → Step (.act f) s (.ret x) s'
  | pick {β : Type} {r : S → β → S → Prop} {s s' : S} {x : β} :
      r s x s' → Step (.pick r) s (.ret x) s'
  | bindRet {γ β : Type} {x : γ} {k : γ → Prog S β} {s : S} :
      Step (.bind (.ret x) k) s (k x) s
  | bind {γ β : Type} {p p' : Prog S γ} {k : γ → Prog S β} {s s' : S} :
      Step p s p' s' → Step (.bind p k) s (.bind p' k) s'
  | loop {σ β : Type} {body : σ → Prog S (σ ⊕ β)} {x : σ} {s : S} :
      Step (.loop body x) s (.bind (body x) (Sum.elim (.loop body) .ret)) s

variable {τ : Type}

/-- A pool of threads over one shared state. -/
structure Config (S τ : Type) where
  /-- The shared state. -/
  shared : S
  /-- What each thread still has to run. -/
  threads : τ → Prog S Unit

/-- Some thread takes one step. -/
def PoolStep [DecidableEq τ] (c c' : Config S τ) : Prop :=
  ∃ t p, Step (c.threads t) c.shared p c'.shared ∧ c'.threads = update c.threads t p

/-- Any number of steps, of any threads in any order. -/
def Run [DecidableEq τ] : Config S τ → Config S τ → Prop := Relation.ReflTransGen PoolStep

/-- Any number of steps of one program that runs undisturbed. -/
def Steps {β : Type} (p : Prog S β) (s : S) (p' : Prog S β) (s' : S) : Prop :=
  Relation.ReflTransGen (fun c c' : Prog S β × S => Step c.1 c.2 c'.1 c'.2) (p, s) (p', s')

variable {β : Type}

theorem Steps.refl (p : Prog S β) (s : S) : Steps p s p s :=
  Relation.ReflTransGen.refl

theorem Steps.head {p q p' : Prog S β} {s r s' : S} (h : Step p s q r)
    (hrest : Steps q r p' s') : Steps p s p' s' :=
  Relation.ReflTransGen.head (a := (p, s)) (b := (q, r)) h hrest

variable {s s' : S}

theorem Steps.act {f : S → Option (β × S)} {x : β} (h : f s = some (x, s')) :
    Steps (.act f) s (.ret x) s' := .head (.act h) (.refl _ _)

theorem Steps.pick {r : S → β → S → Prop} {x : β} (h : r s x s') :
    Steps (.pick r) s (.ret x) s' := .head (.pick h) (.refl _ _)

/-- Steps of the first part are steps of the whole. -/
theorem Steps.bind {γ β : Type} {p p' : Prog S γ} (h : Steps p s p' s')
    (k : γ → Prog S β) : Steps (.bind p k) s (.bind p' k) s' :=
  Relation.ReflTransGen.lift (fun c : Prog S γ × S => (Prog.bind c.1 k, c.2))
    (fun _ _ hstep => Step.bind hstep) _ _ h

/-- The first part returns and the second runs on. -/
theorem Steps.seq {γ β : Type} {p : Prog S γ} {k : γ → Prog S β} {q : Prog S β} {x : γ}
    {s r s' : S} (h : Steps p s (.ret x) r) (hk : Steps (k x) r q s') :
    Steps (.bind p k) s q s' :=
  Relation.ReflTransGen.trans (h.bind k) (.head .bindRet hk)

theorem Steps.loop {σ β : Type} {body : σ → Prog S (σ ⊕ β)} {x : σ} {q : Prog S β}
    (h : Steps (.bind (body x) (Sum.elim (.loop body) .ret)) s q s') :
    Steps (.loop body x) s q s' := .head .loop h

/-! ### Programs without choices -/

/-- At most `fuel` turns of a loop. -/
def turns {σ β : Type} (body : σ → S → Option ((σ ⊕ β) × S)) : ℕ → σ → S → Option (β × S)
  | 0, _, _ => none
  | fuel + 1, x, s =>
    match body x s with
    | none => none
    | some (.inl x, s) => turns body fuel x s
    | some (.inr y, s) => some (y, s)

/-- Run a program that makes no choices, with at most `fuel` turns of each loop. -/
def Prog.eval (fuel : ℕ) : {β : Type} → Prog S β → S → Option (β × S)
  | _, .ret x, s => some (x, s)
  | _, .act f, s => f s
  | _, .pick _, _ => none
  | _, .bind p k, s => (p.eval fuel s).bind fun r => (k r.1).eval fuel r.2
  | _, .loop body x, s => turns (fun x => (body x).eval fuel) fuel x s

theorem steps_of_turns {σ β : Type} {body : σ → Prog S (σ ⊕ β)} {fuel limit : ℕ}
    (hbody : ∀ x y s s', (body x).eval fuel s = some (y, s') → Steps (body x) s (.ret y) s')
    {x : σ} {y : β} (h : turns (fun x => (body x).eval fuel) limit x s = some (y, s')):
    Steps (.loop body x) s (.ret y) s' := by
  induction limit generalizing x s with
  | zero => simp [turns] at h
  | succ limit ih =>
    unfold turns at h
    split at h
    · simp at h
    · next heq => exact .loop (.seq (hbody _ _ _ _ heq) (ih h))
    · next heq =>
      obtain ⟨rfl, rfl⟩ := Prod.mk.inj (Option.some.inj h)
      exact .loop (.seq (hbody _ _ _ _ heq) (.refl _ _))

theorem Prog.steps_of_eval (fuel : ℕ) {p : Prog S β} {x : β}
    (h : p.eval fuel s = some (x, s')) : Steps p s (.ret x) s' := by
  induction p generalizing s s' with
  | ret y =>
    obtain ⟨rfl, rfl⟩ := Prod.mk.inj (Option.some.inj h)
    exact .refl _ _
  | act f => exact .act h
  | pick r => simp [Prog.eval] at h
  | bind p k ihp ihk =>
    obtain ⟨⟨y, r⟩, hp, hk⟩ := Option.bind_eq_some_iff.mp h
    exact .seq (ihp hp) (ihk y hk)
  | loop body y ih => exact steps_of_turns (fun y _ _ _ heq => ih y heq) h

/-- A thread that runs undisturbed makes a run of the pool. -/
theorem Run.of_steps [DecidableEq τ] {threads : τ → Prog S Unit} {t : τ} {p : Prog S Unit}
    (h : Steps (threads t) s p s') :
    Run ⟨s, threads⟩ ⟨s', update threads t p⟩ := by
  suffices hrun : ∀ c c' : Prog S Unit × S,
      Relation.ReflTransGen (fun c c' => Step c.1 c.2 c'.1 c'.2) c c' →
      Run ⟨c.2, update threads t c.1⟩ ⟨c'.2, update threads t c'.1⟩ by
    simpa using hrun (threads t, s) (p, s') h
  intro c c' hsteps
  induction hsteps with
  | refl => exact .refl
  | tail _ hstep ih =>
    refine ih.tail ⟨t, _, ?_, (update_idem _ _ _).symm⟩
    simpa using hstep

end Concurrent
