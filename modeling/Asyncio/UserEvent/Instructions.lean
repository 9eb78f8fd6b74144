import Asyncio.Concurrent.Outline
import Asyncio.UserEvent.Code

/-!
# Rules for the instructions of a user event

One rule for each kind of access, on any terms that allow a thread to leave the state alone.
-/

namespace Asyncio

namespace UserEvent

open Concurrent

variable {κ τ : Type} {T : Terms (State κ τ)} {P : State κ τ → Prop}

theorem outline_instr {β : Type} {f : Mem κ → β × Mem κ} {note : Mem κ → Ghost τ → Ghost τ}
    {Q : β → State κ τ → Prop} (hP : Stable T P) (hQ : ∀ x, Stable T (Q x))
    (h : ∀ s, T.inv s → P s → T.inv ⟨(f s.mem).2, note s.mem s.ghost⟩ ∧
      T.guar s ⟨(f s.mem).2, note s.mem s.ghost⟩ ∧
      Q (f s.mem).1 ⟨(f s.mem).2, note s.mem s.ghost⟩) :
    Outline T P (instr f note) Q := by
  refine .act hP hQ fun s x s' heq hi hp => ?_
  cases heq
  exact h s hi hp

theorem outline_read {β : Type} {f : Mem κ → β} {note : β → Ghost τ → Ghost τ}
    {Q : β → State κ τ → Prop} (hP : Stable T P) (hQ : ∀ x, Stable T (Q x))
    (h : ∀ s, T.inv s → P s → T.inv ⟨s.mem, note (f s.mem) s.ghost⟩ ∧
      T.guar s ⟨s.mem, note (f s.mem) s.ghost⟩ ∧
      Q (f s.mem) ⟨s.mem, note (f s.mem) s.ghost⟩) :
    Outline T P (read f note) Q :=
  outline_instr hP hQ h

/-- A read that records nothing. -/
theorem outline_look {β : Type} {f : Mem κ → β} {Q : β → State κ τ → Prop} (hP : Stable T P)
    (hQ : ∀ x, Stable T (Q x)) (hrefl : ∀ s, T.guar s s) (h : ∀ s, T.inv s → P s → Q (f s.mem) s):
    Outline T P (read f fun _ => id) Q :=
  outline_instr hP hQ fun s hi hp => ⟨hi, hrefl s, h s hi hp⟩

theorem outline_casWaiter [DecidableEq κ] {expected : WaiterWord κ} {desired : Waiter κ} {won : Ghost τ → Ghost τ}
    {Q : Bool × WaiterWord κ → State κ τ → Prop} (hP : Stable T P) (hQ : ∀ x, Stable T (Q x))
    (hrefl : ∀ s, T.guar s s) (hwon : ∀ s, T.inv s → P s → s.mem.waiter = expected →
      T.inv ⟨{ s.mem with waiter := ⟨desired, expected.sequence + 1⟩ }, won s.ghost⟩ ∧
      T.guar s ⟨{ s.mem with waiter := ⟨desired, expected.sequence + 1⟩ }, won s.ghost⟩ ∧
      Q (true, expected) ⟨{ s.mem with waiter := ⟨desired, expected.sequence + 1⟩ }, won s.ghost⟩)
    (hlost : ∀ s, T.inv s → P s → s.mem.waiter ≠ expected → Q (false, s.mem.waiter) s) :
    Outline T P (casWaiter expected desired won) Q := by
  refine .act hP hQ fun s x s' heq hi hp => ?_
  dsimp only at heq
  split at heq
  · next hc =>
    cases heq
    exact hwon s hi hp hc
  · next hc =>
    cases heq
    exact ⟨hi, hrefl s, hlost s hi hp hc⟩

end UserEvent

end Asyncio
