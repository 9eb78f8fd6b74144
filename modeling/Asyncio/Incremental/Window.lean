import Asyncio.Incremental.Parser

/-!
# Parsing through a window

A parser that is fed from a buffer keeps what it has not consumed in the buffer, so it can only go on as
long as this is shorter than the buffer. `Overflows` says that it is not, for the parser on its own;
`Resumes` relates a parser in the middle of its input to the one that is at its start.
-/

namespace Incremental

variable {σ α ε ρ ω : Type}

/-- After `received`, the parser that began in `start` has delivered `out` and is in `state`, with
`pending` before it. -/
def Resumes (step : σ → List α → Step σ α ε ρ) (view : List ε → List ω) (start : σ)
    (received : List α) (state : σ) (pending : List α) (out : List ε) : Prop :=
  ∀ more, Agree view out (parse step start (received ++ more)) (parse step state (pending ++ more))

/-- On `input`, the parser needs more and leaves at least `capacity` elements. -/
def Overflows (step : σ → List α → Step σ α ε ρ) (start : σ) (capacity : ℕ) (input : List α) : Prop :=
  (parse step start input).result = none ∧ capacity ≤ (parse step start input).rest.length

namespace Resumable

variable {step : σ → List α → Step σ α ε ρ} {view : List ε → List ω} (h : Resumable step view)

include h

/-- A call leaves the end of its input. -/
theorem rest_suffix (state : σ) (input : List α) : (parse step state input).rest <:+ input := by
  induction hn : input.length using Nat.strongRecOn generalizing state input with
  | ind n ih =>
    have hleaves := (h.resumable state).leaves input
    rw [h.parse_eq state input]
    cases hstep : step state input with
    | next state' rest out =>
      rw [hstep] at hleaves
      have hlt := ((h.resumable _).next hstep).1
      exact (ih rest.length (by omega) state' rest rfl).trans hleaves
    | need state' rest out =>
      rw [hstep] at hleaves
      exact hleaves
    | stop result state' rest out =>
      rw [hstep] at hleaves
      exact hleaves

end Resumable

section Resumes

variable {step : σ → List α → Step σ α ε ρ} {view : List ε → List ω} {start state : σ}
  {received pending : List α} {out : List ε}

/-- The call on what is pending does what the call on all that was received does. -/
theorem Resumes.agree (hr : Resumes step view start received state pending out) :
    Agree view out (parse step start received) (parse step state pending) := by
  have hagree := hr []
  rwa [List.append_nil, List.append_nil] at hagree

/-- A call that needs more, and then another piece. -/
theorem Resumes.receive (h : Resumable step view)
    (hr : Resumes step view start received state pending out)
    (hnone : (parse step state pending).result = none) (piece : List α) :
    Resumes step view start (received ++ piece) (parse step state pending).state
      ((parse step state pending).rest ++ piece) (out ++ (parse step state pending).out) := by
  intro more
  have hwhole := hr (piece ++ more)
  have hcall := h.parse_append_of_none (piece ++ more) hnone
  rw [List.append_assoc, List.append_assoc]
  refine ⟨hwhole.result.trans hcall.result, fun hend => ?_, hwhole.rest.trans hcall.rest, ?_⟩
  · exact (hwhole.state hend).trans (hcall.state (hwhole.result.symm.trans hend))
  · rw [hwhole.view, hcall.view, h.view_append, List.append_assoc]

/-- Before the window is full, nothing overflows. -/
theorem not_overflows_append (h : Resumable step view) {capacity : ℕ} {input more : List α}
    (hnone : (parse step start input).result = none)
    (hroom : (parse step start input).rest.length + more.length < capacity) :
    ¬Overflows step start capacity (input ++ more) := by
  rintro ⟨-, hfull⟩
  rw [(h.parse_append_of_none more hnone).rest] at hfull
  have hle := (h.rest_suffix (parse step start input).state
    ((parse step start input).rest ++ more)).length_le
  rw [List.length_append] at hle
  omega

/-- After a result, nothing overflows. -/
theorem not_overflows_of_some (h : Resumable step view) {capacity : ℕ} {input : List α} {result : ρ}
    (hsome : (parse step start input).result = some result) (more : List α) :
    ¬Overflows step start capacity (input ++ more) := by
  rintro ⟨hnone, -⟩
  rw [h.parse_append_of_some more hsome] at hnone
  rw [hsome] at hnone
  cases hnone

end Resumes

end Incremental
