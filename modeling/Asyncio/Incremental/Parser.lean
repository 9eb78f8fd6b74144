import Asyncio.Incremental.Scanner

/-!
# Parsers that are fed piece by piece

A parser works through its input step by step. A step goes on with the rest, or it ends the call: because
it needs more, in which case the next call gets what is left and what has arrived since, or for good.
Each step delivers some events, and `view` is what an observer makes of them.

A parser is `Resumable` if a step does not depend on what follows the input, and a step that needs more
loses nothing: on more input, it does what the next call would do.

## Main results

* `Resumable.feed` — fed piece by piece, the parser does what it does on the whole
-/

namespace Incremental

open List

variable {σ α ε ρ ω : Type}

/-- What one step comes to: the new state, the rest of the input, and what was delivered. -/
inductive Step (σ α ε ρ : Type)
  | next (state : σ) (rest : List α) (out : List ε)
  | need (state : σ) (rest : List α) (out : List ε)
  | stop (result : ρ) (state : σ) (rest : List α) (out : List ε)

/-- What a step leaves of its input. -/
def Step.rest : Step σ α ε ρ → List α
  | .next _ rest _ | .need _ rest _ | .stop _ _ rest _ => rest

/-- How a call ends; without a result, it needs more. -/
structure Outcome (σ α ε ρ : Type) where
  result : Option ρ
  state : σ
  rest : List α
  out : List ε

/-- Something was delivered before. -/
def Outcome.after (out : List ε) (o : Outcome σ α ε ρ) : Outcome σ α ε ρ :=
  { o with out := out ++ o.out }

/-- After `out` was delivered, `P` holds between the steps and `Q` at the end. -/
def Step.Keeps (P : σ → List ε → Prop) (Q : ρ → List ε → Prop) (out : List ε) :
    Step σ α ε ρ → Prop
  | .next state _ out' | .need state _ out' => P state (out ++ out')
  | .stop result _ _ out' => Q result (out ++ out')

/-- The same for a call. -/
def Outcome.Keeps (P : σ → List ε → Prop) (Q : ρ → List ε → Prop) (out : List ε)
    (o : Outcome σ α ε ρ) : Prop :=
  match o.result with
  | none => P o.state (out ++ o.out)
  | some result => Q result (out ++ o.out)

theorem Outcome.Keeps.after {P : σ → List ε → Prop} {Q : ρ → List ε → Prop} {out out' : List ε}
    {o : Outcome σ α ε ρ} (h : o.Keeps P Q (out ++ out')) : (o.after out').Keeps P Q out := by
  obtain ⟨result, state, rest, out''⟩ := o
  cases result with
  | none =>
    show P state (out ++ (out' ++ out''))
    rw [← append_assoc]
    exact h
  | some result =>
    show Q result (out ++ (out' ++ out''))
    rw [← append_assoc]
    exact h

/-- At most `fuel` steps. -/
def loop (step : σ → List α → Step σ α ε ρ) : ℕ → σ → List α → Outcome σ α ε ρ
  | 0, state, input => ⟨none, state, input, []⟩
  | fuel + 1, state, input =>
    match step state input with
    | .next state rest out => (loop step fuel state rest).after out
    | .need state rest out => ⟨none, state, rest, out⟩
    | .stop result state rest out => ⟨some result, state, rest, out⟩

/-- One call of the parser. -/
def parse (step : σ → List α → Step σ α ε ρ) (state : σ) (input : List α) : Outcome σ α ε ρ :=
  loop step (input.length + 1) state input

/-- Feed the parser with one piece after the other, until it has a result. -/
def feed (step : σ → List α → Step σ α ε ρ) (state : σ) (pending : List α) :
    List (List α) → Outcome σ α ε ρ
  | [] => ⟨none, state, pending, []⟩
  | piece :: pieces =>
    let o := parse step state (pending ++ piece)
    match o.result with
    | some _ => { o with rest := o.rest ++ pieces.flatten }
    | none => (feed step o.state o.rest pieces).after o.out

/-- After `out` was delivered, the second step looks like the first. -/
def Similar (view : List ε → List ω) (out : List ε) : Step σ α ε ρ → Step σ α ε ρ → Prop
  | .next state rest out₁, .next state' rest' out₂ =>
    state = state' ∧ rest = rest' ∧ view out₁ = view out ++ view out₂
  | .need state rest out₁, .need state' rest' out₂ =>
    state = state' ∧ rest = rest' ∧ view out₁ = view out ++ view out₂
  | .stop result _ rest out₁, .stop result' _ rest' out₂ =>
    result = result' ∧ rest = rest' ∧ view out₁ = view out ++ view out₂
  | _, _ => False

variable {view : List ε → List ω}

/-- Nothing was delivered. -/
theorem Similar.refl (hview : view [] = []) (s : Step σ α ε ρ) :
    Similar view [] s s := by
  cases s with
  | next => exact ⟨rfl, rfl, by rw [hview, nil_append]⟩
  | need => exact ⟨rfl, rfl, by rw [hview, nil_append]⟩
  | stop => exact ⟨rfl, rfl, by rw [hview, nil_append]⟩

/-- In `state`, a step does the same on more input, and loses nothing if it needs more. -/
structure ResumableAt (step : σ → List α → Step σ α ε ρ) (view : List ε → List ω) (state : σ) :
    Prop where
  leaves : ∀ input, (step state input).rest <:+ input
  /-- To go on, a step must consume something. -/
  next : ∀ {input state' rest out}, step state input = .next state' rest out →
    rest.length < input.length ∧
      ∀ more, step state (input ++ more) = .next state' (rest ++ more) out
  stop : ∀ {input result state' rest out}, step state input = .stop result state' rest out →
    ∀ more, step state (input ++ more) = .stop result state' (rest ++ more) out
  need : ∀ {input state' rest out}, step state input = .need state' rest out →
    ∀ more, Similar view out (step state (input ++ more)) (step state' (rest ++ more))

structure Resumable (step : σ → List α → Step σ α ε ρ) (view : List ε → List ω) : Prop where
  view_nil : view [] = []
  view_append : ∀ out out', view (out ++ out') = view out ++ view out'
  resumable : ∀ state, ResumableAt step view state

/-- Something was delivered before the step. -/
def Step.deliver (out : List ε) : Step σ α ε ρ → Step σ α ε ρ
  | .next state rest out' => .next state rest (out ++ out')
  | .need state rest out' => .need state rest (out ++ out')
  | .stop result state rest out' => .stop result state rest (out ++ out')

theorem Step.rest_deliver (out : List ε) (s : Step σ α ε ρ) : (s.deliver out).rest = s.rest := by
  cases s with
  | next => rfl
  | need => rfl
  | stop => rfl

/-- What was delivered before the steps counts for both of them. -/
theorem Similar.deliver
    (happend : ∀ out out', view (out ++ out') = view out ++ view out') {out out' : List ε}
    {s s' : Step σ α ε ρ} (h : Similar view out' s s') :
    Similar view (out ++ out') (s.deliver out) s' := by
  have hview {out₁ out₂ : List ε} (h : view out₁ = view out' ++ view out₂) :
      view (out ++ out₁) = view (out ++ out') ++ view out₂ := by
    rw [happend, happend, h, append_assoc]
  cases s with
  | next =>
    cases s' with
    | next => exact ⟨h.1, h.2.1, hview h.2.2⟩
    | need => exact h.elim
    | stop => exact h.elim
  | need =>
    cases s' with
    | next => exact h.elim
    | need => exact ⟨h.1, h.2.1, hview h.2.2⟩
    | stop => exact h.elim
  | stop =>
    cases s' with
    | next => exact h.elim
    | need => exact h.elim
    | stop => exact ⟨h.1, h.2.1, hview h.2.2⟩

/-- What a step makes of `input`, with more behind: it goes on, ends, needs more, or falls through to the
step of another state. -/
inductive Settles (step : σ → List α → Step σ α ε ρ) (view : List ε → List ω) (state : σ)
    (input : List α) : Prop
  | next {state' : σ} {rest : List α} {out : List ε} (hrest : rest <:+ input)
      (hlt : rest.length < input.length)
      (hstep : ∀ more, step state (input ++ more) = .next state' (rest ++ more) out)
  | stop {result : ρ} {state' : σ} {rest : List α} {out : List ε} (hrest : rest <:+ input)
      (hstep : ∀ more, step state (input ++ more) = .stop result state' (rest ++ more) out)
  | need {state' : σ} {rest : List α} {out : List ε} (hrest : rest <:+ input)
      (hstep : step state input = .need state' rest out)
      (hmore : ∀ more, Similar view out (step state (input ++ more)) (step state' (rest ++ more)))
  | falls {state' : σ} {rest : List α} {out : List ε} (hstate : ResumableAt step view state')
      (happend : ∀ out out', view (out ++ out') = view out ++ view out') (hrest : rest <:+ input)
      (hstep : ∀ more, step state (input ++ more) = (step state' (rest ++ more)).deliver out)

variable {state : σ} {input : List α} {step : σ → List α → Step σ α ε ρ}

/-- A step that falls through does what the other one does. -/
theorem Settles.resolve (h : Settles step view state input):
    (step state input).rest <:+ input ∧
      match step state input with
      | .next state' rest out => rest.length < input.length ∧
          ∀ more, step state (input ++ more) = .next state' (rest ++ more) out
      | .stop result state' rest out =>
          ∀ more, step state (input ++ more) = .stop result state' (rest ++ more) out
      | .need state' rest out =>
          ∀ more, Similar view out (step state (input ++ more)) (step state' (rest ++ more)) := by
  cases h with
  | next hrest hlt hstep =>
    have hself := hstep []
    rw [append_nil, append_nil] at hself
    rw [hself]
    exact ⟨hrest, hlt, hstep⟩
  | stop hrest hstep =>
    have hself := hstep []
    rw [append_nil, append_nil] at hself
    rw [hself]
    exact ⟨hrest, hstep⟩
  | need hrest hstep hmore =>
    rw [hstep]
    exact ⟨hrest, hmore⟩
  | @falls state' rest out hstate happend hrest hstep =>
    have hself := hstep []
    rw [append_nil, append_nil] at hself
    rw [hself]
    refine ⟨?_, ?_⟩
    · rw [Step.rest_deliver]
      exact (hstate.leaves rest).trans hrest
    cases hs : step state' rest with
    | next state'' rest' out' =>
      obtain ⟨hlt, hnext⟩ := hstate.next hs
      refine ⟨Nat.lt_of_lt_of_le hlt hrest.length_le, fun more => ?_⟩
      rw [hstep, hnext]
      rfl
    | need state'' rest' out' =>
      intro more
      rw [hstep]
      exact (hstate.need hs more).deliver happend
    | stop result state'' rest' out' =>
      intro more
      rw [hstep, hstate.stop hs]
      rfl

theorem ResumableAt.of_settles
    (h : ∀ input, Settles step view state input) : ResumableAt step view state where
  leaves input := (h input).resolve.1
  next {input state' rest out} hs := by
    have hresolve := (h input).resolve.2
    rwa [hs] at hresolve
  stop {input result state' rest out} hs := by
    have hresolve := (h input).resolve.2
    rwa [hs] at hresolve
  need {input state' rest out} hs := by
    have hresolve := (h input).resolve.2
    rwa [hs] at hresolve

/-- What follows a scanner in a step: it goes on or ends with all that was left. -/
def Follows (k : List α → Step σ α ε ρ) : Prop :=
  (∃ state out, ∀ rest, k rest = .next state rest out) ∨
    ∃ result state out, ∀ rest, k rest = .stop result state rest out

/-- A step that scans something, and fails with `failed`. -/
theorem ResumableAt.of_scan {β : Type} (hview : view [] = []) (failed : ρ) {f : List α → Scan α β}
    {k : β → List α → Step σ α ε ρ} (hstep : ∀ input, step state input =
      match f input with
      | .needMoreData => .need state input []
      | .error => .stop failed state input []
      | .ok value rest => k value rest)
    (hf : Stable f) (hshort : Shortens f) (hk : ∀ value, Follows (k value)) :
    ResumableAt step view state := by
  refine .of_settles fun input => ?_
  cases hfx : f input with
  | needMoreData =>
    have hself : step state input = .need state input [] := by rw [hstep, hfx]
    exact .need (suffix_refl input) hself fun more => .refl hview _
  | error =>
    have hmore (more : List α) : step state (input ++ more) = .stop failed state (input ++ more) [] := by
      rw [hstep, hf input more (by rw [hfx]; nofun), hfx]
      rfl
    exact .stop (suffix_refl input) hmore
  | ok value rest =>
    obtain ⟨hsuffix, hlt⟩ := hshort _ _ _ hfx
    have hmore (more : List α) : step state (input ++ more) = k value (rest ++ more) := by
      rw [hstep, hf input more (by rw [hfx]; nofun), hfx]
      rfl
    obtain ⟨s, o, hnext⟩ | ⟨r, s, o, hstop⟩ := hk value
    · exact .next hsuffix hlt fun more => (hmore more).trans (hnext _)
    · exact .stop hsuffix fun more => (hmore more).trans (hstop _)

/-- After `out` was delivered, the second call looks like the first. -/
structure Agree (view : List ε → List ω) (out : List ε) (o o' : Outcome σ α ε ρ) : Prop where
  result : o.result = o'.result
  state : o.result = none → o.state = o'.state
  rest : o.rest = o'.rest
  view : view o.out = view out ++ view o'.out

namespace Resumable

variable {step : σ → List α → Step σ α ε ρ} {view : List ε → List ω} (h : Resumable step view)

include h

/-- More fuel than input changes nothing. -/
theorem loop_eq {fuel : ℕ} (hfuel : input.length < fuel) :
    loop step fuel state input = parse step state input := by
  induction hn : input.length using Nat.strongRecOn generalizing fuel state input with
  | ind n ih =>
    cases fuel with
    | zero => exact absurd hfuel (Nat.not_lt_zero _)
    | succ fuel =>
      rw [parse, loop, loop]
      cases hstep : step state input with
      | next state' rest out =>
        have hlt := ((h.resumable _).next hstep).1
        dsimp only
        rw [ih rest.length (by omega) (by omega) rfl, ih rest.length (by omega) (by omega) rfl]
      | need => rfl
      | stop => rfl

theorem parse_eq (state : σ) (input : List α) :
    parse step state input =
      match step state input with
      | .next state rest out => (parse step state rest).after out
      | .need state rest out => ⟨none, state, rest, out⟩
      | .stop result state rest out => ⟨some result, state, rest, out⟩ := by
  rw [parse, loop]
  cases hstep : step state input with
  | next state' rest out =>
    dsimp only
    rw [h.loop_eq (((h.resumable _).next hstep).1)]
  | need => rfl
  | stop => rfl

/-- What every step keeps, a call keeps. -/
theorem keeps_parse {P : σ → List ε → Prop} {Q : ρ → List ε → Prop}
    (hstep : ∀ state input out, P state out → (step state input).Keeps P Q out)
    {out : List ε} (hP : P state out) (input : List α) :
    (parse step state input).Keeps P Q out := by
  induction hn : input.length using Nat.strongRecOn generalizing state input out with
  | ind n ih =>
    have hone := hstep state input out hP
    rw [h.parse_eq state input]
    cases hs : step state input with
    | next state' rest out' =>
      rw [hs] at hone
      have hlt := ((h.resumable _).next hs).1
      exact .after (ih rest.length (by omega) hone rest rfl)
    | need state' rest out' =>
      rw [hs] at hone
      exact hone
    | stop result state' rest out' =>
      rw [hs] at hone
      exact hone

/-- Steps that look alike lead to calls that look alike. -/
theorem agree_of_similar {out : List ε} {state state' : σ} {input input' : List α}
    (hsim : Similar view out (step state input) (step state' input')) :
    Agree view out (parse step state input) (parse step state' input') := by
  rw [h.parse_eq state input, h.parse_eq state' input']
  cases hs : step state input with
  | next state₁ rest₁ out₁ =>
    cases hs' : step state' input' with
    | next state₂ rest₂ out₂ =>
      rw [hs, hs'] at hsim
      obtain ⟨rfl, rfl, hview⟩ := hsim
      refine ⟨rfl, fun _ => rfl, rfl, ?_⟩
      simp only [Outcome.after]
      rw [h.view_append, h.view_append, hview, append_assoc]
    | need => rw [hs, hs'] at hsim; exact hsim.elim
    | stop => rw [hs, hs'] at hsim; exact hsim.elim
  | need state₁ rest₁ out₁ =>
    cases hs' : step state' input' with
    | next => rw [hs, hs'] at hsim; exact hsim.elim
    | need state₂ rest₂ out₂ =>
      rw [hs, hs'] at hsim
      obtain ⟨rfl, rfl, hview⟩ := hsim
      exact ⟨rfl, fun _ => rfl, rfl, hview⟩
    | stop => rw [hs, hs'] at hsim; exact hsim.elim
  | stop result₁ state₁ rest₁ out₁ =>
    cases hs' : step state' input' with
    | next => rw [hs, hs'] at hsim; exact hsim.elim
    | need => rw [hs, hs'] at hsim; exact hsim.elim
    | stop result₂ state₂ rest₂ out₂ =>
      rw [hs, hs'] at hsim
      obtain ⟨rfl, rfl, hview⟩ := hsim
      exact ⟨rfl, nofun, rfl, hview⟩

/-- A call that needs more, and the next one, do what one call does. -/
theorem parse_append_of_none (more : List α) (hnone : (parse step state input).result = none):
    Agree view (parse step state input).out (parse step state (input ++ more))
      (parse step (parse step state input).state ((parse step state input).rest ++ more)) := by
  induction hn : input.length using Nat.strongRecOn generalizing state input with
  | ind n ih =>
    rw [h.parse_eq state input] at hnone ⊢
    cases hstep : step state input with
    | next state' rest out =>
      have hlt := ((h.resumable _).next hstep).1
      rw [hstep] at hnone
      have hrest := ih rest.length (by omega) hnone rfl
      rw [h.parse_eq state, ((h.resumable _).next hstep).2]
      refine ⟨hrest.result, hrest.state, hrest.rest, ?_⟩
      simp only [Outcome.after]
      rw [h.view_append, h.view_append, hrest.view, append_assoc]
    | need state' rest out =>
      exact h.agree_of_similar ((h.resumable _).need hstep more)
    | stop result state' rest out =>
      rw [hstep] at hnone
      cases hnone

/-- A result stands. -/
theorem parse_append_of_some (more : List α) {result : ρ}
    (hsome : (parse step state input).result = some result) :
    parse step state (input ++ more) =
      { parse step state input with rest := (parse step state input).rest ++ more } := by
  induction hn : input.length using Nat.strongRecOn generalizing state input with
  | ind n ih =>
    rw [h.parse_eq state input] at hsome ⊢
    cases hstep : step state input with
    | next state' rest out =>
      have hlt := ((h.resumable _).next hstep).1
      rw [hstep] at hsome
      rw [h.parse_eq state, ((h.resumable _).next hstep).2]
      dsimp only
      rw [ih rest.length (by omega) hsome rfl]
      rfl
    | need state' rest out =>
      rw [hstep] at hsome
      cases hsome
    | stop result' state' rest out =>
      rw [h.parse_eq state, (h.resumable _).stop hstep]

/-- The same, from where something is pending. -/
theorem feed_of_pending (pending piece : List α) (pieces : List (List α)) :
    Agree view [] (parse step state (pending ++ (piece :: pieces).flatten))
      (feed step state pending (piece :: pieces)) := by
  induction pieces generalizing state pending piece with
  | nil =>
    rw [flatten_cons, flatten_nil, append_nil, feed]
    cases hresult : (parse step state (pending ++ piece)).result with
    | none =>
      refine ⟨hresult, fun _ => rfl, rfl, ?_⟩
      simp [feed, Outcome.after, h.view_nil]
    | some result =>
      refine ⟨hresult, fun _ => rfl, ?_, ?_⟩
      · simp
      · simp [h.view_nil]
  | cons piece' pieces ih =>
    rw [flatten_cons, ← append_assoc, feed]
    cases hresult : (parse step state (pending ++ piece)).result with
    | none =>
      dsimp only
      have hagree := h.parse_append_of_none (piece' :: pieces).flatten hresult
      have hrest := @ih (parse step state (pending ++ piece)).state
        (parse step state (pending ++ piece)).rest piece'
      refine ⟨hagree.result.trans hrest.result, fun hnone => ?_, hagree.rest.trans hrest.rest, ?_⟩
      · rw [hagree.result] at hnone
        exact (hagree.state (hagree.result.trans hnone)).trans (hrest.state hnone)
      · rw [hagree.view, hrest.view]
        simp only [Outcome.after]
        rw [h.view_append, h.view_nil, nil_append, nil_append]
    | some result =>
      dsimp only
      rw [h.parse_append_of_some (piece' :: pieces).flatten hresult]
      refine ⟨hresult, fun _ => rfl, rfl, ?_⟩
      rw [h.view_nil, nil_append]

/-- **Fed piece by piece**, the parser does what it does on the whole. -/
theorem feed {pieces : List (List α)} (hpieces : pieces ≠ []) :
    Agree view [] (parse step state pieces.flatten) (Incremental.feed step state [] pieces) := by
  obtain ⟨piece, pieces, rfl⟩ := exists_cons_of_ne_nil hpieces
  exact h.feed_of_pending [] piece pieces

end Resumable

end Incremental
