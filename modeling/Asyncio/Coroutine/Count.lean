import Asyncio.Concurrent.Outline
import Asyncio.Coroutine.Code

/-!
# Calls and yields are counted

While every call makes its increment in time, one thread at most has the coroutine, and the counter
says how many calls are to be answered: none while nobody has it, and otherwise half of what the
counter holds beyond the part of whoever runs. The header asks of the callers that they come in time.
A call that saw the flag clear and makes its increment after the last decrement finds zero, and
switches to a context behind its body.

## Main results

* `Coroutine.calls_counted` — one runner, no call lost or answered twice, one disposal
* `Coroutine.reenters_after_return` — what a late call does
-/

namespace Asyncio

namespace Coroutine

set_option linter.unusedSectionVars false

open Concurrent

variable {τ : Type} {t : τ}

/-! ### The invariant -/

/-- All calls so far came in time, and the counter has not come round. -/
def Fine (g : Ghost τ) : Prop := g.late = false ∧ g.wrapped = false

namespace Phase

/-- The flag is set. -/
def isFinished : Phase τ → Bool
  | returning _ | finished _ | disposing _ | freed _ | gone => true
  | _ => false

def isFreed : Phase τ → Bool
  | freed _ | gone => true
  | _ => false

def isGone : Phase τ → Bool
  | gone => true
  | _ => false

/-- What the counter can be. -/
def Fits (counter : ℕ) : Phase τ → Prop
  | idle => counter = 0
  | claimed _ | running _ | returning _ => counter % 2 = 0 ∧ 2 ≤ counter
  | skipping _ => counter % 2 = 1 ∧ 3 ≤ counter
  | yielded _ | finished _ => counter % 2 = 1
  | disposing _ | freed _ | gone => counter % 2 = 0

end Phase

/-- The memory and the record are what phase `X` says. -/
structure Shape (X : Phase τ) (s : State τ) : Prop where
  word : s.mem.counter < counterWord
  fits : X.Fits s.mem.counter
  finished : s.mem.finished = X.isFinished
  returned : s.mem.returned = X.isFinished
  freed : s.mem.freed = X.isFreed
  runners : s.ghost.runners = X.runner.toList
  last : ∀ t, X.owner = some t → s.ghost.last = some t
  hadRunner : X.isFinished = true → s.ghost.last.isSome = true
  account : X.isFinished = false →
    s.ghost.calls = s.ghost.entered + s.ghost.atOnce + X.pending s.mem.counter
  asserted : s.ghost.asserted = false
  reentered : s.ghost.reentered = false
  dangling : s.ghost.dangling = false
  frees : s.ghost.frees = if X.isFreed then s.ghost.last.toList else []
  finishes : s.ghost.finishes =
    if X.isGone && s.mem.hasFinishCb then s.ghost.last.toList else []

/-- The invariant. -/
def Inv (s : State τ) : Prop := Fine s.ghost → Shape s.ghost.phase s

/-- What thread `t` guarantees of its steps. -/
structure Guar (t : τ) (s s' : State τ) : Prop where
  fine : Fine s'.ghost → Fine s.ghost
  phase : Fine s'.ghost → ∀ u, u ≠ t → s.ghost.phase.owner = some u → s'.ghost.phase = s.ghost.phase
  hasFinishCb : s'.mem.hasFinishCb = s.mem.hasFinishCb

theorem Guar.refl (s : State τ) : Guar t s s := ⟨fun h => h, fun _ _ _ _ => rfl, rfl⟩

/-- The terms on which thread `t` runs. -/
def terms (t : τ) : Terms (State τ) := poolTerms Inv Guar t

/-- Where the coroutine is, if all calls came in time. -/
def At (P : Phase τ → Prop) (s : State τ) : Prop := Fine s.ghost → P s.ghost.phase

variable {P : Phase τ → Prop}

theorem stable_at (hP : ∀ X, P X → X.owner = some t) :
    Stable (terms t) (At P) := by
  rintro s s' hi hi' ⟨u, hu, hg⟩ hs hfine
  have hphase := hs (hg.fine hfine)
  rw [hg.phase hfine t hu.symm (hP _ hphase)]
  exact hphase

variable {X : Phase τ}

theorem stable_phase (hX : X.owner = some t) : Stable (terms t) (At (· = X)) :=
  stable_at fun _ h => h ▸ hX

/-! ### Accesses of whoever has the coroutine -/

/-- The state after an access. -/
def after {β : Type} (f : State τ → β × State τ) (s : State τ) : State τ :=
  ⟨(f s).2.mem, { (f s).2.ghost with dangling := s.ghost.dangling || s.mem.freed }⟩

/-- An access in a phase that is the thread's own. -/
theorem outline_access {β : Type} {f : State τ → β × State τ}
    {Q : β → State τ → Prop} (hP : ∀ X, P X → X.owner = some t) (hQ : ∀ x, Stable (terms t) (Q x))
    (hfine : ∀ s, Fine (f s).2.ghost → Fine s.ghost)
    (hcb : ∀ s, (f s).2.mem.hasFinishCb = s.mem.hasFinishCb)
    (h : ∀ s X, P X → Shape X s → s.ghost.phase = X →
      Shape (f s).2.ghost.phase (after f s) ∧ Q (f s).1 (after f s))
    (hQfine : ∀ x s, (Fine s.ghost → Q x s) → Q x s) :
    Outline (terms t) (At P) (access f) Q := by
  refine .act (stable_at hP) hQ fun s x s' heq hi hs => ?_
  cases heq
  have hstep := fun hf : Fine s.ghost => h s _ (hs hf) (hi hf) rfl
  refine ⟨fun hf => (hstep (hfine s hf)).1, ⟨hfine s, fun hf u hu ho => ?_, hcb s⟩,
    hQfine _ _ fun hf => (hstep (hfine s hf)).2⟩
  exact absurd (Option.some.inj (ho.symm.trans (hP _ (hs (hfine s hf))))) hu

/-- `dangling` stays clear where the memory is not freed. -/
theorem Shape.not_dangling {s : State τ} (hs : Shape X s)
    (h : X.isFreed = false) : (s.ghost.dangling || s.mem.freed) = false := by
  rw [hs.dangling, hs.freed, h]
  rfl

/-- A decrement in a phase that is the thread's own. -/
theorem outline_decrement {note : ℕ → Ghost τ → Ghost τ}
    {Q : ℕ → Phase τ → Prop} (hP : ∀ X, P X → X.owner = some t) (hQ : ∀ x, Stable (terms t) (At (Q x)))
    (hfine : ∀ c g, Fine (note c g) → Fine g)
    (h : ∀ s X, P X → Shape X s → s.ghost.phase = X → 1 ≤ s.mem.counter ∧
      X.isFreed = false ∧ Shape (note s.mem.counter s.ghost).phase
        ⟨{ s.mem with counter := s.mem.counter - 1 },
          { note s.mem.counter s.ghost with dangling := false }⟩ ∧
      Q s.mem.counter (note s.mem.counter s.ghost).phase) :
    Outline (terms t) (At P) (decrement note) fun x => At (Q x) := by
  refine outline_access hP hQ (fun s => hfine _ _) (fun s => s.mem.decrement_hasFinishCb)
    (fun s X hX hs heq => ?_) fun _ _ hq hf => hq hf hf
  obtain ⟨hpos, hfreed, hshape, hq⟩ := h s X hX hs heq
  simp only [after, Mem.decrement_eq hs.word hpos, hs.not_dangling hfreed]
  exact ⟨hshape, fun _ => hq⟩

/-! ### The coroutine -/

theorem outline_coroutineYield :
    Outline (terms t) (At (· = .running t)) (coroutineYield t)
      fun switched => At (· = if switched then .yielded t else .running t) := by
  refine .bind (M := fun counter => At (· = if counter = 2 then .yielded t else .skipping t))
    (outline_decrement (by rintro _ rfl; rfl) ?_ (fun _ _ h => h) ?_) fun counter => ?_
  · intro counter
    split <;> exact stable_phase rfl
  · rintro s _ rfl hs -
    obtain ⟨heven, hlow⟩ := hs.fits
    have hword := hs.word
    have haccount := hs.account rfl
    refine ⟨by omega, rfl, ?_, rfl⟩
    have hasserted : (s.ghost.asserted || decide (s.mem.counter < 2)) = false := by
      rw [hs.asserted, Bool.false_or, decide_eq_false_iff_not]
      omega
    by_cases h2 : s.mem.counter = 2
    · simp only [if_pos h2, hasserted]
      exact
        { hs with
          word := by simp only; omega
          fits := by simp only [Phase.Fits]; omega
          account := fun _ => by simp only [Phase.pending] at *; omega
          asserted := rfl
          dangling := rfl }
    · simp only [if_neg h2, hasserted]
      exact
        { hs with
          word := by simp only; omega
          fits := by simp only [Phase.Fits]; omega
          account := fun _ => by simp only [Phase.pending] at *; omega
          asserted := rfl
          dangling := rfl }
  · by_cases h2 : counter = 2
    · simp only [h2, ne_eq, not_true_eq_false, if_false, if_true]
      exact .ret (stable_phase rfl) fun s _ hs => hs
    · simp only [h2, ne_eq, not_false_eq_true, if_false, if_true]
      refine .bind (M := fun _ => At (· = .running t)) (outline_decrement (by rintro _ rfl; rfl)
        (fun _ => stable_phase rfl) (fun _ _ h => h) ?_) fun _ =>
        .ret (stable_phase rfl) fun s _ hs => hs
      -- the yield answers one of the calls
      rintro s _ rfl hs -
      obtain ⟨hodd, hlow⟩ := hs.fits
      have hword := hs.word
      have haccount := hs.account rfl
      refine ⟨by omega, rfl, ?_, rfl⟩
      exact
        { hs with
          word := by simp only; omega
          fits := by simp only [Phase.Fits]; omega
          account := fun _ => by simp only [Phase.pending] at *; omega
          dangling := rfl }

theorem outline_fiberReturn :
    Outline (terms t) (At (· = .running t)) (fiberReturn t) fun _ => At (· = .finished t) := by
  refine .bind (M := fun _ => At (· = .returning t)) (outline_access (by rintro _ rfl; rfl)
    (fun _ => stable_phase rfl) (fun _ h => h) (fun _ => rfl) ?_ fun _ _ hq hf => hq hf hf) fun _ =>
    .bind (M := fun _ => At (· = .finished t)) (outline_decrement (by rintro _ rfl; rfl)
      (fun _ => stable_phase rfl) (fun _ _ h => h) ?_) fun _ =>
    .ret (stable_phase rfl) fun s _ hs => hs
  · rintro s _ rfl hs -
    exact ⟨{ hs with
      finished := rfl
      returned := rfl
      hadRunner := fun _ => by simp [after, hs.last t rfl]
      account := fun h => by simp [Phase.isFinished] at h
      dangling := hs.not_dangling rfl }, fun _ => rfl⟩
  · rintro s _ rfl hs -
    obtain ⟨heven, hlow⟩ := hs.fits
    have hword := hs.word
    refine ⟨by omega, rfl, ?_, rfl⟩
    exact
      { hs with
        word := by simp only; omega
        fits := by simp only [Phase.Fits]; omega
        account := fun h => by simp [Phase.isFinished] at h
        dangling := rfl }

/-- The coroutine has switched back to thread `t`. -/
def Back (t : τ) (X : Phase τ) : Prop := X = .yielded t ∨ X = .finished t

theorem Back.owner (h : Back t X) : X.owner = some t := by
  rcases h with rfl | rfl <;> rfl

theorem outline_runBody :
    Outline (terms t) (At (· = .running t)) (runBody t) fun _ => At (Back t) := by
  have hback : Stable (terms t) (At (Back t)) := stable_at fun _ h => h.owner
  refine .loop (fun _ => At (· = .running t)) () (fun _ => ?_) fun _ => hback
  refine .bind (M := fun _ => At (· = .running t)) (.pick (stable_phase rfl)
    (fun _ => stable_phase rfl) ?_) fun yields => ?_
  · rintro s _ s' rfl hi hs
    exact ⟨hi, Guar.refl s', hs⟩
  cases yields with
  | true =>
    refine .bind outline_coroutineYield fun switched => ?_
    cases switched with
    | true => exact .ret (stable_phase rfl) fun s _ hs hf => .inl (hs hf)
    | false => exact .ret (stable_phase rfl) fun s _ hs => hs
  | false =>
    exact .bind outline_fiberReturn fun _ =>
      .ret (stable_phase rfl) fun s _ hs hf => .inr (hs hf)

theorem outline_switchContext :
    Outline (terms t) (At (· = .claimed t)) (switchContext t) fun _ => At (Back t) := by
  have hentered : ∀ returned, Stable (terms t) fun s : State τ =>
      Fine s.ghost → returned = false ∧ s.ghost.phase = .running t := by
    intro returned
    exact stable_at (P := fun X => returned = false ∧ X = .running t)
      fun _ h => h.2 ▸ rfl
  refine .bind (M := fun returned s => Fine s.ghost → returned = false ∧ s.ghost.phase = .running t)
    (outline_access (by rintro _ rfl; rfl) hentered (fun _ h => h) (fun _ => rfl) ?_
      fun _ _ hq hf => hq hf hf)
    fun returned => ?_
  · rintro s _ rfl hs -
    have hfits := hs.fits
    have haccount := hs.account rfl
    refine ⟨{ hs with
      account := fun _ => ?_
      reentered := ?_
      dangling := hs.not_dangling rfl }, fun _ => ⟨hs.returned, rfl⟩⟩
    · simp only [Phase.pending, Phase.Fits, after] at *
      omega
    · simp only [after, hs.reentered, hs.returned, Phase.isFinished, Bool.or_self]
  · cases returned with
    | true =>
      refine .act (hentered true) (fun _ => stable_at fun _ => Back.owner) fun s x s' heq => ?_
      simp at heq
    | false => exact outline_runBody.pre (hentered false) fun s _ hs hf => (hs hf).2

/-! ### The caller -/

/-- A call in time that finds zero finds the coroutine idle. -/
theorem Shape.eq_idle {s : State τ} (hs : Shape X s) (hfreed : s.mem.freed = false)
    (htime : s.mem.finished = true → s.mem.counter ≠ 0) (hzero : s.mem.counter = 0) : X = .idle := by
  have hfits := hs.fits
  have hfinished := hs.finished
  have hX := hs.freed
  rw [hzero] at hfits
  cases X with
  | idle => rfl
  | disposing => exact absurd hzero (htime hfinished)
  | freed | gone => simp [hfreed, Phase.isFreed] at hX
  | _ => simp [Phase.Fits] at hfits

/-- One more call is to be answered. -/
theorem Phase.pending_add {c : ℕ} (h : X.Fits c) (hc : c ≠ 0) :
    X.Fits (c + 2) ∧ X.pending (c + 2) = X.pending c + 1 := by
  cases X <;> simp only [Phase.Fits, Phase.pending] at * <;> omega

/-- A call's increment, in time. -/
theorem Shape.increment {s : State τ} (hs : Shape X s) (hfreed : s.mem.freed = false)
    (htime : s.mem.finished = true → s.mem.counter ≠ 0) (hword : s.mem.counter + 2 < counterWord)
    {phase : Phase τ} {late wrapped : Bool} :
    Shape (if s.mem.counter = 0 then .claimed t else X)
      ⟨{ s.mem with counter := s.mem.counter + 2 }, { s.ghost with
          calls := s.ghost.calls + 1
          runners := if s.mem.counter = 0 then t :: s.ghost.runners else s.ghost.runners
          last := if s.mem.counter = 0 then some t else s.ghost.last
          phase := phase
          late := late
          wrapped := wrapped }⟩ := by
  by_cases hzero : s.mem.counter = 0
  · obtain rfl := hs.eq_idle hfreed htime hzero
    have haccount := hs.account rfl
    simp only [if_pos hzero]
    exact
      { hs with
        word := hword
        fits := by simp [Phase.Fits, hzero]
        runners := congrArg (t :: ·) hs.runners
        last := fun u hu => hu
        hadRunner := fun _ => rfl
        account := fun _ => by simp only [Phase.pending, hzero] at *; omega }
  · obtain ⟨hfits, hpending⟩ := Phase.pending_add hs.fits hzero
    simp only [if_neg hzero]
    exact
      { hs with
        word := hword
        fits := hfits
        account := fun h => by
          have := hs.account h
          simp only [hpending]
          omega }

theorem outline_incrementByCall :
    Outline (terms t) (fun _ : State τ => True) (incrementByCall t)
      fun counter s => counter = 0 → At (· = .claimed t) s := by
  refine .act (Stable.pure True) (fun counter => ?_) fun s x s' heq hi _ => ?_
  · exact fun s s' hi hi' hrely hs hx => stable_phase rfl s s' hi hi' hrely (hs hx)
  split at heq
  · simp at heq
  next hfreed =>
  have hfreed : s.mem.freed = false := by simpa using hfreed
  cases heq
  -- what a call in time has not done
  have hfine : ∀ {g : Ghost τ}, (g.late = (s.ghost.late ||
        (s.mem.finished && decide (s.mem.counter = 0)))) →
      g.wrapped = (s.ghost.wrapped || decide (counterWord ≤ s.mem.counter + 2)) → Fine g →
      Fine s.ghost ∧ (s.mem.finished = true → s.mem.counter ≠ 0) ∧
        s.mem.counter + 2 < counterWord := by
    rintro g hlate hwrapped ⟨h1, h2⟩
    rw [hlate] at h1
    rw [hwrapped] at h2
    simp only [Bool.or_eq_false_iff, Bool.and_eq_false_iff, decide_eq_false_iff_not] at h1 h2
    refine ⟨⟨h1.1, h2.1⟩, fun hf => h1.2.resolve_left (by simp [hf]), Nat.lt_of_not_le h2.2⟩
  refine ⟨fun hf => ?_, ⟨fun hf => (hfine rfl rfl hf).1, fun hf u hu ho => ?_, rfl⟩, fun hx hf => ?_⟩
  · obtain ⟨hf, htime, hword⟩ := hfine rfl rfl hf
    rw [Nat.mod_eq_of_lt hword]
    exact (hi hf).increment hfreed htime hword
  · obtain ⟨hf, htime, hword⟩ := hfine rfl rfl hf
    refine if_neg fun hzero => ?_
    rw [(hi hf).eq_idle hfreed htime hzero] at ho
    simp [Phase.owner] at ho
  · exact if_pos hx

section Caller

variable [DecidableEq τ]

/-- What a runner knows when it has read the flag. -/
def Read (t : τ) (finished : Bool) (X : Phase τ) : Prop :=
  X = if finished then .finished t else .yielded t

theorem Read.owner {finished : Bool} (h : Read t finished X) : X.owner = some t := by
  cases finished <;> exact h ▸ rfl

/-- What a runner's decrement leaves it with. -/
def Left (t : τ) (finished : Bool) (counter : ℕ) (X : Phase τ) : Prop :=
  if finished then X = .disposing t else counter ≠ 1 → X = .claimed t

theorem stable_left (finished : Bool) (counter : ℕ) :
    Stable (terms t) (At (Left t finished counter)) := by
  unfold Left
  split
  · exact stable_phase rfl
  · by_cases h1 : counter = 1
    · exact fun s s' _ _ _ _ _ hne => absurd h1 hne
    · exact fun s s' hi hi' hrely hs hf hne =>
        stable_phase (X := .claimed t) rfl s s' hi hi' hrely (fun hf => hs hf hne) hf

theorem outline_runnerDecrement (finished : Bool) :
    Outline (terms t) (At (Read t finished))
      (decrement fun counter g =>
        { g with
          runners := if counter = 1 ∨ finished then g.runners.erase t else g.runners
          phase := if finished then .disposing t else if counter = 1 then .idle else .claimed t })
      fun counter => At (Left t finished counter) := by
  refine outline_decrement (fun _ h => h.owner) (stable_left finished) (fun _ _ h => h) ?_
  rintro s _ rfl hs -
  have hword := hs.word
  have hrunners := hs.runners
  cases finished with
  | true =>
    replace hs : Shape (.finished t) s := hs
    have hodd : s.mem.counter % 2 = 1 := hs.fits
    refine ⟨by omega, rfl, ?_, rfl⟩
    simp only [if_true, or_true]
    exact
      { hs with
        word := by simp only; omega
        fits := by simp only [Phase.Fits]; omega
        runners := by simp [hrunners, Phase.runner]
        account := fun h => by simp [Phase.isFinished] at h
        dangling := rfl }
  | false =>
    replace hs : Shape (.yielded t) s := hs
    have hodd : s.mem.counter % 2 = 1 := hs.fits
    have haccount := hs.account rfl
    refine ⟨by omega, rfl, ?_, fun hne => by simp [hne]⟩
    by_cases h1 : s.mem.counter = 1
    · simp only [h1, Bool.false_eq_true, or_false, if_true, if_false]
      exact
        { hs with
          word := by simp only; omega
          fits := rfl
          runners := by simp [hrunners, Phase.runner]
          last := fun u hu => by simp [Phase.owner] at hu
          account := fun _ => by simp only [h1, Phase.pending] at *; omega
          dangling := rfl }
    · simp only [h1, Bool.false_eq_true, or_self, if_false]
      exact
        { hs with
          word := by simp only; omega
          fits := by simp only [Phase.Fits]; omega
          account := fun _ => by simp only [Phase.pending] at *; omega
          dangling := rfl }

theorem outline_runnerLoop :
    Outline (terms t) (At (· = .claimed t)) (runnerLoop t)
      fun finished s => finished = true → At (· = .disposing t) s := by
  have hpost : ∀ finished, Stable (terms t) fun s : State τ =>
      finished = true → At (· = .disposing t) s :=
    fun finished s s' hi hi' hrely hs hf => stable_phase rfl s s' hi hi' hrely (hs hf)
  refine .loop (fun _ => At (· = .claimed t)) () (fun _ => ?_) hpost
  refine .bind outline_switchContext fun _ =>
    .bind (M := fun finished => At (Read t finished))
      (outline_access (fun _ => Back.owner) (fun _ => stable_at fun _ => Read.owner) (fun _ h => h)
        (fun _ => rfl) ?_ fun _ _ hq hf => hq hf hf) fun finished =>
    .bind (outline_runnerDecrement finished) fun counter => ?_
  · rintro s X hX hs hphase
    have hfreed : X.isFreed = false := by rcases hX with rfl | rfl <;> rfl
    refine ⟨hphase ▸ { hs with dangling := hs.not_dangling hfreed }, fun _ => ?_⟩
    simp only [Read, after, hs.finished]
    rcases hX with rfl | rfl <;> exact hphase
  · cases finished with
    | true =>
      simp only [Bool.true_eq_false, and_false, if_false]
      exact .ret (stable_left true counter) fun s _ hs _ hf => hs hf
    | false =>
      by_cases h1 : counter = 1
      · simp only [h1, ne_eq, not_true_eq_false, false_and, if_false]
        exact .ret (stable_left false 1) fun s _ _ h => by simp at h
      · simp only [h1, ne_eq, not_false_eq_true, and_self, if_true]
        exact .ret (stable_left false counter) fun s _ hs hf => hs hf h1

/-- The thread has what is left of the coroutine, and knows whether there is a `finishCb`. -/
def Disposes (X : Phase τ) (hasFinishCb : Bool) (s : State τ) : Prop :=
  Fine s.ghost → s.ghost.phase = X ∧ s.mem.hasFinishCb = hasFinishCb

theorem stable_disposes (hX : X.owner = some t) (hasFinishCb : Bool) :
    Stable (terms t) (Disposes X hasFinishCb) := by
  rintro s s' hi hi' ⟨u, hu, hg⟩ hs hf
  obtain ⟨hphase, hcb⟩ := hs (hg.fine hf)
  exact ⟨stable_phase hX s s' hi hi' ⟨u, hu, hg⟩ (fun hf => (hs hf).1) hf, hg.hasFinishCb.trans hcb⟩

theorem outline_dispose :
    Outline (terms t) (At (· = .disposing t)) (dispose t) fun _ _ => True := by
  refine .bind (M := fun x => Disposes (.disposing t) x) (outline_access (by rintro _ rfl; rfl)
    (stable_disposes rfl) (fun _ h => h) (fun _ => rfl) ?_ fun _ _ hq hf => hq hf hf)
    fun hasFinishCb => .bind (M := fun _ => Disposes (.freed t) hasFinishCb)
      (.act (stable_disposes rfl _) (fun _ => stable_disposes rfl _) fun s x s' heq hi hs => ?_)
      fun _ => .act (stable_disposes rfl _) (fun _ => Stable.pure True) fun s x s' heq hi hs => ?_
  · rintro s _ rfl hs hphase
    exact ⟨hphase ▸ { hs with dangling := hs.not_dangling rfl }, fun _ => ⟨hphase, rfl⟩⟩
  · cases heq
    refine ⟨fun hf => ?_, ⟨fun hf => hf, fun hf u hu ho => ?_, rfl⟩, fun hf => ⟨rfl, (hs hf).2⟩⟩
    · have hshape : Shape (.disposing t) s := (hs hf).1 ▸ hi hf
      have hlast := hshape.last t rfl
      exact
        { hshape with
          freed := rfl
          dangling := hshape.not_dangling rfl
          frees := by simp [hshape.frees, hlast, Phase.isFreed] }
    · rw [(hs hf).1] at ho
      exact absurd (Option.some.inj ho).symm hu
  · cases heq
    refine ⟨fun hf => ?_, ⟨fun hf => hf, fun hf u hu ho => ?_, rfl⟩, trivial⟩
    · obtain ⟨hphase, hcb⟩ := hs hf
      have hshape : Shape (.freed t) s := hphase ▸ hi hf
      have hlast := hshape.last t rfl
      exact
        { hshape with
          last := fun u hu => by simp [Phase.owner] at hu
          finishes := by
            cases hasFinishCb <;> simp [hshape.finishes, hlast, hcb, Phase.isGone] }
    · rw [(hs hf).1] at ho
      exact absurd (Option.some.inj ho).symm hu

theorem outline_caller : Outline (terms t) (fun _ => True) (caller t) fun _ _ => True := by
  have htrue : Stable (terms t) fun _ : State τ => True := Stable.pure True
  refine .loop (fun _ _ => True) () (fun _ => ?_) fun _ => htrue
  refine .bind (M := fun _ _ => True) ?_ fun _ => .ret htrue fun _ _ _ => trivial
  refine .bind (M := fun _ _ => True) (.act htrue (fun _ => htrue) fun s x s' heq hi _ => ?_)
    fun finished => ?_
  · split at heq
    · simp at heq
    · cases heq
      exact ⟨hi, Guar.refl s, trivial⟩
  cases finished with
  | true => exact .ret htrue fun _ _ _ => trivial
  | false =>
    refine .bind outline_incrementByCall fun counter => ?_
    have hclaimed : Stable (terms t) fun s : State τ => counter = 0 → At (· = .claimed t) s :=
      fun s s' hi hi' hrely hs hx => stable_phase rfl s s' hi hi' hrely (hs hx)
    by_cases hzero : counter = 0
    · subst hzero
      refine .bind (outline_runnerLoop.pre hclaimed fun s _ hs => hs rfl)
        fun finished => .bind (M := fun _ _ => True) ?_ fun _ => .ret htrue fun _ _ _ => trivial
      cases finished with
      | true =>
        refine outline_dispose.pre (fun s s' hi hi' hrely hs _ => ?_) fun s _ hs => hs rfl
        exact stable_phase rfl s s' hi hi' hrely (hs rfl)
      | false =>
        refine .ret (fun s s' hi hi' hrely hs h => ?_) fun _ _ _ => trivial
        simp at h
    · simp only [hzero, ne_eq, not_false_eq_true, if_true]
      exact .ret (by simpa [hzero] using hclaimed) fun _ _ _ => trivial

/-! ### Runs -/

/-- A new coroutine, with or without a `finishCb`. -/
def State.initial (hasFinishCb : Bool) : State τ where
  mem := ⟨0, false, hasFinishCb, false, false⟩
  ghost := ⟨.idle, [], none, 0, 0, 0, false, false, false, [], [], false, false⟩

theorem Inv.initial (hasFinishCb : Bool) : Inv (State.initial hasFinishCb : State τ) := by
  refine fun _ => ⟨?_, rfl, rfl, rfl, rfl, rfl, ?_, ?_, ?_, rfl, rfl, rfl, rfl, rfl⟩
  · rw [counterWord_eq]
    exact Nat.zero_lt_succ _
  · simp [State.initial, Phase.owner]
  · simp [State.initial, Phase.isFinished]
  · simp [State.initial, Phase.pending]

/-- **Calls and yields are counted.** In every reachable state, as long as no call that had read the
flag clear made its increment after the last decrement, and no call made the counter come round:

* at most one thread executes the coroutine or is its runner;
* before the finish, the calls are the times the coroutine was entered, the yields that returned at
  once, and the pending ones, of which there are half of the counter less two while it runs;
* no yield finds less than two, and no context behind its body is entered;
* the memory is freed and `finishCb` called by the last runner, at most once, and as soon as nobody
  has the coroutine or what is left of it, once. -/
theorem calls_counted {hasFinishCb : Bool} {c : Config (State τ) τ}
    (hrun : Run ⟨State.initial hasFinishCb, caller⟩ c) (hlate : c.shared.ghost.late = false)
    (hwrapped : c.shared.ghost.wrapped = false) :
    c.shared.ghost.runners.length ≤ 1 ∧
    (∀ t, c.shared.ghost.phase = .running t → c.shared.ghost.runners = [t]) ∧
    (c.shared.mem.finished = false → c.shared.ghost.calls =
      c.shared.ghost.entered + c.shared.ghost.atOnce +
        c.shared.ghost.phase.pending c.shared.mem.counter) ∧
    (∀ t, c.shared.ghost.phase = .running t → 2 ≤ c.shared.mem.counter ∧
      c.shared.ghost.phase.pending c.shared.mem.counter = (c.shared.mem.counter - 2) / 2) ∧
    c.shared.ghost.asserted = false ∧ c.shared.ghost.reentered = false ∧
    c.shared.ghost.dangling = false ∧
    (∀ t ∈ c.shared.ghost.frees ++ c.shared.ghost.finishes, c.shared.ghost.last = some t) ∧
    c.shared.ghost.frees.length ≤ 1 ∧ c.shared.ghost.finishes.length ≤ 1 ∧
    (c.shared.mem.returned = true → c.shared.ghost.phase.owner = none →
      ∃ t, c.shared.ghost.last = some t ∧ c.shared.ghost.frees = [t] ∧
        c.shared.ghost.finishes = if c.shared.mem.hasFinishCb then [t] else []) := by
  have hcallers : ∀ t : τ, Outline (poolTerms Inv Guar t) (fun _ => True) (caller t) fun _ _ => True :=
    fun _ => outline_caller
  have hs := invariant_of_outlines (Inv.initial hasFinishCb) (fun _ => trivial) hcallers hrun
    ⟨hlate, hwrapped⟩
  refine ⟨?_, fun t ht => ?_, fun hf => hs.account (hs.finished.symm.trans hf), fun t ht => ?_,
    hs.asserted, hs.reentered, hs.dangling, fun t ht => ?_, ?_, ?_, fun hr ho => ?_⟩
  · rw [hs.runners]
    exact Option.length_toList_le
  · rw [hs.runners, ht]
    rfl
  · have hfits := hs.fits
    rw [ht] at hfits ⊢
    exact ⟨hfits.2, rfl⟩
  · rw [hs.frees, hs.finishes] at ht
    rcases List.mem_append.mp ht with ht | ht
    · split at ht
      · exact Option.mem_toList.mp ht
      · simp at ht
    · split at ht
      · exact Option.mem_toList.mp ht
      · simp at ht
  · rw [hs.frees]
    split
    · exact Option.length_toList_le
    · exact Nat.zero_le _
  · rw [hs.finishes]
    split
    · exact Option.length_toList_le
    · exact Nat.zero_le _
  · have hfinished := hs.returned.symm.trans hr
    obtain ⟨t, ht⟩ := Option.isSome_iff_exists.mp (hs.hadRunner hfinished)
    have hgone : c.shared.ghost.phase = .gone := by
      cases hX : c.shared.ghost.phase <;> simp [hX, Phase.owner, Phase.isFinished] at ho hfinished ⊢
    refine ⟨t, ht, ?_, ?_⟩
    · simp [hs.frees, hgone, Phase.isFreed, ht]
    · simp [hs.finishes, hgone, Phase.isGone, ht]

end Caller

unseal counterWord in
/-- A thread calls a new coroutine, another call comes in before it first yields, and the yield
returns at once: two calls, one entry and one yield that was answered. -/
theorem calls_counted_twice : ∃ c : Config (State Bool) Bool,
    Run ⟨State.initial true, caller⟩ c ∧ c.shared.ghost.calls = 2 ∧ c.shared.ghost.entered = 1 ∧
      c.shared.ghost.atOnce = 1 ∧ c.shared.ghost.runners.length ≤ 1 := by
  have hrun : ∃ c : Config (State Bool) Bool, Run ⟨State.initial true, caller⟩ c ∧
      c.shared.ghost.late = false ∧ c.shared.ghost.wrapped = false ∧ c.shared.ghost.calls = 2 ∧
      c.shared.ghost.entered = 1 ∧ c.shared.ghost.atOnce = 1 := by
    apply Exists.intro
    apply And.intro
    · apply Relation.ReflTransGen.trans
      · apply Run.of_steps (t := true)
        exact .loop (.bind (.bind (.seq (.act rfl) (.seq (.act rfl) (.bind (.loop (.bind (.bind
          (.seq (.act rfl) (.refl _ _)) _) _)) _))) _) _)
      apply Relation.ReflTransGen.trans
      · apply Run.of_steps (t := false)
        exact Steps.loop (.bind (.bind (Prog.steps_of_eval 1 rfl) _) _)
      · apply Run.of_steps (t := true)
        exact Steps.bind (.bind (.bind (.bind (.bind (.loop (.bind (.seq (.pick (x := true) rfl)
          (.bind (Prog.steps_of_eval 1 rfl) _)) _)) _) _) _) _) _
    · exact ⟨rfl, rfl, rfl, rfl, rfl⟩
  obtain ⟨c, hrun, hlate, hwrapped, hcalls, hentered, hatOnce⟩ := hrun
  exact ⟨c, hrun, hcalls, hentered, hatOnce, (calls_counted hrun hlate hwrapped).1⟩

unseal counterWord in
/-- A late call. One thread reads the flag clear. Another calls, the body returns, and the runner
makes its last decrement. Then the first makes its increment, finds zero, and switches to the context
behind its body. The memory is not freed in all this. -/
theorem reenters_after_return : ∃ c : Config (State Bool) Bool,
    Run ⟨State.initial false, caller⟩ c ∧ c.shared.mem.freed = false ∧
      c.shared.ghost.wrapped = false ∧ c.shared.mem.returned = true ∧
      c.shared.ghost.reentered = true := by
  apply Exists.intro
  apply And.intro
  · apply Relation.ReflTransGen.trans
    · apply Run.of_steps (t := false)
      exact .loop (.bind (.bind (.seq (.act rfl) (.refl _ _)) _) _)
    apply Relation.ReflTransGen.trans
    · apply Run.of_steps (t := true)
      apply Steps.loop
      apply Steps.bind
      apply Steps.bind
      apply Steps.seq (.act rfl)
      apply Steps.seq (.act rfl)
      apply Steps.bind
      apply Steps.loop
      apply Steps.bind
      apply Steps.seq
      · apply Steps.seq (.act rfl)
        apply Steps.loop
        apply Steps.seq
        · apply Steps.seq (.pick (x := false) rfl)
          exact Prog.steps_of_eval 1 rfl
        · exact .refl _ _
      · exact Prog.steps_of_eval 1 rfl
    · apply Run.of_steps (t := false)
      apply Steps.bind
      apply Steps.bind
      apply Steps.seq (.act rfl)
      apply Steps.bind
      apply Steps.loop
      apply Steps.bind
      apply Steps.bind
      exact Steps.seq (.act rfl) (.refl _ _)
  · exact ⟨rfl, rfl, rfl, rfl⟩

end Coroutine

end Asyncio
