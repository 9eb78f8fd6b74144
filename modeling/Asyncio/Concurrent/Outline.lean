import Asyncio.Concurrent.Program

/-!
# Proof outlines

A rely/guarantee logic for `Concurrent.Prog`. An outline annotates the points between the
instructions of one thread with assertions about the shared state. Each instruction must keep the
shared invariant `inv` and stay within what the thread guarantees; each assertion must survive
whatever the thread relies on the others to do. Soundness is one preservation lemma, and
`invariant_of_outlines` is what a development uses: outlines for all threads give the invariant
in every state of every run.

The thread's own knowledge is an assertion, so a fact such as "this node is mine" needs some
ghost field of the shared state to be about. Ghost fields are ordinary fields here; what makes
them ghosts is that no instruction's answer depends on them.

## Main results

* `Concurrent.Outline.stable` — every assertion of an outline survives the other threads
* `Concurrent.Outline.step` — one step keeps the invariant and leads to an outlined program
* `Concurrent.invariant_of_outlines` — the invariant holds along every run of a pool
* `Concurrent.guarantee_of_outlines` — and every step of the run is within some guarantee
-/

namespace Concurrent

variable {S : Type}

/-- The terms on which one thread runs: what all threads maintain, what this thread may assume
of a step of another, and what it promises of its own. -/
structure Terms (S : Type) where
  /-- Holds in every state, between any two steps. -/
  inv : S → Prop
  /-- What a step of another thread may do. -/
  rely : S → S → Prop
  /-- What a step of this thread may do. -/
  guar : S → S → Prop

/-- `P` survives every step the thread relies on. -/
def Stable (T : Terms S) (P : S → Prop) : Prop :=
  ∀ s s', T.inv s → T.inv s' → T.rely s s' → P s → P s'

/-- `Outline T P p Q`: started where `P` holds, `p` runs on the terms `T`, and where it returns
`x` the assertion `Q x` holds. -/
inductive Outline (T : Terms S) : {β : Type} → (S → Prop) → Prog S β → (β → S → Prop) → Prop
  | ret {β : Type} {P : S → Prop} {Q : β → S → Prop} {x : β} :
      Stable T P → (∀ s, T.inv s → P s → Q x s) → Outline T P (.ret x) Q
  | act {β : Type} {P : S → Prop} {Q : β → S → Prop} {f : S → Option (β × S)} :
      Stable T P → (∀ x, Stable T (Q x)) →
      (∀ s x s', f s = some (x, s') → T.inv s → P s → T.inv s' ∧ T.guar s s' ∧ Q x s') →
      Outline T P (.act f) Q
  | pick {β : Type} {P : S → Prop} {Q : β → S → Prop} {r : S → β → S → Prop} :
      Stable T P → (∀ x, Stable T (Q x)) →
      (∀ s x s', r s x s' → T.inv s → P s → T.inv s' ∧ T.guar s s' ∧ Q x s') →
      Outline T P (.pick r) Q
  | bind {γ β : Type} {P : S → Prop} {M : γ → S → Prop} {Q : β → S → Prop} {p : Prog S γ}
      {k : γ → Prog S β} :
      Outline T P p M → (∀ x, Outline T (M x) (k x) Q) → Outline T P (.bind p k) Q
  | loop {σ β : Type} {Q : β → S → Prop} {body : σ → Prog S (σ ⊕ β)} (I : σ → S → Prop) (x : σ) :
      (∀ y, Outline T (I y) (body y) (Sum.elim I Q)) → (∀ y, Stable T (Q y)) →
      Outline T (I x) (.loop body x) Q
  | conseq {β : Type} {P R : S → Prop} {Q Q' : β → S → Prop} {p : Prog S β} :
      Stable T P → (∀ s, T.inv s → P s → R s) → Outline T R p Q' →
      (∀ x s, T.inv s → Q' x s → Q x s) → Outline T P p Q
  | obtain {ι β : Type} {P : S → Prop} {R : ι → S → Prop} {Q : β → S → Prop} {p : Prog S β} :
      Stable T P → (∀ s, T.inv s → P s → ∃ i, R i s) → (∀ i, Outline T (R i) p Q) →
      Outline T P p Q

variable {T : Terms S}

/-! ### Stability -/

theorem Stable.and {P Q : S → Prop} (hP : Stable T P) (hQ : Stable T Q) :
    Stable T fun s => P s ∧ Q s :=
  fun s s' hi hi' hr h => ⟨hP s s' hi hi' hr h.1, hQ s s' hi hi' hr h.2⟩

theorem Stable.or {P Q : S → Prop} (hP : Stable T P) (hQ : Stable T Q) :
    Stable T fun s => P s ∨ Q s :=
  fun s s' hi hi' hr h => h.imp (hP s s' hi hi' hr) (hQ s s' hi hi' hr)

theorem Stable.exists {ι : Sort*} {P : ι → S → Prop} (h : ∀ i, Stable T (P i)) :
    Stable T fun s => ∃ i, P i s :=
  fun s s' hi hi' hr ⟨i, hp⟩ => ⟨i, h i s s' hi hi' hr hp⟩

theorem Stable.pure (φ : Prop) : Stable T fun _ => φ := fun _ _ _ _ _ h => h

variable {P : S → Prop}

theorem Stable.imp {φ : Prop} (h : φ → Stable T P) : Stable T fun s => φ → P s :=
  fun s s' hi hi' hr hp hφ => h hφ s s' hi hi' hr (hp hφ)

/-! ### Derived rules -/

variable {β : Type} {p : Prog S β} {Q : β → S → Prop}

/-- The precondition of an outline survives the other threads. -/
theorem Outline.stable (h : Outline T P p Q): Stable T P := by
  induction h with
  | ret hs _ => exact hs
  | act hs _ _ => exact hs
  | pick hs _ _ => exact hs
  | bind _ _ ih _ => exact ih
  | loop I x _ _ ih => exact ih x
  | conseq hs _ _ _ _ => exact hs
  | obtain hs _ _ _ => exact hs

/-- Returning changes nothing. -/
theorem Outline.skip {x : β} (h : Stable T P) (hQ : Q x = P := by rfl) : Outline T P (.ret x) Q :=
  .ret h fun _ _ hp => hQ ▸ hp

/-- Strengthen the precondition. -/
theorem Outline.pre {P R : S → Prop}
    (h : Outline T R p Q) (hP : Stable T P) (hpre : ∀ s, T.inv s → P s → R s) :
    Outline T P p Q :=
  .conseq hP hpre h fun _ _ _ hq => hq

/-- Weaken the postcondition. -/
theorem Outline.post {Q Q' : β → S → Prop}
    (h : Outline T P p Q') (hpost : ∀ x s, T.inv s → Q' x s → Q x s) : Outline T P p Q :=
  .conseq h.stable (fun _ _ hp => hp) h hpost

/-- A fact that does not mention the state may be assumed. -/
theorem Outline.assume {φ : Prop}
    (hP : Stable T P) (h : φ → Outline T P p Q) : Outline T (fun s => φ ∧ P s) p Q :=
  .obtain (R := fun _ : PLift φ => P) ((Stable.pure φ).and hP) (fun _ _ hp => ⟨⟨hp.1⟩, hp.2⟩)
    fun hφ => h hφ.down

/-- **The frame rule.** What survives the others and the thread's own guarantee may be added on
both sides. -/
theorem Outline.frame {P F : S → Prop} (h : Outline T P p Q) (hF : Stable T F)
    (hguar : ∀ s s', T.inv s → T.inv s' → T.guar s s' → F s → F s') :
    Outline T (fun s => P s ∧ F s) p fun x s => Q x s ∧ F s := by
  induction h with
  | ret hs hq => exact .ret (hs.and hF) fun s hi hp => ⟨hq s hi hp.1, hp.2⟩
  | act hP hQ hact =>
    refine .act (hP.and hF) (fun x => (hQ x).and hF) fun s x s' heq hi hp => ?_
    obtain ⟨hi', hg, hq⟩ := hact s x s' heq hi hp.1
    exact ⟨hi', hg, hq, hguar s s' hi hi' hg hp.2⟩
  | pick hP hQ hpick =>
    refine .pick (hP.and hF) (fun x => (hQ x).and hF) fun s x s' hr hi hp => ?_
    obtain ⟨hi', hg, hq⟩ := hpick s x s' hr hi hp.1
    exact ⟨hi', hg, hq, hguar s s' hi hi' hg hp.2⟩
  | bind _ _ ih ihk => exact .bind ih ihk
  | loop I x _ hQ ih =>
    refine .loop (fun y s => I y s ∧ F s) x (fun y => (ih y).post ?_) fun y => (hQ y).and hF
    rintro (_ | _) s _ h <;> exact h
  | conseq hP hpre _ hpost ih =>
    exact .conseq (hP.and hF) (fun s hi hp => ⟨hpre s hi hp.1, hp.2⟩) ih
      fun x s hi hq => ⟨hpost x s hi hq.1, hq.2⟩
  | obtain hP hpre _ ih =>
    refine .obtain (hP.and hF) (fun s hi hp => ?_) ih
    obtain ⟨i, hr⟩ := hpre s hi hp.1
    exact ⟨i, hr, hp.2⟩

/-- Every instruction of the program stays within `R`. -/
inductive Within (R : S → S → Prop) : {β : Type} → Prog S β → Prop
  | ret {β : Type} (x : β) : Within R (.ret x)
  | act {β : Type} {f : S → Option (β × S)} (h : ∀ s x s', f s = some (x, s') → R s s') :
      Within R (.act f)
  | pick {β : Type} {r : S → β → S → Prop} (h : ∀ s x s', r s x s' → R s s') : Within R (.pick r)
  | bind {γ β : Type} {p : Prog S γ} {k : γ → Prog S β} :
      Within R p → (∀ x, Within R (k x)) → Within R (.bind p k)
  | loop {σ β : Type} {body : σ → Prog S (σ ⊕ β)} (x : σ) :
      (∀ y, Within R (body y)) → Within R (.loop body x)

variable {R : S → S → Prop}

/-- A program whose every instruction keeps `P` has it as an outline. -/
theorem Within.outline (h : Within R p) (hP : Stable T P)
    (hR : ∀ s s', R s s' → T.inv s → P s → T.inv s' ∧ T.guar s s' ∧ P s') :
    Outline T P p fun _ => P := by
  induction h with
  | ret x => exact .skip hP
  | act h => exact .act hP (fun _ => hP) fun s x s' heq hi hp => hR s s' (h s x s' heq) hi hp
  | pick h => exact .pick hP (fun _ => hP) fun s x s' hr hi hp => hR s s' (h s x s' hr) hi hp
  | bind _ _ ih ihk => exact .bind ih ihk
  | loop x _ ih =>
    refine .loop (fun _ => P) x (fun y => (ih y).post ?_) fun _ => hP
    rintro (_ | _) s _ hp <;> exact hp

theorem Within.mono {R R' : S → S → Prop} (h : Within R p)
    (hR : ∀ s s', R s s' → R' s s') : Within R' p := by
  induction h with
  | ret x => exact .ret x
  | act h => exact .act fun s x s' heq => hR s s' (h s x s' heq)
  | pick h => exact .pick fun s x s' hr => hR s s' (h s x s' hr)
  | bind _ _ ih ihk => exact .bind ih ihk
  | loop x _ ih => exact .loop x ih

theorem Within.step {p p' : Prog S β} {s s' : S}
    (h : Within R p) (hstep : Step p s p' s') : (s' = s ∨ R s s') ∧ Within R p' := by
  induction h with
  | ret _ => cases hstep
  | act h => cases hstep with
    | act hf => exact ⟨.inr (h _ _ _ hf), .ret _⟩
  | pick h => cases hstep with
    | pick hr => exact ⟨.inr (h _ _ _ hr), .ret _⟩
  | bind _ hk ih _ => cases hstep with
    | bindRet => exact ⟨.inl rfl, hk _⟩
    | bind hst =>
      obtain ⟨hr, hp'⟩ := ih hst
      exact ⟨hr, .bind hp' hk⟩
  | loop x hbody _ =>
    cases hstep
    refine ⟨.inl rfl, .bind (hbody x) ?_⟩
    rintro (y | y)
    · exact .loop y hbody
    · exact .ret y

/-! ### Soundness -/

/-- Where an outlined program has returned, its postcondition holds. -/
theorem Outline.post_of_ret {x : β} {s : S}
    (h : Outline T P (.ret x) Q) (hi : T.inv s) (hP : P s) : Q x s := by
  generalize hp : Prog.ret x = p at h
  induction h with
  | ret _ hq => cases hp; exact hq s hi hP
  | conseq _ hpre _ hpost ih => exact hpost _ s hi (ih (hpre s hi hP) hp)
  | obtain _ hpre _ ih =>
    obtain ⟨i, hr⟩ := hpre s hi hP
    exact ih i hr hp
  | _ => cases hp

/-- **One step.** A step from where the precondition holds keeps the invariant, is within the
guarantee unless it left the state alone, and leads to a program that is outlined again from an
assertion holding there. -/
theorem Outline.step {p p' : Prog S β} {s s' : S}
    (h : Outline T P p Q) (hstep : Step p s p' s') (hi : T.inv s) (hP : P s) :
    T.inv s' ∧ (s' = s ∨ T.guar s s') ∧ ∃ P', Outline T P' p' Q ∧ P' s' := by
  induction h with
  | ret _ _ => cases hstep
  | act _ hQ hact =>
    cases hstep with
    | act hf =>
      obtain ⟨hi', hg, hq⟩ := hact s _ s' hf hi hP
      exact ⟨hi', .inr hg, _, .skip (hQ _), hq⟩
  | pick _ hQ hpick =>
    cases hstep with
    | pick hr =>
      obtain ⟨hi', hg, hq⟩ := hpick s _ s' hr hi hP
      exact ⟨hi', .inr hg, _, .skip (hQ _), hq⟩
  | bind hp hk ih _ =>
    cases hstep with
    | bindRet => exact ⟨hi, .inl rfl, _, hk _, hp.post_of_ret hi hP⟩
    | bind hst =>
      obtain ⟨hi', hg, P', ho, hP'⟩ := ih hst hP
      exact ⟨hi', hg, P', .bind ho hk, hP'⟩
  | loop I x hbody hQ _ =>
    cases hstep
    refine ⟨hi, .inl rfl, I x, .bind (hbody x) ?_, hP⟩
    rintro (y | y)
    · exact .loop I y hbody hQ
    · exact .skip (hQ y)
  | conseq _ hpre _ hpost ih =>
    obtain ⟨hi', hg, P', ho, hP'⟩ := ih hstep (hpre s hi hP)
    exact ⟨hi', hg, P', ho.post hpost, hP'⟩
  | obtain _ hpre _ ih =>
    obtain ⟨i, hr⟩ := hpre s hi hP
    exact ih i hstep hr

/-! ### Pools

All threads share one invariant, and each relies on exactly what the others guarantee. -/

variable {τ : Type}

/-- The terms of thread `t` in a pool whose thread `u` guarantees `guar u`. -/
def poolTerms (inv : S → Prop) (guar : τ → S → S → Prop) (t : τ) : Terms S where
  inv := inv
  rely := fun s s' => ∃ u, u ≠ t ∧ guar u s s'
  guar := guar t

variable [DecidableEq τ] {inv : S → Prop} {guar : τ → S → S → Prop} {c c' : Config S τ}

/-- What every instruction of every thread does, a run does. -/
theorem Within.run (hrefl : ∀ s, R s s) (htrans : ∀ s s' s'', R s s' → R s' s'' → R s s'')
    (h : ∀ t, Within R (c.threads t)) (hrun : Run c c') :
    R c.shared c'.shared ∧ ∀ t, Within R (c'.threads t) := by
  induction hrun with
  | refl => exact ⟨hrefl _, h⟩
  | tail _ hstep ih =>
    obtain ⟨t, p, hst, hth⟩ := hstep
    obtain ⟨hr, hp⟩ := (ih.2 t).step hst
    refine ⟨hr.elim (fun heq => heq ▸ ih.1) (htrans _ _ _ ih.1), fun u => ?_⟩
    rw [hth]
    rcases eq_or_ne u t with rfl | hu
    · rwa [Function.update_self]
    · rw [Function.update_of_ne hu]
      exact ih.2 u

/-- Every thread of the configuration is outlined from an assertion that holds now. -/
def Outlined (inv : S → Prop) (guar : τ → S → S → Prop) (c : Config S τ) : Prop :=
  inv c.shared ∧ ∀ t, ∃ P, Outline (poolTerms inv guar t) P (c.threads t) (fun _ _ => True) ∧
    P c.shared

theorem Outlined.step (h : Outlined inv guar c) (hstep : PoolStep c c') :
    Outlined inv guar c' ∧ (c'.shared = c.shared ∨ ∃ t, guar t c.shared c'.shared) := by
  obtain ⟨hi, hall⟩ := h
  obtain ⟨t, p, hst, hth⟩ := hstep
  obtain ⟨P, ho, hP⟩ := hall t
  obtain ⟨hi', hg, P', ho', hP'⟩ := ho.step hst hi hP
  refine ⟨⟨hi', fun u => ?_⟩, hg.imp id fun hg => ⟨t, hg⟩⟩
  rw [hth]
  rcases eq_or_ne u t with rfl | hu
  · rw [Function.update_self]
    exact ⟨P', ho', hP'⟩
  · rw [Function.update_of_ne hu]
    obtain ⟨Pu, hou, hPu⟩ := hall u
    refine ⟨Pu, hou, ?_⟩
    -- The other thread's assertion survives: either nothing changed, or the change is relied on.
    rcases hg with heq | hg
    · rw [heq]; exact hPu
    · exact hou.stable _ _ hi hi' ⟨t, hu.symm, hg⟩ hPu

theorem Outlined.run (h : Outlined inv guar c) (hrun : Run c c') :
    Outlined inv guar c' := by
  induction hrun with
  | refl => exact h
  | tail _ hstep ih => exact (ih.step hstep).1

/-- **Soundness.** Outlines for all threads, from assertions that hold initially, give the
invariant in every state of every run. -/
theorem invariant_of_outlines {P : τ → S → Prop} (hi : inv c.shared)
    (hP : ∀ t, P t c.shared)
    (ho : ∀ t, Outline (poolTerms inv guar t) (P t) (c.threads t) fun _ _ => True)
    (hrun : Run c c') : inv c'.shared :=
  (Outlined.run ⟨hi, fun t => ⟨P t, ho t, hP t⟩⟩ hrun).1

/-- Along every run, each step leaves the state alone or is within some thread's guarantee. -/
theorem guarantee_of_outlines {c c' c'' : Config S τ} {P : τ → S → Prop} (hi : inv c.shared)
    (hP : ∀ t, P t c.shared)
    (ho : ∀ t, Outline (poolTerms inv guar t) (P t) (c.threads t) fun _ _ => True)
    (hrun : Run c c') (hstep : PoolStep c' c'') :
    c''.shared = c'.shared ∨ ∃ t, guar t c'.shared c''.shared :=
  ((Outlined.run ⟨hi, fun t => ⟨P t, ho t, hP t⟩⟩ hrun).step hstep).2

end Concurrent
