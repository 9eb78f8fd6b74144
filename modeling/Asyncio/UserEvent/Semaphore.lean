import Asyncio.UserEvent.Instructions
import Mathlib.Algebra.BigOperators.Group.List.Basic

/-!
# Activations of a semaphore are conserved

A semaphore without callback and without schedule, which nobody deletes. Any threads activate it and
deliver its doorbell, and one thread runs the coroutines that wait on it, one after another. Each
activation is in one place: in the signal state, in the hands of a delivery, in a credit, or it has
released a waiter. And whenever the signal state is not zero, somebody will look at it.

## Main results

* `UserEvent.activations_conserved`
-/

namespace Asyncio

namespace UserEvent

set_option linter.unusedSectionVars false

open Concurrent List

namespace Semaphore

variable {κ τ : Type}

/-- The credits in the waiter word. -/
def credits : Waiter κ → ℕ
  | .credits n => n
  | _ => 0

/-- The counts in the hands of deliveries. -/
def inHand (g : Activations τ) : ℕ := (g.carried.map Prod.snd).sum

/-- A new semaphore without callback. -/
structure Begins (s : State κ τ) : Prop where
  tag : s.mem.tag.deleted = false ∧ s.mem.tag.committed = false
  isSemaphore : s.mem.isSemaphore = true
  hasCallback : s.mem.hasCallback = false
  signalState : s.mem.signalState = 0
  waiter : s.mem.waiter.low = .credits 0
  activations : s.ghost.activations = ⟨0, [], 0, [], []⟩

/-! ### The invariant -/

/-- The invariant. -/
structure Inv (s : State κ τ) : Prop where
  alive : s.mem.tag.deleted = false
  isSemaphore : s.mem.isSemaphore = true
  hasCallback : s.mem.hasCallback = false
  kind : s.mem.waiter.low ≠ .deleted ∧ s.mem.waiter.low.isSleep = false
  account : s.ghost.activations.performed = s.mem.signalState + inHand s.ghost.activations +
    credits s.mem.waiter.low + s.ghost.activations.released
  bell : s.mem.signalState ≠ 0 → s.mem.doorbell = true ∨ s.ghost.activations.edge ≠ [] ∨
    s.ghost.activations.consumed ≠ []

/-- What thread `t` guarantees of its steps. Only `w` commits waiters. -/
structure Guar (w t : τ) (s s' : State κ τ) : Prop where
  tag : t ≠ w → s'.mem.tag = s.mem.tag
  carried : ∀ u n, u ≠ t → (u, n) ∈ s.ghost.activations.carried →
    (u, n) ∈ s'.ghost.activations.carried
  edge : ∀ u, u ≠ t → u ∈ s.ghost.activations.edge → u ∈ s'.ghost.activations.edge
  consumed : ∀ u, u ≠ t → u ∈ s.ghost.activations.consumed → u ∈ s'.ghost.activations.consumed

variable {w t : τ}

theorem Guar.refl (s : State κ τ) : Guar w t s s :=
  ⟨fun _ => rfl, fun _ _ _ h => h, fun _ _ h => h, fun _ _ h => h⟩

/-- The terms on which thread `t` runs. -/
def terms (w t : τ) : Terms (State κ τ) := poolTerms Inv (Guar w) t

theorem stable_true : Stable (terms (κ := κ) w t) fun _ => True := fun _ _ _ _ _ h => h

theorem stable_edge : Stable (terms (κ := κ) w t) fun s => t ∈ s.ghost.activations.edge := by
  rintro s s' _ _ ⟨u, hu, hg⟩ h
  exact hg.edge t hu.symm h

theorem stable_consumed :
    Stable (terms (κ := κ) w t) fun s => t ∈ s.ghost.activations.consumed := by
  rintro s s' _ _ ⟨u, hu, hg⟩ h
  exact hg.consumed t hu.symm h

theorem stable_carried {n : ℕ} :
    Stable (terms (κ := κ) w t) fun s => (t, n) ∈ s.ghost.activations.carried := by
  rintro s s' _ _ ⟨u, hu, hg⟩ h
  exact hg.carried t n hu.symm h

theorem stable_committed {b : Bool} :
    Stable (terms (κ := κ) w w) fun s => s.mem.tag.committed = b := by
  rintro s s' _ _ ⟨u, hu, hg⟩ h
  rw [hg.tag hu]
  exact h

/-! ### Activations and deliveries -/

variable [DecidableEq τ]

theorem outline_userEventActivate :
    Outline (terms (κ := κ) w t) (fun _ => True) (userEventActivate t) fun _ _ => True := by
  refine .bind (M := fun _ _ => True)
    (outline_look stable_true (fun _ => stable_true) Guar.refl fun _ _ _ => trivial) fun deleting => ?_
  split
  · exact .skip stable_true
  refine .bind (M := fun old s => old = 0 → t ∈ s.ghost.activations.edge) (outline_instr stable_true
    (fun _ => .imp fun _ => stable_edge) fun s hi _ => ?_) fun old => ?_
  · have haccount := hi.account
    refine ⟨{ hi with account := ?_, bell := fun _ => ?_ }, { Guar.refl s with edge := ?_ }, fun h0 => ?_⟩
    · simp only [Ghost.onActivations, hi.isSemaphore, if_true]
      simp only [inHand] at *
      omega
    · by_cases h0 : s.mem.signalState = 0
      · simp [Ghost.onActivations, h0]
      · simpa [Ghost.onActivations, h0] using hi.bell h0
    · intro u _ hu
      simp only [Ghost.onActivations]
      split
      · exact mem_cons_of_mem _ hu
      · exact hu
    · simp only at h0
      simp [Ghost.onActivations, h0]
  · split
    · next h0 =>
      refine outline_instr (.imp fun _ => stable_edge)
        (fun _ => stable_true) fun s hi _ => ?_
      refine ⟨{ hi with bell := fun _ => .inl rfl }, { Guar.refl s with edge := fun u hu h => ?_ }, trivial⟩
      exact (mem_erase_of_ne hu).mpr h
    · exact .ret (.imp fun _ => stable_edge) fun _ _ _ => trivial

variable [DecidableEq κ]

theorem credits_resume {low : Waiter κ} {count : ℕ} (hlow : low ≠ .deleted) (hcount : count ≠ 0) :
    credits (low.resume count) + (if low.coroutine.isSome then 1 else 0) =
      credits low + count := by
  cases low with
  | deleted => exact absurd rfl hlow
  | credits n => simp [Waiter.resume, Waiter.coroutine, credits]
  | user k | sleep k =>
    simp only [Waiter.resume, Waiter.coroutine, credits, Option.isSome_some, if_true]
    omega

theorem outline_callTaken {low : Waiter κ} :
    Outline (terms (κ := κ) w t) (fun _ => True) (callTaken t low) fun _ _ => True := by
  unfold callTaken
  split
  · exact .skip stable_true
  · exact outline_instr stable_true (fun _ => stable_true) fun s hi _ =>
      ⟨{ hi with }, { Guar.refl s with }, trivial⟩

/-- A delivery gives its count away. -/
theorem outline_eventCoroutineResume {count : ℕ} (hcount : count ≠ 0) :
    Outline (terms (κ := κ) w t) (fun s => (t, count) ∈ s.ghost.activations.carried)
      (eventCoroutineResume t count true 0) fun _ _ => True := by
  refine .bind (M := fun expected s => (expected.low ≠ .deleted ∧ expected.low.isSleep = false) ∧
    (t, count) ∈ s.ghost.activations.carried)
    (outline_look stable_carried (fun _ => (Stable.pure _).and stable_carried) Guar.refl
      fun s hi hs => ⟨hi.kind, hs⟩) fun expected => ?_
  refine .loop (fun (expected : WaiterWord κ) s =>
    (expected.low ≠ .deleted ∧ expected.low.isSleep = false) ∧
    (t, count) ∈ s.ghost.activations.carried) expected (fun expected => ?_) fun _ => stable_true
  refine .assume stable_carried fun ⟨hdeleted, hsleep⟩ => ?_
  simp only [if_neg hdeleted, hsleep, Bool.and_false]
  refine .bind (M := fun stale s => stale = false ∧ (t, count) ∈ s.ghost.activations.carried)
    (.ret stable_carried fun s _ hs => ⟨rfl, hs⟩) fun stale => .assume stable_carried ?_
  rintro rfl
  refine .bind (M := fun r s => r.1 = false → (r.2.low ≠ .deleted ∧ r.2.low.isSleep = false) ∧
    (t, count) ∈ s.ghost.activations.carried) (outline_casWaiter stable_carried
      (fun _ => .imp fun _ => (Stable.pure _).and stable_carried) Guar.refl ?_ ?_) ?_
  · rintro s hi hs rfl
    have haccount := hi.account
    have hcredits := credits_resume hdeleted hcount
    have hsum := ((perm_cons_erase hs).map Prod.snd).sum_eq
    refine ⟨{ hi with kind := ?_, account := ?_ }, { Guar.refl s with carried := ?_ }, nofun⟩
    · cases s.mem.waiter.low <;> simp [Waiter.resume, Waiter.isSleep]
    · simp only [map_cons, sum_cons] at hsum
      simp only [inHand, if_true] at haccount ⊢
      split at hcredits <;> simp_all <;> omega
    · intro u n hu h
      simp only [if_true]
      exact (mem_erase_of_ne (by simp [hu])).mpr h
  · intro s hi hs _ _
    exact ⟨hi.kind, hs⟩
  · rintro ⟨won, seen⟩
    cases won with
    | true =>
      refine .bind (M := fun _ _ => True) ?_ fun _ => .ret stable_true fun _ _ _ => trivial
      exact outline_callTaken.pre (.imp fun _ => (Stable.pure _).and stable_carried)
        fun _ _ _ => trivial
    | false =>
      exact .ret (.imp fun _ => (Stable.pure _).and stable_carried) fun s _ hs => hs rfl

/-- A delivery that has consumed a doorbell. -/
theorem outline_eventManualReady :
    Outline (terms (κ := κ) w t) (fun s => t ∈ s.ghost.activations.consumed) (eventManualReady t)
      fun _ _ => True := by
  refine .bind (M := fun count s => count ≠ 0 → (t, count) ∈ s.ghost.activations.carried)
    (outline_instr stable_consumed (fun _ => .imp fun _ => stable_carried) fun s hi hs => ?_)
    fun count => ?_
  · have haccount := hi.account
    refine ⟨{ hi with account := ?_, bell := fun h => absurd rfl h },
      { Guar.refl s with carried := ?_, consumed := ?_ }, fun h0 => ?_⟩
    · simp only [inHand] at *
      by_cases h0 : s.mem.signalState = 0 <;> simp [h0] <;> omega
    · intro u n _ h
      dsimp only
      split
      · exact mem_cons_of_mem _ h
      · exact h
    · exact fun u hu h => (mem_erase_of_ne hu).mpr h
    · simp [show s.mem.signalState ≠ 0 from h0]
  split
  · exact .ret (.imp fun _ => stable_carried) fun _ _ _ => trivial
  next hcount =>
  refine .pre (R := fun s => (t, count) ∈ s.ghost.activations.carried) ?_
    (.imp fun _ => stable_carried) fun s _ hs => hs hcount
  refine .bind (M := fun callback s => callback = false ∧ (t, count) ∈ s.ghost.activations.carried)
    (outline_look stable_carried (fun _ => (Stable.pure _).and stable_carried) Guar.refl
      fun s hi hs => ⟨hi.hasCallback, hs⟩) fun callback => .assume stable_carried ?_
  rintro rfl
  refine .bind (M := fun deleting s => deleting = false ∧ (t, count) ∈ s.ghost.activations.carried)
    (outline_read stable_carried (fun _ => (Stable.pure _).and stable_carried) fun s hi hs =>
      ⟨{ hi with }, { Guar.refl s with }, hi.alive, hs⟩) fun deleting => .assume stable_carried ?_
  rintro rfl
  exact outline_eventCoroutineResume hcount

theorem outline_consumeDoorbell :
    Outline (terms (κ := κ) w t) (fun _ => True) (consumeDoorbell t)
      fun _ s => t ∈ s.ghost.activations.consumed := by
  refine .act stable_true (fun _ => stable_consumed) fun s x s' heq hi _ => ?_
  split at heq
  · cases heq
    refine ⟨{ hi with bell := fun _ => .inr (.inr (cons_ne_nil _ _)) },
      { Guar.refl s with consumed := fun u _ h => mem_cons_of_mem _ h }, ?_⟩
    exact mem_cons_self
  · cases heq

/-! ### Waiters -/

/-- An installed waiter is committed; a credit is used up. -/
theorem outline_eventInstallWaiter {k : κ} :
    Outline (terms w w) (fun s => s.mem.tag.committed = false) (eventInstallWaiter w (.user k))
      fun installed s => s.mem.tag.committed = installed := by
  refine .bind (M := fun expected s => expected.low ≠ .deleted ∧ s.mem.tag.committed = false)
    (outline_look stable_committed (fun _ => (Stable.pure _).and stable_committed) Guar.refl
      fun s hi hs => ⟨hi.kind.1, hs⟩) fun expected => ?_
  refine .loop (fun (expected : WaiterWord κ) s =>
    expected.low ≠ .deleted ∧ s.mem.tag.committed = false) expected (fun expected => ?_)
    fun _ => stable_committed
  refine .assume stable_committed fun hdeleted => ?_
  obtain ⟨low, sequence⟩ := expected
  have hblocked : Outline (terms (κ := κ) w w) (fun s => s.mem.tag.committed = false)
      (.act fun _ => none) (Sum.elim (fun (expected : WaiterWord κ) s =>
        expected.low ≠ .deleted ∧ s.mem.tag.committed = false)
        fun (installed : Bool) s => s.mem.tag.committed = installed) := by
    refine .act stable_committed ?_ fun _ _ _ heq => absurd heq (by simp)
    rintro (_ | _)
    exacts [(Stable.pure _).and stable_committed, stable_committed]
  rcases low with (_ | n) | _ | _ | _
  case credits.zero =>
    refine .bind (M := fun r s => (r.1 = false → r.2.low ≠ .deleted) ∧ s.mem.tag.committed = false)
      (outline_casWaiter stable_committed (fun _ => (Stable.pure _).and stable_committed) Guar.refl
        ?_ fun s hi hs _ => ⟨fun _ => hi.kind.1, hs⟩) ?_
    · intro s hi hs heq
      have haccount := hi.account
      rw [heq] at haccount
      exact ⟨{ hi with kind := ⟨nofun, rfl⟩, account := haccount }, { Guar.refl s with }, nofun, hs⟩
    rintro ⟨won, seen⟩
    refine .assume stable_committed fun hseen => ?_
    cases won with
    | false => exact .ret stable_committed fun s _ hs => ⟨hseen rfl, hs⟩
    | true =>
      refine .bind (M := fun oldTag s => oldTag.deleted = false ∧ s.mem.tag.committed = true)
        (outline_instr stable_committed (fun _ => (Stable.pure _).and stable_committed)
          fun s hi hs => ⟨{ hi with alive := ?_ }, { (Guar.refl s : Guar w w s s) with tag := fun h => absurd rfl h },
            hi.alive, ?_⟩) fun oldTag => .assume stable_committed fun halive => ?_
      · simp [Tag.commit, hi.alive, hs]
      · simp [Tag.commit, hs]
      · simp only [halive]
        refine .bind (M := fun _ s => s.mem.tag.committed = true)
          (.ret stable_committed fun s _ hs => hs) fun _ => ?_
        exact .ret stable_committed fun s _ hs => hs
  case credits.succ =>
    refine .bind (M := fun r s => (r.1 = false → r.2.low ≠ .deleted) ∧ s.mem.tag.committed = false)
      (outline_casWaiter stable_committed (fun _ => (Stable.pure _).and stable_committed) Guar.refl
        ?_ fun s hi hs _ => ⟨fun _ => hi.kind.1, hs⟩) ?_
    · intro s hi hs heq
      have haccount := hi.account
      rw [heq] at haccount
      refine ⟨{ hi with kind := ⟨nofun, rfl⟩, account := ?_ }, { Guar.refl s with }, nofun, hs⟩
      simp only [credits, inHand, Ghost.onActivations] at *
      omega
    rintro ⟨won, seen⟩
    refine .assume stable_committed fun hseen => ?_
    cases won with
    | false => exact .ret stable_committed fun s _ hs => ⟨hseen rfl, hs⟩
    | true => exact .ret stable_committed fun s _ hs => hs
  case user | sleep => exact hblocked
  case deleted => exact absurd rfl hdeleted

theorem outline_ioWaitUserEvent {k : κ} :
    Outline (terms w w) (fun s => s.mem.tag.committed = false) (ioWaitUserEvent w k)
      fun _ s => s.mem.tag.committed = false := by
  refine .bind (M := fun _ s => s.mem.tag.committed = false) (outline_look stable_committed
    (fun _ => stable_committed) Guar.refl fun s _ hs => hs) fun deleting => ?_
  split
  · exact .ret stable_committed fun s _ hs => hs
  refine .bind outline_eventInstallWaiter fun installed => ?_
  cases installed with
  | false => exact .ret stable_committed fun s _ hs => hs
  | true =>
    refine .bind (M := fun _ s => s.mem.tag.committed = true) ?_ fun _ => ?_
    · refine .bind (M := fun _ s => s.mem.tag.committed = true) (outline_instr stable_committed
        (fun _ => stable_committed) fun s hi hs => ⟨{ hi with }, { Guar.refl s with }, hs⟩) fun _ => ?_
      refine .act stable_committed (fun _ => stable_committed) fun s x s' heq hi hs => ?_
      split at heq
      · cases heq
      · cases heq
        exact ⟨{ hi with }, { Guar.refl s with }, hs⟩
    · refine .bind (M := fun _ s => s.mem.tag.committed = false) (outline_instr stable_committed
        (fun _ => stable_committed) fun s hi hs => ⟨{ hi with alive := ?_ },
          { (Guar.refl s : Guar w w s s) with tag := fun h => absurd rfl h }, ?_⟩) fun _ =>
        .ret stable_committed fun s _ hs => hs
      · simp [Tag.uncommit, hi.alive, show s.mem.tag.committed = true from hs]
      · simp [Tag.uncommit, show s.mem.tag.committed = true from hs]

/-! ### The system -/

/-- Activate, or deliver a doorbell, any number of times. -/
def otherThread (t : τ) : Prog (State κ τ) Unit :=
  .loop (fun _ : Unit => do
    let activates ← (.pick fun s _ s' => s' = s : Prog (State κ τ) Bool)
    (if activates then userEventActivate t
      else do
        consumeDoorbell t
        eventManualReady t)
    return .inl ()) ()

/-- Any coroutines wait, one after another. -/
def waiterThread (t : τ) : Prog (State κ τ) Unit :=
  .loop (fun _ : Unit => do
    let k ← (.pick fun s _ s' => s' = s : Prog (State κ τ) κ)
    ioWaitUserEvent t k
    return .inl ()) ()

/-- The threads, of which `w` runs the waiters. -/
def threads (w t : τ) : Prog (State κ τ) Unit := if t = w then waiterThread t else otherThread t

theorem outline_threads (t : τ) :
    Outline (terms (κ := κ) w t) (fun s => t = w → s.mem.tag.committed = false) (threads w t)
      fun _ _ => True := by
  unfold threads
  split
  · next heq =>
    subst heq
    refine .pre (R := fun s => s.mem.tag.committed = false) ?_ (.imp fun _ => stable_committed)
      fun s _ hs => hs rfl
    refine .loop (fun _ s => s.mem.tag.committed = false) () (fun _ => ?_) fun _ => stable_true
    refine .bind (M := fun _ s => s.mem.tag.committed = false) (.pick stable_committed
      (fun _ => stable_committed) ?_) fun k =>
      .bind outline_ioWaitUserEvent fun _ => .ret stable_committed fun s _ hs => hs
    rintro _ k s rfl hi hs
    exact ⟨hi, Guar.refl s, hs⟩
  · refine .pre (R := fun _ => True) ?_ (.imp fun h => absurd h ‹_›) fun s _ hs => trivial
    refine .loop (fun _ _ => True) () (fun _ => ?_) fun _ => stable_true
    refine .bind (M := fun _ _ => True) (.pick stable_true (fun _ => stable_true) ?_)
      fun activates => .bind (M := fun _ _ => True) ?_ fun _ => .ret stable_true fun s _ hs => hs
    · rintro _ k s rfl hi hs
      exact ⟨hi, Guar.refl s, hs⟩
    · split
      · exact outline_userEventActivate
      · exact .bind outline_consumeDoorbell fun _ => outline_eventManualReady

theorem Begins.inv {s : State κ τ} (h : Begins s) : Inv s where
  alive := h.tag.1
  isSemaphore := h.isSemaphore
  hasCallback := h.hasCallback
  kind := by simp [h.waiter, Waiter.isSleep]
  account := by simp [h.activations, h.signalState, h.waiter, inHand, credits]
  bell := fun hne => absurd h.signalState hne

end Semaphore

open Semaphore in
/-- **Activations of a semaphore are conserved.** In every state, the activations performed are the
signal state, the counts in the hands of deliveries, the credits and the released waits; and a signal
state that is not zero has a doorbell posted, a thread about to post it, or a delivery about to look
at it. -/
theorem activations_conserved {κ τ : Type} [DecidableEq κ] [DecidableEq τ] (w : τ) (s : State κ τ)
    (hs : Begins s) (c : Concurrent.Config (State κ τ) τ) (hrun : Run ⟨s, threads w⟩ c) :
    c.shared.ghost.activations.performed =
        c.shared.mem.signalState + (c.shared.ghost.activations.carried.map Prod.snd).sum +
          credits c.shared.mem.waiter.low + c.shared.ghost.activations.released ∧
      (c.shared.mem.signalState ≠ 0 →
        c.shared.mem.doorbell = true ∨ (∃ t, t ∈ c.shared.ghost.activations.edge) ∨
          ∃ t, t ∈ c.shared.ghost.activations.consumed) := by
  have hthreads : ∀ t, Outline (poolTerms (S := State κ τ) Inv (Guar w) t)
      (fun s => t = w → s.mem.tag.committed = false) (threads w t) fun _ _ => True :=
    outline_threads
  have hi : Inv c.shared := invariant_of_outlines hs.inv (fun _ _ => hs.tag.2) hthreads hrun
  exact ⟨hi.account, fun hne => (hi.bell hne).imp_right
    (Or.imp (exists_mem_of_ne_nil _) (exists_mem_of_ne_nil _))⟩

open Semaphore in
/-- Two activations and a delivery without a waiter leave two credits, of which a wait takes one. -/
theorem activations_conserved_credit : ∃ c : Concurrent.Config (State Unit Bool) Bool,
    Run ⟨State.fresh true false, threads true⟩ c ∧ c.shared.ghost.activations.performed = 2 ∧
      c.shared.ghost.activations.released = 1 ∧ credits c.shared.mem.waiter.low = 1 := by
  have hrun : ∃ c : Concurrent.Config (State Unit Bool) Bool,
      Run ⟨State.fresh true false, threads true⟩ c ∧ c.shared.mem.signalState = 0 ∧
      c.shared.ghost.activations.carried = [] ∧ c.shared.ghost.activations.performed = 2 ∧
      c.shared.ghost.activations.released = 1 := by
    apply Exists.intro
    apply And.intro
    · apply Relation.ReflTransGen.trans
      · apply Run.of_steps (t := false)
        exact .loop (.seq (.seq (.pick (x := true) rfl) (Prog.steps_of_eval 2 rfl)) (.loop (.seq (.seq
          (.pick (x := true) rfl) (Prog.steps_of_eval 2 rfl)) (.loop (.seq (.seq
          (.pick (x := false) rfl) (Prog.steps_of_eval 2 rfl)) (.refl _ _))))))
      · apply Run.of_steps (t := true)
        exact Steps.loop (.seq (.seq (.pick (x := ()) rfl) (Prog.steps_of_eval 2 rfl)) (.refl _ _))
    · exact ⟨rfl, rfl, rfl, rfl⟩
  obtain ⟨c, hrun, hsignal, hcarried, hperformed, hreleased⟩ := hrun
  have hconserved := (activations_conserved true (State.fresh true false)
    ⟨⟨rfl, rfl⟩, rfl, rfl, rfl, rfl, rfl⟩ c hrun).1
  refine ⟨c, hrun, hperformed, hreleased, ?_⟩
  simp only [hsignal, hcarried, hperformed, hreleased, map_nil, sum_nil] at hconserved
  omega

end UserEvent

end Asyncio
