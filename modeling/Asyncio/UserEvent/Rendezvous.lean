import Asyncio.UserEvent.Cancellation

/-!
# Deleting an event under a waiting coroutine

One coroutine waits and sleeps on an event, other threads activate it, run its timer, deliver its
doorbells, and one of them deletes it.

## Main results

* `cancellation_reaches_waiter` — a deletion never leaves the waiter asleep, and nobody wakes it twice
-/

namespace Asyncio

namespace UserEvent

set_option linter.unusedSectionVars false

open Concurrent

namespace Cancellation

variable {κ τ : Type} [DecidableEq κ] [DecidableEq τ] {w t : τ} {k : κ} {first : ℕ} {d : Duty}

/-! ### The system -/

/-- What a thread other than the waiting one can do. -/
inductive Call
  | hold
  | drop
  | activate
  | startTimer (usTimeout : ℕ) (counter : ℤ)
  | stopTimer
  | delete
  /-- A signal of the timer, also a stale one. -/
  | signal (timerGeneration eventGeneration tickCount : ℕ)
  /-- The delivery of a doorbell. -/
  | deliver

/-- What the waiting thread can do. -/
inductive Wait
  | hold
  | drop
  | wait
  | sleep (usTimeout : ℕ)

/-- `body`, as a call. -/
def asCall (t : τ) (body : Prog (State κ τ) Unit) : Prog (State κ τ) Unit := do
  enter t
  body
  leave t

/-- A loop thread delivers a doorbell of the incarnation `first`. -/
def deliver (first : ℕ) (t : τ) : Prog (State κ τ) Unit := do
  consumeDoorbell t
  let claimed ← eventTryClaimReference t first true
  (if claimed then do
    eventManualReady t
    eventDecrementReference t 1
  else return ())
  leave t

def Call.run (first : ℕ) (t : τ) : Call → Prog (State κ τ) Unit
  | hold => obtainReference t
  | drop => asCall t (eventDecrementReference t 1)
  | activate => asCall t (userEventActivate t)
  | startTimer usTimeout counter => asCall t (userEventStartTimer t usTimeout counter)
  | stopTimer => asCall t (userEventStopTimer t)
  | delete => do
    beginDelete t
    asCall t (deleteUserEvent t)
  | signal timerGeneration eventGeneration tickCount =>
    asCall t (eventTimerSignal t timerGeneration eventGeneration tickCount)
  | deliver => Cancellation.deliver first t

def Wait.run (w : τ) (k : κ) : Wait → Prog (State κ τ) Unit
  | hold => obtainReference w
  | drop => asCall w (eventDecrementReference w 1)
  | wait => asCall w (ioWaitUserEvent w k)
  | sleep usTimeout => asCall w (ioSleep w k usTimeout)

/-- Whether the thread holds a reference after the call, if `holds` says whether before it. -/
def Call.after (holds : Bool) : Call → Bool
  | hold => true
  | drop => false
  | _ => holds

def Wait.after : Wait → Bool
  | drop => false
  | _ => true

/-- A thread that does not wait: it drops a reference that it holds. -/
def otherThread (first : ℕ) (t : τ) : Prog (State κ τ) Unit :=
  .loop (fun holds => do
    let call ← (.pick fun s (call : Call) s' => s' = s ∧
      (call = .hold → holds = false) ∧ (call = .drop → holds = true))
    call.run first t
    return .inl (call.after holds)) false

/-- The coroutine `k`: it waits and sleeps with a reference of its own. -/
def waiterThread (w : τ) (k : κ) : Prog (State κ τ) Unit :=
  .loop (fun holds => do
    let call ← (.pick fun s (call : Wait) s' => s' = s ∧ (call = .hold ↔ holds = false))
    call.run w k
    return .inl (Wait.after call)) false

def threads (w : τ) (k : κ) (first : ℕ) (t : τ) : Prog (State κ τ) Unit :=
  if t = w then waiterThread w k else otherThread first t

/-! ### Outlines -/

/-- Between calls, with a reference or not. -/
def Duty.between (holds : Bool) : Duty := { Duty.idle with held := if holds then 1 else 0 }

theorem spec_leaveCall (holds cancelled : Bool) :
    Spec w k first t (Knows (κ := κ) w t { Duty.between holds with
      busy := 1, cancelling := cancelled.toNat } (cancelled = true)) (leave t) fun _ =>
      At w t (.between holds) := by
  have hdone : Duty.Done { Duty.between holds with busy := 1, cancelling := cancelled.toNat } :=
    ⟨rfl, rfl, rfl, rfl, cancelled.toNat_le⟩
  cases cancelled with
  | true =>
    exact .conseq stable_knows (fun s _ hs => ⟨hs.1, fun _ => hs.2 rfl⟩) (spec_leave hdone)
      fun _ s _ hs => hs
  | false =>
    exact .conseq stable_knows (fun s _ hs => ⟨hs.1, fun h => absurd rfl h⟩) (spec_leave hdone)
      fun _ s _ hs => hs

theorem spec_asCall {holds holds' : Bool} {P : State κ τ → Prop} {body : Prog (State κ τ) Unit}
    (hP : Stable (poolTerms (Inv w k first) (Guar w) t) P)
    (hkeep : ∀ s f, P s → P ⟨s.mem, s.ghost.onDeletion f⟩)
    (hbody : Spec w k first t (fun s => At w t { Duty.between holds with busy := 1 } s ∧ P s) body
      fun _ => At w t { Duty.between holds' with busy := 1 }) :
    Spec w k first t (fun s => At w t (.between holds) s ∧ P s) (asCall t body) fun _ =>
      At w t (.between holds') :=
  .bind (spec_enter hP hkeep) fun _ => .bind hbody fun _ => .pre
    (spec_leaveCall _ false) stable_at fun _ _ hs => ⟨hs, nofun⟩

theorem spec_call {holds holds' : Bool} {body : Prog (State κ τ) Unit}
    (hbody : Spec w k first t (At w t { Duty.between holds with busy := 1 }) body
      fun _ => At w t { Duty.between holds' with busy := 1 }) :
    Spec w k first t (At w t (.between holds)) (asCall t body) fun _ => At w t (.between holds') :=
  .pre (spec_asCall (P := fun _ => True) (Stable.pure True) (fun _ _ h => h)
    (.pre hbody (stable_at.and (Stable.pure True)) fun _ _ hs => hs.1)) stable_at
    fun _ _ hs => ⟨hs, trivial⟩

theorem spec_deliver {holds : Bool} :
    Spec w k first t (At w t (.between holds)) (deliver first t) fun _ =>
      At w t (.between holds) := by
  refine .bind spec_consumeDoorbell fun _ => .bind (spec_eventTryClaimReference (.inr ⟨rfl, rfl⟩))
    fun claimed => ?_
  refine .bind (M := fun _ s => ∃ cancelled : Bool, Knows w t { Duty.between holds with
    busy := 1, cancelling := cancelled.toNat } (cancelled = true) s) ?_ fun _ => .obtain
    (.exists fun _ => stable_knows) (fun _ _ hs => hs) (spec_leaveCall _)
  cases claimed with
  | true =>
    refine .bind (.post (spec_eventManualReady ?_ ?_ ?_) fun _ _ _ hs => hs) fun _ => .obtain
      (.exists fun _ => stable_knows) (fun _ _ hs => hs) fun cancelled => ?_
    · exact nofun
    · rfl
    · rfl
    have hsentinel : Stable (poolTerms (Inv w k first) (Guar w) t)
        fun s : State κ τ => cancelled = true → s.mem.waiter.low = .deleted :=
      .imp fun _ => stable_sentinel
    refine .post (.frame (spec_eventDecrementReference ?_ ?_) hsentinel fun s s' _ _ hg h heq => ?_)
      fun _ s _ hs => ⟨cancelled, hs⟩
    · exact nofun
    · rfl
    · rw [(hg.sentinel (h heq)).1]
      exact h heq
  | false => exact .ret stable_at fun s _ hs => ⟨false, hs, nofun⟩

theorem spec_run {holds : Bool} {call : Call} (hhold : call = .hold → holds = false)
    (hdrop : call = .drop → holds = true) :
    Spec w k first t (At (κ := κ) w t (.between holds)) (call.run first t) fun _ =>
      At w t (.between (call.after holds)) := by
  cases call with
  | hold =>
    obtain rfl := hhold rfl
    exact spec_obtainReference
  | drop =>
    obtain rfl := hdrop rfl
    exact spec_call (.post (spec_eventDecrementReference nofun rfl) fun _ _ _ hs => hs)
  | activate => exact spec_call spec_userEventActivate
  | startTimer usTimeout counter => exact spec_call spec_userEventStartTimer
  | stopTimer => exact spec_call spec_userEventStopTimer
  | delete =>
    refine .bind (.post spec_beginDelete fun _ _ _ hs => hs) fun _ => ?_
    refine .bind (spec_enter stable_deleting fun _ _ h => ⟨h.1, h.2, h.3⟩) fun _ => .bind
      (spec_deleteUserEvent nofun rfl rfl nofun rfl) fun _ => .pre
      (spec_leaveCall holds false) stable_at fun _ _ hs => ⟨hs, nofun⟩
  | signal timerGeneration eventGeneration tickCount =>
    exact spec_call (spec_eventTimerSignal rfl rfl rfl)
  | deliver => exact spec_deliver

theorem spec_wait {holds : Bool} {call : Wait} (hhold : call = .hold ↔ holds = false) :
    Spec w k first w (At w w (.between holds)) (call.run w k) fun _ =>
      At w w (.between call.after) := by
  have hholds (hne : call ≠ .hold) : holds = true := by
    by_contra h
    exact hne (hhold.mpr (by simpa using h))
  cases call with
  | hold =>
    obtain rfl := hhold.mp rfl
    exact spec_obtainReference
  | drop =>
    obtain rfl := hholds nofun
    exact spec_call (.post (spec_eventDecrementReference nofun rfl) fun _ _ _ hs => hs)
  | wait =>
    obtain rfl := hholds nofun
    exact spec_call spec_ioWaitUserEvent
  | sleep usTimeout =>
    obtain rfl := hholds nofun
    exact spec_call spec_ioSleep

theorem outline_threads (t : τ) :
    Outline (poolTerms (S := State κ τ) (Inv w k first) (Guar w) t) (At w t .idle)
      (threads w k first t) fun _ _ => True := by
  unfold threads
  split
  · next htw =>
    subst htw
    refine .loop (fun holds => At t t (.between holds)) false (fun holds => ?_) fun _ => Stable.pure _
    refine .bind (M := fun (call : Wait) s => (call = .hold ↔ holds = false) ∧
      At t t (.between holds) s) (.pick stable_at (fun _ => (Stable.pure _).and stable_at) ?_)
      fun call => .assume stable_at fun hcall => ?_
    · rintro _ call s ⟨rfl, hcall⟩ hi hs
      exact ⟨hi, .refl t t s, hcall, hs⟩
    · exact .bind (spec_wait hcall) fun _ => .skip stable_at
  · refine .loop (fun holds => At w t (.between holds)) false (fun holds => ?_) fun _ => Stable.pure _
    refine .bind (M := fun (call : Call) s => ((call = .hold → holds = false) ∧
      (call = .drop → holds = true)) ∧ At w t (.between holds) s)
      (.pick stable_at (fun _ => (Stable.pure _).and stable_at) ?_) fun call =>
      .assume stable_at fun hcall => ?_
    · rintro _ call s ⟨rfl, hcall⟩ hi hs
      exact ⟨hi, .refl w t s, hcall, hs⟩
    · exact .bind (spec_run hcall.1 hcall.2) fun _ => .skip stable_at

/-- A new event without a callback, in any incarnation, with any credits and signals, on which nobody
waits and which nobody has deleted. -/
structure Begins (k : κ) (s : State κ τ) : Prop where
  tag : s.mem.tag = ⟨1, false, false⟩
  callback : s.mem.hasCallback = false
  waiter : s.mem.waiter.low.coroutine = none
  wakeups : s.mem.wakeups k = 0
  schedules : s.ghost.schedules.deleteCalled = false ∧ s.ghost.schedules.deleting = none
  consumed : s.ghost.activations.consumed = []
  deletion : s.ghost.deletion = ⟨[], [], [], [], [], 0, [], [], false⟩
  held : s.ghost.life.held = []

variable {s : State κ τ}

theorem Begins.inv (h : Begins k s) (w : τ) : Inv w k s.mem.incarnation s where
  callback := h.callback
  refs := by simp [h.tag, h.held, h.schedules.1]
  incarnation := fun _ => rfl
  deleted := by simp [h.tag]
  deleting := by simp [h.schedules.2]
  only := by simp [h.waiter]
  holds := by simp [h.deletion]
  committed := by simp [h.waiter]
  inside := by simp [h.deletion, h.consumed]
  pending := by simp [h.waiter]
  calls := by simp [h.wakeups, h.deletion, h.waiter]
  once := by simp [taken, h.deletion]
  installed := by simp [taken, h.deletion]
  fresh := by simp [h.waiter]

theorem Begins.idle (h : Begins k s) (w t : τ) : At w t .idle s := by
  simp [At, duty, Duty.idle, h.tag, h.deletion, h.consumed, h.held]

/-! ### The last delivery -/

/-- A claim that the tag admits succeeds, if nobody interferes. -/
theorem steps_claim (hadmits : s.mem.tag.admits true = true) :
    ∃ life, Steps (eventTryClaimReference t s.mem.incarnation true) s (.ret true)
      ⟨{ s.mem with tag := { s.mem.tag with refs := s.mem.tag.refs + 1 } },
        { s.ghost with life := life }⟩ := by
  have hread : Steps (read (·.tag) fun low => giveUp t (low.admits true)) s (.ret s.mem.tag) s :=
    .act (by simp [giveUp, hadmits])
  apply Exists.intro
  apply hread.seq
  apply Steps.loop
  apply Steps.seq
  · dsimp only
    rw [if_neg (by simp [hadmits])]
    apply Steps.seq
    · exact .act (if_pos ⟨rfl, rfl⟩)
    · exact .refl _ _
  · exact .refl _ _

/-- A cancellation calls the waiter that is in the word, if nobody interferes. -/
theorem steps_cancel {j : κ} (hj : s.mem.waiter.low.coroutine = some j) :
    ∃ s', Steps (eventCoroutineCancel t) s (.ret ()) s' ∧ s'.mem.waiter.low = .deleted ∧
      s.ghost.deletion.installs ∈ s'.ghost.deletion.called ∧
      s'.mem.wakeups j = s.mem.wakeups j + 1 ∧ s'.mem.tag = s.mem.tag := by
  have hne : s.mem.waiter.low ≠ .deleted := by
    intro h
    rw [h] at hj
    cases hj
  apply Exists.intro
  apply And.intro
  · apply Steps.seq
    · exact .act rfl
    apply Steps.loop
    apply Steps.seq
    · rw [if_neg hne]
      apply Steps.seq
      · exact .act (if_pos rfl)
      · dsimp only
        rw [if_pos rfl, callTaken, hj]
        apply Steps.seq
        · exact .act rfl
        · exact .refl _ _
    · exact .refl _ _
  · refine ⟨rfl, ?_, ?_, rfl⟩
    · simp [Ghost.onDeletion, Deletion.take, hj]
    · simp

/-- On a deleted event, a delivery goes on to cancel. -/
theorem steps_ready (hcallback : s.mem.hasCallback = false)
    (hsignal : s.mem.signalState ≠ 0) (hdeleted : s.mem.tag.deleted = true) :
    ∃ ghost, Steps (eventManualReady t) s (eventCoroutineCancel t)
        ⟨{ s.mem with signalState := 0 }, ghost⟩ ∧
      ghost.deletion.installs = s.ghost.deletion.installs := by
  apply Exists.intro
  apply And.intro
  · apply Steps.seq
    · exact .act rfl
    dsimp only
    rw [if_neg hsignal]
    apply Steps.seq
    · exact .act rfl
    dsimp only
    rw [hcallback, if_neg nofun]
    apply Steps.seq
    · exact .act rfl
    dsimp only
    rw [hdeleted, if_pos rfl]
    apply Steps.seq
    · exact .act rfl
    exact .refl _ _
  · rfl

/-- The delivery of a cancellation calls the waiter, if nobody interferes. -/
theorem steps_deliver {j : κ} (hcallback : s.mem.hasCallback = false)
    (hbell : s.mem.doorbell = true) (hsignal : s.mem.signalState ≠ 0)
    (hadmits : s.mem.tag.admits true = true) (hdeleted : s.mem.tag.deleted = true)
    (hj : s.mem.waiter.low.coroutine = some j) :
    ∃ s', Steps (deliver s.mem.incarnation t) s (.ret ()) s' ∧ s'.mem.waiter.low = .deleted ∧
      s.ghost.deletion.installs ∈ s'.ghost.deletion.called ∧
      s'.mem.wakeups j = s.mem.wakeups j + 1 := by
  have hrefs : s.mem.tag.refs ≠ 0 := by
    simp only [Tag.admits, Bool.and_eq_true, decide_eq_true_eq] at hadmits
    exact hadmits.1
  have hconsume : ∃ ghost : Ghost τ, Steps (consumeDoorbell t) s (.ret ())
      ⟨{ s.mem with doorbell := false }, ghost⟩ ∧
      ghost.deletion.installs = s.ghost.deletion.installs := ⟨_, .act (if_pos hbell), rfl⟩
  obtain ⟨ghost, hconsume, hinstalls⟩ := hconsume
  obtain ⟨life, hclaim⟩ := steps_claim (t := t) (s := ⟨{ s.mem with doorbell := false }, ghost⟩) hadmits
  obtain ⟨ghost', hready, hinstalls'⟩ := steps_ready (t := t) (s := ⟨{ s.mem with
    doorbell := false
    tag := { s.mem.tag with refs := s.mem.tag.refs + 1 } }, { ghost with life := life }⟩)
    hcallback hsignal hdeleted
  obtain ⟨s', hcancel, hword, hcalled, hwakeups, htag⟩ := steps_cancel (t := t) (s := ⟨{ s.mem with
    doorbell := false
    signalState := 0
    tag := { s.mem.tag with refs := s.mem.tag.refs + 1 } }, ghost'⟩) hj
  have hlast : s'.mem.tag.refs ≠ 1 := by
    rw [htag]
    exact fun h => hrefs (Nat.succ.inj h)
  rw [hinstalls', hinstalls] at hcalled
  apply Exists.intro
  apply And.intro
  · apply Steps.seq hconsume
    apply Steps.seq hclaim
    apply Steps.seq
    · rw [if_pos rfl]
      apply Steps.seq (Relation.ReflTransGen.trans hready hcancel)
      apply Steps.seq
      · exact .act rfl
      dsimp only
      rw [if_neg hlast]
      exact .refl _ _
    exact .act rfl
  · exact ⟨hword, hcalled, hwakeups⟩

/-! ### Runs -/

section Runs

variable {s : State κ τ} {c c' : Concurrent.Config (State κ τ) τ}

theorem Begins.inv_of_run (hs : Begins k s) (hrun : Run ⟨s, threads w k s.mem.incarnation⟩ c) :
    Inv w k s.mem.incarnation c.shared :=
  invariant_of_outlines (hs.inv w) (fun t => hs.idle w t) outline_threads hrun

/-- The sentinel stays, and nothing is installed after it. -/
theorem Begins.sentinel_of_run (hs : Begins k s)
    (hrun : Run ⟨s, threads w k s.mem.incarnation⟩ c) (hc : c.shared.mem.waiter.low = .deleted)
    (hrun' : Run c c') : c'.shared.mem.waiter = c.shared.mem.waiter ∧
      c'.shared.ghost.deletion.installs = c.shared.ghost.deletion.installs := by
  induction hrun' with
  | refl => exact ⟨rfl, rfl⟩
  | tail hrun' hstep ih =>
    have hguar := guarantee_of_outlines (hs.inv w) (fun t => hs.idle w t) outline_threads
      (hrun.trans hrun') hstep
    rcases hguar with heq | ⟨t, hg⟩
    · rwa [heq]
    · obtain ⟨hword, hinstalls⟩ := hg.sentinel (by rwa [ih.1])
      exact ⟨hword.trans ih.1, hinstalls.trans ih.2⟩

end Runs

end Cancellation

open Cancellation in
/-- **A deletion never leaves the waiter asleep, and nobody wakes it twice.** In every state:

* no installed waiter was passed to `coroutineCall` twice;
* if the event is deleted, nobody is inside a call and a coroutine is still in the waiter word, then a
  doorbell is posted and not consumed, the signal state is not zero and a claim of this incarnation
  is admitted; and a delivery of the doorbell calls the coroutine and leaves the sentinel;
* once the waiter word is the sentinel it stays, and no waiter is installed any more. -/
theorem cancellation_reaches_waiter {κ τ : Type} [DecidableEq κ] [DecidableEq τ] (w : τ) (k : κ)
    (s : State κ τ) (hs : Begins k s) (c : Concurrent.Config (State κ τ) τ)
    (hrun : Run ⟨s, threads w k s.mem.incarnation⟩ c) :
    c.shared.ghost.deletion.called.Nodup ∧
    (c.shared.mem.tag.deleted = true → c.shared.ghost.deletion.busy = [] →
      c.shared.mem.waiter.low.coroutine ≠ none →
        c.shared.mem.waiter.low.coroutine = some k ∧ c.shared.mem.doorbell = true ∧
        c.shared.mem.signalState ≠ 0 ∧ c.shared.mem.tag.refs ≠ 0 ∧
        c.shared.mem.tag.committed = true ∧ c.shared.mem.incarnation = s.mem.incarnation ∧
        ∀ t, ∃ s', Steps (deliver s.mem.incarnation t) c.shared (.ret ()) s' ∧
          s'.mem.waiter.low = .deleted ∧
          c.shared.ghost.deletion.installs ∈ s'.ghost.deletion.called ∧
          s'.mem.wakeups k = c.shared.mem.wakeups k + 1) ∧
    (c.shared.mem.waiter.low = .deleted → ∀ c', Run c c' →
      c'.shared.mem.waiter = c.shared.mem.waiter ∧
      c'.shared.ghost.deletion.installs = c.shared.ghost.deletion.installs) := by
  have hi := hs.inv_of_run hrun
  refine ⟨(List.nodup_append.mp hi.once).2.1, fun hdeleted hbusy hne => ?_,
    fun hc c' hrun' => hs.sentinel_of_run hrun hc hrun'⟩
  have hout : ∀ u, ¬ (u ∈ c.shared.ghost.deletion.installing ∨ u ∈ c.shared.ghost.deletion.owing ∨
      u ∈ c.shared.ghost.deletion.stored ∨ u ∈ c.shared.ghost.deletion.cancelling ∨
      u ∈ c.shared.ghost.activations.consumed) := by
    intro u hu
    have hmem := hi.inside u hu
    rw [hbusy] at hmem
    cases hmem
  have hnil {l : List τ} (h : l ≠ []) : ∃ u, u ∈ l := List.exists_mem_of_ne_nil l h
  have hrefs := hi.refs_ne_zero hne
  have hincarnation := hi.incarnation hrefs
  have hcommitted : c.shared.mem.tag.committed = true :=
    (hi.committed hne).resolve_left fun h => hout w (.inl h)
  have hsignal : c.shared.mem.signalState ≠ 0 ∧ c.shared.mem.doorbell = true := by
    rcases hi.pending hdeleted hne with h | h | h | ⟨hsignal, h | h | h⟩
    · obtain ⟨u, hu⟩ := hnil h
      exact absurd (.inl hu) (hout u)
    · obtain ⟨u, hu⟩ := hnil h
      exact absurd (.inr (.inl hu)) (hout u)
    · obtain ⟨u, hu⟩ := hnil h
      exact absurd (.inr (.inr (.inr (.inl hu)))) (hout u)
    · exact ⟨hsignal, h⟩
    · obtain ⟨u, hu⟩ := hnil h
      exact absurd (.inr (.inr (.inl hu))) (hout u)
    · obtain ⟨u, hu⟩ := hnil h
      exact absurd (.inr (.inr (.inr (.inr hu)))) (hout u)
  obtain ⟨j, hj⟩ := Option.ne_none_iff_exists'.mp hne
  obtain rfl := hi.only j hj
  refine ⟨hj, hsignal.2, hsignal.1, hrefs, hcommitted, hincarnation, fun t => ?_⟩
  have hadmits : c.shared.mem.tag.admits true = true := by
    simp [Tag.admits, hrefs, hdeleted, hcommitted]
  have hsteps := steps_deliver (t := t) hi.callback hsignal.2 hsignal.1 hadmits hdeleted hj
  rwa [hincarnation] at hsteps

open Cancellation in
/-- A coroutine waits, and then the event is deleted. -/
theorem cancellation_reaches_waiter_deleted : ∃ c : Concurrent.Config (State Unit Bool) Bool,
    Run ⟨State.fresh false false, threads true () 0⟩ c ∧ c.shared.mem.tag.deleted = true ∧
      c.shared.ghost.deletion.busy = [] ∧ c.shared.mem.doorbell = true ∧
      c.shared.mem.signalState ≠ 0 ∧ c.shared.mem.tag.committed = true := by
  have hrun : ∃ c : Concurrent.Config (State Unit Bool) Bool,
      Run ⟨State.fresh false false, threads true () 0⟩ c ∧ c.shared.mem.tag.deleted = true ∧
      c.shared.ghost.deletion.busy = [] ∧ c.shared.mem.waiter.low.coroutine = some () := by
    apply Exists.intro
    apply And.intro
    · apply Relation.ReflTransGen.trans
      · apply Run.of_steps (t := true)
        apply Steps.loop
        apply Steps.seq
        · apply Steps.seq
          · exact .pick (x := Wait.hold) ⟨rfl, by simp⟩
          · exact Prog.steps_of_eval 1 rfl
        apply Steps.loop
        apply Steps.bind
        apply Steps.seq
        · exact .pick (x := Wait.wait) ⟨rfl, by simp [Wait.after]⟩
        apply Steps.bind
        apply Steps.seq
        · exact .act rfl
        apply Steps.bind
        apply Steps.seq
        · exact .act rfl
        apply Steps.seq
        · exact Prog.steps_of_eval 1 rfl
        apply Steps.bind
        apply Steps.seq
        · exact .act rfl
        exact .refl _ _
      · apply Run.of_steps (t := false)
        apply Steps.loop
        apply Steps.seq
        · apply Steps.seq
          · exact .pick (x := Call.delete) ⟨rfl, nofun, nofun⟩
          · exact Prog.steps_of_eval 3 rfl
        exact .refl _ _
    · exact ⟨rfl, rfl, rfl⟩
  obtain ⟨c, hrun, hdeleted, hbusy, hword⟩ := hrun
  obtain ⟨-, hwaiting, -⟩ := cancellation_reaches_waiter true () (State.fresh false false)
    ⟨rfl, rfl, rfl, rfl, ⟨rfl, rfl⟩, rfl, rfl, rfl⟩ c hrun
  obtain ⟨-, hbell, hsignal, -, hcommitted, -⟩ := hwaiting hdeleted hbusy (by simp [hword])
  exact ⟨c, hrun, hdeleted, hbusy, hbell, hsignal, hcommitted⟩

end UserEvent

end Asyncio
