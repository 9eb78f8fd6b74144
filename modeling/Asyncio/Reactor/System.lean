import Asyncio.Reactor.Serving

/-!
# Every operation is handed over once

The system: any number of threads around one object that the reactor serves, descriptor-backed or
composite. A thread submits an operation, tries one synchronously, cancels, lets a timeout expire,
completes a child operation, delivers a kernel event, or deletes the object, over and over. Which of
these a thread does next is not the code's choice. `executeMethod` and `cancelMethod` answer
anything they may.

A status compare-and-swap and the push that follows it are two steps, and anything may happen
between them.

## Main results

* `Reactor.consistent_of_run` — the reactor's invariant holds along every run
* `Reactor.handed_once` — nothing is handed over twice, pending, or dropped
-/

namespace Asyncio

namespace Reactor

set_option linter.unusedSectionVars false

open Concurrent Combiner

variable {α τ : Type}

/-! ### Calls -/

/-- What a thread does to the object. -/
inductive Call (α : Type) where
  /-- `combinerPushOperation` of a new operation -/
  | submit (a : α)
  | runAioOperation (write : Bool)
  | cancelIo
  /-- `objectDelete`, without the release of its reference -/
  | objectDelete
  /-- `combinerPushDelete`, from the last release -/
  | pushDelete
  | opCancel (a : α) (generation : ℕ) (status : Status) (objectGeneration : ℕ)
  | resumeParent (a : α) (status : Status)
  /-- The backend delivers what the kernel reported. -/
  | event (objectGeneration : ℕ) (bits : Tag)

section

variable [DecidableEq α] [DecidableEq τ] (fd : Bool) (t : τ)

/-- Thread `t` may do it, and what it then has. -/
inductive Call.Admits : State α τ (Obj α) → Call α → State α τ (Obj α) → Prop
  | submit (s : State α τ (Obj α)) (a : α) (o : Obj α) : s.ghost.place a = .free →
      initAsyncOpRoot s.mem.obj a o → Admits s (.submit a)
        ⟨{ s.mem with obj := o },
          { s.ghost with place := Function.update s.ghost.place a (.held t) }⟩
  | runAioOperation (s : State α τ (Obj α)) (write : Bool) : Admits s (.runAioOperation write) s
  | cancelIo (s : State α τ (Obj α)) : Admits s .cancelIo s
  | objectDelete (s : State α τ (Obj α)) : Admits s .objectDelete s
  | pushDelete (s : State α τ (Obj α)) : s.ghost.deleteRight = .free →
      Admits s .pushDelete ⟨s.mem, { s.ghost with deleteRight := .held t }⟩
  | opCancel (s : State α τ (Obj α)) (a : α) (generation : ℕ) (status : Status)
      (objectGeneration : ℕ) : status ≠ .pending →
      Admits s (.opCancel a generation status objectGeneration) s
  | resumeParent (s : State α τ (Obj α)) (a : α) (status : Status) : status ≠ .pending →
      Admits s (.resumeParent a status) s
  | event (s : State α τ (Obj α)) (objectGeneration : ℕ) (bits : Tag) : bits ≠ 0#6 →
      bits.has tagDelete = false → Admits s (.event objectGeneration bits) s

/-- `cancelIo` -/
def cancelIo : Prog (State α τ (Obj α)) Unit := combinerPushCounter (backend fd) t tagCancelIo

/-- `objectDelete`, up to the release of its reference. -/
def objectDelete : Prog (State α τ (Obj α)) Unit := do
  onObject t (step fun o => ((), { o with deletePending := true }))
  cancelIo fd t

/-- `opCancel` -/
def opCancel (a : α) (generation : ℕ) (status : Status) (objectGeneration : ℕ) :
    Prog (State α τ (Obj α)) Unit := do
  let won ← onObject t (opSetStatus a generation status)
  if won then do
    let _ ← combinerPushValidated (backend fd) t objectGeneration tagCancel
    return ()
  else return ()

/-- The best-effort status of `resumeParent`. -/
def failParent (a : α) (status : Status) : Prog (Obj α) Unit :=
  if status ≠ .success then do
    let generation ← opGetGeneration a
    let _ ← opSetStatus a generation status
    return ()
  else return ()

/-- `resumeParent` -/
def resumeParent (a : α) (status : Status) : Prog (State α τ (Obj α)) Unit := do
  onObject t (failParent a status)
  let write ← onObject t (step fun o => ((o.op a).isWrite, o))
  combinerPushCounter (backend fd) t (directionBit write)

def Call.run : Call α → Prog (State α τ (Obj α)) Unit
  | .submit a => combinerPushOperation (backend fd) t a
  | .runAioOperation write => Combiner.runAioOperation (backend fd) t write
  | .cancelIo => Reactor.cancelIo fd t
  | .objectDelete => Reactor.objectDelete fd t
  | .pushDelete => combinerPushDelete (backend fd) t
  | .opCancel a generation status objectGeneration =>
    Reactor.opCancel fd t a generation status objectGeneration
  | .resumeParent a status => Reactor.resumeParent fd t a status
  | .event objectGeneration bits => do
    let _ ← combinerPushValidated (backend fd) t objectGeneration bits
    return ()

/-- A thread that does one thing after the other. -/
def client : Prog (State α τ (Obj α)) Unit :=
  .loop (fun _ : Unit => do
    let call ← .pick fun s call s' => s.ghost.halted = false ∧ Call.Admits t s call s'
    call.run fd t
    return .inl ()) ()

/-! ### Outlines of the calls -/

variable {fd t}

/-- An access to the object by a thread that does not serve it. -/
theorem outline_access {β : Type} {f : Obj α → β × Obj α}
    (h : ∀ o, Valid o → Valid (f o).2 ∧ Others o (f o).2 ∧ (f o).2.phase = o.phase) :
    Outline ((ext : Ext α τ (Obj α)).terms t) (fun _ => True) (onObject t (step f))
      fun _ _ => True := by
  refine .act stable_true (fun _ => stable_true) fun s x s' heq hi _ => ?_
  split at heq
  · cases heq
  · cases heq
    obtain ⟨hv, hr, hphase⟩ := h s.mem.obj hi.2.valid
    have hx := hi.2.others hv hr fun a ha => by rw [hphase]; exact hi.2.submitted a ha
    exact ⟨⟨hi.1.setObj _, hx⟩, ⟨.setObj t s _, fun _ => hr⟩, trivial⟩

variable {status : Status}

theorem outline_opSetStatus_other (a : α) (generation : ℕ) (hst : status ≠ .pending):
    Outline ((ext : Ext α τ (Obj α)).terms t) (fun _ => True)
      (onObject t (opSetStatus a generation status)) fun _ _ => True :=
  outline_access fun _ h => casStatus_spec h hst

theorem directionBit_ok (write : Bool) :
    directionBit write ≠ 0#6 ∧ (directionBit write).has tagDelete = false := by
  cases write <;> decide

theorem outline_cancelIo : Outline ((ext : Ext α τ (Obj α)).terms t) (fun _ => True)
    (cancelIo fd t) fun _ _ => True :=
  outline_pushCounter supports (by decide) (by decide)

theorem outline_opCancel (a : α) (generation : ℕ) (hst : status ≠ .pending)
    (objectGeneration : ℕ) : Outline ((ext : Ext α τ (Obj α)).terms t) (fun _ => True)
      (opCancel fd t a generation status objectGeneration) fun _ _ => True := by
  refine .bind (outline_opSetStatus_other a generation hst) fun won => ?_
  split
  · exact .bind (outline_pushValidated supports (by decide) (by decide) objectGeneration) fun _ =>
      outline_ret stable_true fun _ _ _ => trivial
  · exact outline_ret stable_true fun _ _ _ => trivial

theorem outline_resumeParent (a : α) (hst : status ≠ .pending) :
    Outline ((ext : Ext α τ (Obj α)).terms t) (fun _ => True) (resumeParent fd t a status)
      fun _ _ => True := by
  refine .bind (M := fun _ _ => True) ?_ fun _ =>
    .bind (outline_access fun o h => ⟨h, .refl o, rfl⟩) fun write =>
      outline_pushCounter supports (directionBit_ok write).1 (directionBit_ok write).2
  unfold failParent
  split
  · exact .bind (outline_access fun o h => ⟨h, .refl o, rfl⟩) fun generation =>
      .bind (outline_opSetStatus_other a generation hst) fun _ =>
        outline_ret stable_true fun _ _ _ => trivial
  · exact outline_ret stable_true fun _ _ _ => trivial

theorem outline_objectDelete : Outline ((ext : Ext α τ (Obj α)).terms t) (fun _ => True)
    (objectDelete fd t) fun _ _ => True :=
  .bind (outline_access fun _ h => ⟨⟨h.cancelling, h.terminal, h.handed, h.once, h.started,
    h.dispatched, h.last, h.bounds, h.attempts, h.given, h.sweeps⟩, ⟨fun _ => rfl, rfl, rfl, rfl, rfl,
    rfl, rfl, fun _ => Iff.rfl, fun _ _ => rfl, fun _ _ _ => rfl, fun _ _ => rfl⟩, rfl⟩)
    fun _ => outline_cancelIo

/-- What an admitted call starts from. -/
def Call.Pre (t : τ) : Call α → State α τ (Obj α) → Prop
  | .submit a, s => HasNode t (some a) s
  | .pushDelete, s => s.ghost.deleteRight = .held t
  | .opCancel _ _ status _, _ => status ≠ .pending
  | .resumeParent _ status, _ => status ≠ .pending
  | .event _ bits, _ => bits ≠ 0#6 ∧ bits.has tagDelete = false
  | _, _ => True

theorem Call.stable_pre (call : Call α) :
    Stable ((ext : Ext α τ (Obj α)).terms t) (call.Pre t) := by
  cases call with
  | submit a => exact stable_hasNode (some a)
  | pushDelete => exact stable_right
  | _ => exact Stable.pure _

/-- Every call, from what its caller provides. -/
theorem Call.outline_run (call : Call α) :
    Outline ((ext : Ext α τ (Obj α)).terms t) (call.Pre t) (call.run fd t) fun _ _ => True := by
  -- A condition on the arguments alone is assumed.
  have hpure : ∀ {φ : Prop} {p : Prog (State α τ (Obj α)) Unit},
      (φ → Outline (ext.terms t) (fun _ => True) p fun _ _ => True) →
        Outline (ext.terms t) (fun _ => φ) p fun _ _ => True :=
    fun h => (Outline.assume stable_true h).pre (Stable.pure _) fun _ _ h => ⟨h, trivial⟩
  cases call with
  | submit a => exact outline_pushOperation supports a
  | runAioOperation write => exact outline_runAioOperation supports write
  | cancelIo => exact outline_cancelIo
  | objectDelete => exact outline_objectDelete
  | pushDelete => exact outline_pushDelete supports
  | opCancel a generation status objectGeneration =>
    exact hpure fun h => outline_opCancel a generation h objectGeneration
  | resumeParent a status => exact hpure fun h => outline_resumeParent a h
  | event objectGeneration bits =>
    exact hpure fun h => .bind (outline_pushValidated supports h.1 h.2 objectGeneration) fun _ =>
      outline_ret stable_true fun _ _ _ => trivial

theorem Call.Admits.spec {s s' : State α τ (Obj α)} {call : Call α} (h : Call.Admits t s call s')
    (hi : Inv s) (hx : Consistent s) :
    (Inv s' ∧ Consistent s') ∧ (Guar t s s' ∧ ext.rel t s s') ∧ call.Pre t s' := by
  have hsame : (Inv s ∧ Consistent s) ∧ Guar t s s ∧ ext.rel t s s :=
    ⟨⟨hi, hx⟩, .refl t s, fun _ => .refl _⟩
  cases h with
  | submit a o ha hc =>
    obtain ⟨hx', hr⟩ := (creates : Creates ext (backend true) t) s a o hi hx ha hc
    refine ⟨⟨(hi.setPlace (.held t) (by rw [ha]; simp) (by simp)).setObj o, hx'⟩,
      ⟨.setPlace _ o (.inl ha), hr⟩, fun b hb => ?_⟩
    cases Option.mem_some.mp hb
    simp
  | pushDelete hr =>
    have hstep : HeadStep t s _ := .holdDelete s hr
    obtain ⟨hx', hrel⟩ := ext_fits t s _ hstep hi (hstep.inv hi) hx
    exact ⟨⟨hstep.inv hi, hx'⟩, ⟨hstep.guar hi, hrel⟩, rfl⟩
  | opCancel a generation status objectGeneration hst => exact ⟨hsame.1, hsame.2, hst⟩
  | resumeParent a status hst => exact ⟨hsame.1, hsame.2, hst⟩
  | event objectGeneration bits hb hd => exact ⟨hsame.1, hsame.2, hb, hd⟩
  | _ => exact ⟨hsame.1, hsame.2, trivial⟩

theorem outline_client :
    Outline ((ext : Ext α τ (Obj α)).terms t) (fun _ => True) (client fd t) fun _ _ => True := by
  refine .loop (fun _ _ => True) () (fun _ => ?_) fun _ => stable_true
  refine .bind (M := fun call => call.Pre t) ?_ fun call => ?_
  · refine .pick stable_true (fun call => call.stable_pre) ?_
    rintro s call s' ⟨-, hadm⟩ hi -
    exact hadm.spec hi.1 hi.2
  · exact .bind call.outline_run fun _ => outline_ret stable_true fun _ _ _ => trivial

/-! ### Runs -/

/-- The object has just been created, and its cells are in the pool. -/
structure Fresh (o : Obj α) : Prop where
  readQueue : o.readQueue = []
  writeQueue : o.writeQueue = []
  initializationOp : o.initializationOp = none
  phase : ∀ a, o.phase a = .idle
  record : o.started = [] ∧ o.bounds = [] ∧ o.handed = [] ∧ o.attempts = [] ∧ o.sweeps = []

/-- Nothing has happened yet. -/
structure Initial (s : State α τ (Obj α)) : Prop where
  head : Combiner.Initial s
  object : Fresh s.mem.obj

theorem Fresh.valid {o : Obj α} (h : Fresh o) : Valid o := by
  obtain ⟨hs, hb, hh, ha, hw⟩ := h.record
  refine ⟨fun a hidle => absurd (h.phase a) hidle, ?_, ?_, ?_, ?_, fun a hd => ?_,
    fun hne => absurd hs hne, ?_, ?_, ?_, ?_⟩
  case refine_5 => rw [h.phase a] at hd; cases hd
  all_goals simp [hs, hb, hh, ha, hw]

theorem Initial.consistent {s : State α τ (Obj α)} (h : Initial s) : Consistent s := by
  obtain ⟨hs, hb, -, -, -⟩ := h.object.record
  have hdisp : s.ghost.dispatched = [] := by rw [h.head.ghost]
  have hdone : ∀ o : Obj α, Done [] o := fun o k e hk => by simp at hk
  refine ⟨h.object.valid, fun a ha => ?_, ?_, ?_, ?_, fun _ => ?_, fun _ => ?_, ?_⟩
  · rw [h.head.ghost] at ha
    exact absurd rfl ha
  · rw [hs, hdisp]; rfl
  · rw [hb, hdisp]; rfl
  · rw [hdisp]; simp
  · simp [Owns, Held, Obj.queue, h.object.readQueue, h.object.writeQueue,
      h.object.initializationOp, h.object.phase]
  · rw [hdisp]; exact hdone _
  · rw [hdisp]; exact hdone _

/-- **The reactor's invariant holds along every run.** -/
theorem consistent_of_run {s₀ : State α τ (Obj α)} {c : Config (State α τ (Obj α)) τ}
    (h₀ : Initial s₀) (hrun : Run ⟨s₀, client fd⟩ c) : Inv c.shared ∧ Consistent c.shared :=
  Ext.inv_of_run (X := ext) (P := fun _ _ => True) h₀.head.inv h₀.consistent (fun _ => trivial)
    (fun _ => outline_client) hrun

/-- **Every operation is handed over once.** In every reachable state, no operation was given to
`addToGlobalQueue` twice, and none with a pending status. `started` lists the operations dispatched.
When the head is zero, each of them that was not handed over is still the current operation of its
cell, and is in exactly one of the two queues and the initialization slot, once. -/
theorem handed_once {s₀ : State α τ (Obj α)} {c : Config (State α τ (Obj α)) τ}
    (h₀ : Initial s₀) (hrun : Run ⟨s₀, client fd⟩ c) :
    (c.shared.mem.obj.handed.map Prod.fst).Nodup ∧
    (∀ x ∈ c.shared.mem.obj.handed, x.2 ≠ .pending) ∧
    c.shared.mem.obj.started.map Prod.fst = nodesOf c.shared.ghost.dispatched ∧
    (c.shared.mem.low = .null → ∀ x ∈ c.shared.mem.obj.started,
      x ∉ c.shared.mem.obj.handed.map Prod.fst → c.shared.mem.obj.key x.1 = x ∧
        (c.shared.mem.obj.readQueue ++ c.shared.mem.obj.writeQueue ++
          c.shared.mem.obj.initializationOp.toList).count x.1 = 1) := by
  obtain ⟨hi, hx⟩ := consistent_of_run h₀ hrun
  refine ⟨hx.valid.once, hx.valid.terminal, hx.started, fun hlow x hxs hnot => ?_⟩
  obtain ⟨-, -, -, -, hbusy⟩ := hi.idle (hi.low_eq_null_iff.mp hlow)
  have howns := hx.owns hbusy
  simp only [Owns, Obj.queue, List.append_nil, Bool.false_eq_true, ↓reduceIte] at howns
  obtain ⟨hkey, hd⟩ := (hx.valid.started x hxs).resolve_left hnot
  exact ⟨hkey.symm, List.count_eq_one_of_mem howns.1 ((howns.2 x.1).mp hd)⟩

end

/-- A thread that tries an operation, finishes it at once and hands it over. -/
theorem handed_once_sync : ∃ c : Config (State Unit Unit (Obj Unit)) Unit,
    c.shared.mem.obj.handed = [(((), 1), .success)] ∧
      (c.shared.mem.obj.handed.map Prod.fst).Nodup := by
  let o₀ : Obj Unit := ⟨[], [], none, false, fun _ => ⟨0, .success, .waiting, false, false⟩,
    fun _ => .idle, [], [], [], [], []⟩
  let s₀ : State Unit Unit (Obj Unit) := ⟨⟨.null, 0, fun _ => .null, o₀⟩,
    ⟨fun _ => .free, .free, [], [], [], [], .empty, [], false, false⟩⟩
  have hacquire : ∃ s₁ : State Unit Unit (Obj Unit), Steps (combinerAcquire (backend false) () false)
      s₀ (.ret none) s₁ ∧ s₁.mem.obj = o₀ ∧ s₁.ghost.halted = false :=
    ⟨_, .seq (.loop <| .seq (.seq (.act rfl) (.seq (.act rfl) (.refl _ _))) (.refl _ _))
      (.seq (.act rfl) (.seq (.act rfl) (.refl _ _))), rfl, rfl⟩
  obtain ⟨s₁, hacquire, hobj, hhalt⟩ := hacquire
  have hsteps : ∃ p s', Steps (client false ()) s₀ p s' ∧
      s'.mem.obj.handed = [(((), 1), .success)] :=
    ⟨_, _, .loop <| .bind (.seq (.pick ⟨rfl, .runAioOperation s₀ false⟩) (.bind (.seq hacquire
      (.bind (.pick ⟨hhalt, _, .inr ⟨rfl, (), ⟨1, .success, .waiting, false, false⟩, by rw [hobj],
        by rw [hobj], by decide, rfl⟩, rfl⟩) _)) _)) _, by rw [hobj]; rfl⟩
  obtain ⟨p, s', hsteps, hhanded⟩ := hsteps
  have hfresh : Fresh o₀ := ⟨rfl, rfl, rfl, fun _ => rfl, rfl, rfl, rfl, rfl, rfl⟩
  obtain ⟨hnodup, -⟩ := handed_once ⟨⟨rfl, rfl⟩, hfresh⟩ (Run.of_steps hsteps)
  exact ⟨_, hhanded, hnodup⟩

end Reactor

end Asyncio
