import Asyncio.Reactor.Account

/-!
# Proof outlines of the reactor pass

The functions a pass is made of, from the account of their operations: each takes the account and
gives it back, `startOperation` with its operation moved from the hand to the object.

The sweep of `cancelIo` is the one function with more to say. It tries every operation the account
lists when it begins. With what was handed over before, that is every operation dispatched so far.

## Main results

* `Reactor.outline_cancelIoSweep` — the sweep, and its record
* `Reactor.outline_core` — a pass takes the operation that came with it from the hand
-/

namespace Asyncio

namespace Reactor

set_option linter.unusedSectionVars false

open Concurrent Combiner List

variable {α : Type} [DecidableEq α]

/-! ### Without a sweep

Outside a sweep of `cancelIo`, nothing is owed and the account alone matters. -/

section Owns

variable {hand : List α} {status : Status}

theorem Owns.sweeping {o : Obj α} (h : Owns hand o) (status : Status) :
    ∃ k, Sweeping status k [] hand (fun _ => false) o :=
  ⟨o.bounds.length - 1, h, rfl, by simp⟩

theorem outline_cancelOperationList_owns (fd write : Bool) (hst : status ≠ .pending) :
    Outline terms (Owns hand) (cancelOperationList fd write status) fun _ => Owns hand :=
  .obtain (stable_owns hand) (fun _ _ h => h.sweeping status) fun k =>
    (outline_cancelOperationList fd write hst k [] hand _).post fun _ _ _ h => h.1

theorem outline_opReleaseUnstarted_owns (op : α) (hst : status ≠ .pending) :
    Outline terms (Owns (op :: hand)) (opReleaseUnstarted op status) fun _ => Owns hand :=
  .obtain (stable_owns (op :: hand)) (fun _ _ h => h.sweeping status) fun _ =>
    (outline_opReleaseUnstarted op hst).post fun _ _ _ h => h.1

theorem stable_inSlot (op : α) : Stable terms (InSlot op) := stable_slot (some op)

/-- The initialization operation, with a final status. -/
theorem stable_released (hand : List α) (op : α) :
    Stable terms fun o => Owns hand o ∧ InSlot op o ∧ Final op o :=
  (stable_owns hand).and ((stable_inSlot op).and (stable_final op))

theorem outline_initializationRelease_owns (fd : Bool) (op : α) (hst : status ≠ .pending) :
    Outline terms (fun o => Owns hand o ∧ InSlot op o ∧ Final op o)
      (initializationRelease fd op status) fun _ => Owns hand :=
  .obtain (R := fun k o => Sweeping status k [] hand (fun _ => false) o ∧ InSlot op o ∧ Final op o)
    (stable_released hand op) (fun _ _ h => (h.1.sweeping status).imp fun _ hk => ⟨hk, h.2⟩)
    fun _ => (outline_initializationRelease fd op hst).post fun _ _ _ h => h.1

theorem outline_initializationReleaseUnstarted_owns (fd : Bool) (op : α) (hst : status ≠ .pending):
    Outline terms (fun o => Owns hand o ∧ InSlot op o ∧ Final op o)
      (initializationReleaseUnstarted fd op status) fun _ => Owns hand :=
  .obtain (R := fun k o => Sweeping status k [] hand (fun _ => false) o ∧ InSlot op o ∧ Final op o)
    (stable_released hand op) (fun _ _ h => (h.1.sweeping status).imp fun _ hk => ⟨hk, h.2⟩)
    fun _ => (outline_initializationReleaseUnstarted fd op hst).post fun _ _ _ h => h.1

end Owns

/-! ### Inspecting an operation -/

section Inspecting

variable {P : Obj α → Prop} {a : α}

theorem outline_getInitializationOp (hP : Stable terms P) :
    Outline terms P getInitializationOp fun slot o => P o ∧ o.initializationOp = slot :=
  outline_look hP (fun slot => hP.and (stable_slot slot)) fun _ _ h => ⟨h, rfl⟩

/-- An access whose answer says nothing. -/
theorem outline_peek {β : Type} {f : Obj α → β} (hP : Stable terms P) :
    Outline terms P (step fun o => (f o, o)) fun _ => P :=
  outline_look hP (fun _ => hP) fun _ _ h => h

/-- Reading a status that is final. -/
theorem outline_opGetStatus_final (hP : Stable terms P) (ha : ∀ o, P o → Final a o) :
    Outline terms P (opGetStatus a) fun status o => status ≠ .pending ∧ P o :=
  outline_look hP (fun _ => (Stable.pure _).and hP) fun o _ h => ⟨(ha o h).2, h⟩

theorem stable_finalOf (hP : Stable terms P) (status : Status) :
    Stable terms fun o => P o ∧ (status ≠ .pending → Final a o) :=
  hP.and fun o o' hi hi' hr h hs => stable_final a o o' hi hi' hr (h hs)

/-- Reading the status and then the running state of a held operation. One that was asked to stop
was not pending. -/
theorem outline_inspect {β : Type} {f : Status → Running → Prog (Obj α) β} {Q : β → Obj α → Prop}
    (hP : Stable terms P) (ha : ∀ o, P o → o.phase a = .dispatched)
    (hf : ∀ status state, (state = .cancelling → status ≠ .pending) →
      Outline terms (fun o => P o ∧ (status ≠ .pending → Final a o)) (f status state) Q) :
    Outline terms P (do
      let status ← opGetStatus a
      let state ← getRunning a
      f status state) Q := by
  -- Only the serving thread writes `running`, so it is the same at both reads.
  let R : Status → Obj α → Prop := fun status o => (P o ∧ (status ≠ .pending → Final a o)) ∧
    ((o.op a).running = .cancelling → status ≠ .pending)
  have hR : ∀ status, Stable terms (R status) := by
    intro status o o' hi hi' hr h
    refine ⟨stable_finalOf hP status o o' hi hi' hr h.1, ?_⟩
    rw [hr.running a (ha o h.1.1)]
    exact h.2
  refine .bind (M := R) (outline_look hP hR fun o hi h =>
    ⟨⟨h, fun hs => ⟨ha o h, hs⟩⟩, hi.cancelling a (by rw [ha o h]; decide)⟩) fun status => ?_
  refine .bind (M := fun state o => (state = .cancelling → status ≠ .pending) ∧
      P o ∧ (status ≠ .pending → Final a o))
    (outline_look (hR status) (fun _ => (Stable.pure _).and (stable_finalOf hP status))
      fun o _ h => ⟨h.2, h.1⟩) fun state => ?_
  exact Outline.assume (stable_finalOf hP status) fun h => hf status state h

end Inspecting

/-! ### The initialization operation -/

section Initialization

variable {hand : List α}

theorem Owns.dispatched_slot {o : Obj α} {op : α} (h : Owns hand o) (hop : InSlot op o) :
    o.phase op = .dispatched := by
  refine h.dispatched ?_
  rw [show o.initializationOp = some op from hop]
  simp

theorem stable_ownsSlot (hand : List α) (op : α) : Stable terms fun o => Owns hand o ∧ InSlot op o :=
  (stable_owns hand).and (stable_inSlot op)

theorem blind_inSlot (op : α) : Blind (InSlot op) := fun _ _ _ _ _ h => h

theorem outline_initializationTryComplete (fd : Bool) (op : α) (result : Status) :
    Outline terms (fun o => Owns hand o ∧ InSlot op o) (initializationTryComplete fd op result)
      fun _ => Owns hand := by
  have hS := stable_ownsSlot hand op
  have hB : Blind fun o => Owns hand o ∧ InSlot op o := (blind_owns hand).and (blind_inSlot op)
  have hF : Stable terms fun o => (Owns hand o ∧ InSlot op o) ∧ Final op o :=
    hS.and (stable_final op)
  unfold initializationTryComplete
  split
  · exact .bind (outline_setRunning hS hB op .running fun _ _ h => by cases h) fun _ =>
      .ret hS fun _ _ h => h.1
  · next hst =>
    refine .bind (outline_opGetGeneration hS fun o h => h.1.dispatched_slot h.2) fun g => ?_
    refine .bind (outline_opSetStatus hS hB hst) fun _ => ?_
    refine .bind (outline_opGetStatus_final hF fun _ h => h.2) fun final => ?_
    refine Outline.assume hF fun hfin => ?_
    exact (outline_initializationRelease_owns fd op hfin).pre hF fun o _ h => ⟨h.1.1, h.1.2, h.2⟩

/-- **`processInitializationOp`** -/
theorem outline_processInitializationOp (fd : Bool) :
    Outline terms (Owns hand) (processInitializationOp fd) fun _ => Owns hand := by
  refine .bind (outline_getInitializationOp (stable_owns hand)) fun slot => ?_
  cases slot with
  | none => exact .ret ((stable_owns hand).and (stable_slot _)) fun _ _ h => h.1
  | some op =>
    have hS := stable_ownsSlot hand op
    refine outline_inspect hS (fun o h => h.1.dispatched_slot h.2) fun status state hstate => ?_
    have hF := stable_finalOf (a := op) hS status
    rcases hact : combinerSelectInitializationAction state status with _ | _ | _
    · exact .ret hF fun _ _ h => h.1.1
    · exact .bind (outline_executeMethod hF op) fun result =>
        (outline_initializationTryComplete fd op result).pre hF fun _ _ h => h.1
    · have hst : status ≠ .pending := by
        rintro rfl
        cases state <;> simp [combinerSelectInitializationAction] at hact hstate
      exact (outline_initializationRelease_owns fd op hst).pre hF
        fun o _ h => ⟨h.1.1, h.1.2, h.2 hst⟩

/-- Before a sweep: the initialization operation comes first. -/
def SweepingAll (status : Status) (k : ℕ) (xs : List (α × ℕ)) (hand : List α) (o : Obj α) : Prop :=
  Owns hand o ∧ Due status k xs (o.initializationOp.toList ++ queuesOf (fun _ => true) o) o

/-- **`cancelInitializationOp`** tries the initialization operation. -/
theorem outline_cancelInitializationOp (fd : Bool) {status : Status} (hst : status ≠ .pending)
    (k : ℕ) (xs : List (α × ℕ)) :
    Outline terms (SweepingAll status k xs hand) (cancelInitializationOp fd status)
      fun _ => Sweeping status k xs hand fun _ => true := by
  refine .obtain (R := fun (qs : (Bool → List α) × Option α) o =>
    Holds qs.1 qs.2 (qs.1 false ++ qs.1 true ++ qs.2.toList ++ hand) o ∧
      Due status k xs (qs.2.toList ++ (qs.1 false ++ qs.1 true)) o) ?_
    (fun o _ h => ⟨(o.queue, o.initializationOp), h.1.holds, h.2⟩) ?_
  · refine (stable_owns hand).and fun o o' hi hi' hr h => ?_
    have hq : queuesOf (fun _ => true) o' = queuesOf (fun _ => true) o := by
      simp only [queuesOf, hr.queue]
    rw [hq, hr.slot]
    exact stable_due _ _ _ _ o o' hi hi' hr h
  rintro ⟨q, slot⟩
  have hback : ∀ o, Holds q slot (q false ++ q true ++ slot.toList ++ hand) o →
      Due status k xs (q false ++ q true) o → Sweeping status k xs hand (fun _ => true) o := by
    intro o hh hd
    refine ⟨hh.owns, ?_⟩
    rw [show queuesOf (fun _ => true) o = q false ++ q true by simp [queuesOf, hh.queue]]
    exact hd
  have hS : Stable terms fun o => Holds q slot (q false ++ q true ++ slot.toList ++ hand) o ∧
      Due status k xs (slot.toList ++ (q false ++ q true)) o :=
    (stable_holds _ _ _).and (stable_due _ _ _ _)
  refine .bind (M := fun x o => x = slot ∧
    Holds q slot (q false ++ q true ++ slot.toList ++ hand) o ∧
      Due status k xs (slot.toList ++ (q false ++ q true)) o)
    (outline_look hS (fun _ => (Stable.pure _).and hS) fun o _ h => ⟨h.1.slot, h⟩) fun x => ?_
  refine Outline.assume hS ?_
  rintro rfl
  cases x with
  | none => exact .ret hS fun o _ h => hback o h.1 h.2
  | some op =>
    refine .bind (outline_opGetGeneration hS fun o h => h.1.dispatched (by simp)) fun g => ?_
    let A : Obj α → Prop := fun o =>
      Sweeping status k xs hand (fun _ => true) o ∧ InSlot op o ∧ Final op o
    have hA : Stable terms A :=
      (stable_sweeping _ _ _ _ _).and ((stable_inSlot op).and (stable_final op))
    have hB : Blind A :=
      (blind_sweeping _ _ _ _ _).and ((blind_inSlot op).and (blind_final op))
    refine .bind (M := fun _ => A) ((outline_sweepStatus hst).post fun _ o _ h =>
      ⟨hback o h.1.1 h.1.2, h.1.1.slot, h.2⟩) fun won => ?_
    have hdone : Outline terms A (return ()) fun _ => Sweeping status k xs hand fun _ => true :=
      .ret hA fun _ _ h => h.1
    split
    · refine .bind (outline_peek hA) fun state => ?_
      cases state with
      | running =>
        refine outline_tryCancel hA hB fd (fun _ h => h.2.2) fun done => ?_
        split
        · exact .bind (outline_initializationRelease fd op hst) fun _ =>
            .skip (stable_sweeping _ _ _ _ _)
        · exact hdone
      | waiting =>
        exact .bind (outline_initializationReleaseUnstarted fd op hst) fun _ =>
          .skip (stable_sweeping _ _ _ _ _)
      | cancelling => exact hdone
    · exact hdone

/-- **`cancelAllObjectOperations`** tries everything the object holds. -/
theorem outline_cancelAllObjectOperations (fd : Bool) (k : ℕ) (xs : List (α × ℕ)) (hand : List α) :
    Outline terms (SweepingAll .canceled k xs hand) (cancelAllObjectOperations fd)
      fun _ => Sweeping .canceled k xs hand fun _ => false := by
  have hst : Status.canceled ≠ .pending := by decide
  refine .bind (outline_cancelInitializationOp fd hst k xs) fun _ => ?_
  refine .bind (outline_cancelOperationList fd false hst k xs hand _) fun _ => ?_
  refine (outline_cancelOperationList fd true hst k xs hand _).post fun _ o _ h => ⟨h.1, h.2.mono ?_⟩
  simp [queuesOf]

theorem outline_cancelAllObjectOperations_owns (fd : Bool) :
    Outline terms (Owns hand) (cancelAllObjectOperations fd) fun _ => Owns hand :=
  .obtain (R := fun k => SweepingAll .canceled k [] hand) (stable_owns hand)
    (fun o _ h => ⟨o.bounds.length - 1, h, rfl, by simp⟩)
    fun k => (outline_cancelAllObjectOperations fd k [] hand).post fun _ _ _ h => h.1

end Initialization

/-! ### The sweep of cancelIo -/

/-- The dispatch that is going on is the one numbered `k`. -/
def InPass (k : ℕ) (o : Obj α) : Prop := o.bounds.length = k + 1

/-- Dispatch `k` has swept. -/
def Swept (k : ℕ) (o : Obj α) : Prop := ∃ h, (k, h) ∈ o.sweeps

theorem stable_inPass (k : ℕ) : Stable terms (InPass (α := α) k) :=
  fun _ _ _ _ hr h => (congrArg List.length hr.bounds).trans h

variable {k : ℕ} {o o' : Obj α}

theorem InPass.serving (hs : Serving o o') (h : InPass k o) : InPass k o' :=
  (congrArg List.length hs.bounds).trans h

theorem stable_swept (k : ℕ) : Stable terms (Swept (α := α) k) :=
  fun _ _ _ _ hr ⟨h, hmem⟩ => ⟨h, hr.sweeps ▸ hmem⟩

theorem Swept.serving (hs : Serving o o') : Swept k o → Swept k o' :=
  fun ⟨h, hmem⟩ => ⟨h, hs.sweeps hmem⟩

/-- What a sweep remembers from its beginning: what was handed over then (`old`), and that the rest
of what was dispatched is among `xs`. -/
structure Began (k : ℕ) (old : List ((α × ℕ) × Status)) (xs : List (α × ℕ)) (o : Obj α) : Prop where
  pass : InPass k o
  handed : old <+: o.handed
  rest : ∀ x ∈ o.started, x ∈ old.map Prod.fst ∨ x ∈ xs

theorem stable_began (k : ℕ) (old : List ((α × ℕ) × Status)) (xs : List (α × ℕ)) :
    Stable terms (Began k old xs) :=
  fun o o' hi hi' hr h => ⟨stable_inPass k o o' hi hi' hr h.pass, hr.handed ▸ h.handed,
    hr.started ▸ h.rest⟩

theorem Began.serving {old : List ((α × ℕ) × Status)} {xs : List (α × ℕ)}
    (hs : Serving o o') (h : Began k old xs o) : Began k old xs o' :=
  ⟨h.pass.serving hs, h.handed.trans hs.handed, hs.started ▸ h.rest⟩

/-- The record of a finished sweep. -/
theorem Valid.addSweep {old : List ((α × ℕ) × Status)} {xs : List (α × ℕ)} {o : Obj α}
    (hi : Valid o) (hb : Began k old xs o) (hx : ∀ x ∈ xs, Tried .canceled k x o) :
    Valid { o with sweeps := o.sweeps ++ [(k, old.length)] } := by
  refine ⟨hi.cancelling, hi.terminal, hi.handed, hi.once, hi.started, hi.dispatched,
    hi.last, hi.bounds, hi.attempts, hi.given, fun k' h hmem => ?_⟩
  rcases mem_append.mp hmem with hmem | hmem
  · exact hi.sweeps k' h hmem
  · obtain ⟨rfl, rfl⟩ := Prod.mk.inj (mem_singleton.mp hmem)
    have hlt : k' < o.bounds.length := by rw [hb.pass]; exact Nat.lt_succ_self k'
    refine ⟨_, getElem?_eq_getElem hlt, fun x hxs => ?_⟩
    refine (hb.rest x (mem_of_mem_take hxs)).imp (fun hold => ?_) (hx x)
    rwa [← prefix_iff_eq_take.mp hb.handed]

/-- At the beginning of a sweep, what is held has still to be tried. -/
theorem Owns.began {o : Obj α} (hi : Valid o) (h : Owns [] o) (hk : InPass k o) :
    ∃ xs, SweepingAll .canceled k xs [] o ∧ Began k o.handed xs o := by
  let pend := o.initializationOp.toList ++ queuesOf (fun _ => true) o
  have hheld : ∀ a, o.phase a = .dispatched ↔ a ∈ pend := fun a => by
    refine (h.2 a).trans ?_
    simp only [pend, queuesOf, mem_append, if_true, not_mem_nil, or_false]
    exact or_comm
  refine ⟨pend.map o.key, ⟨h, by rw [hk, Nat.add_sub_cancel], fun x hx => ?_⟩,
    hk, prefix_refl _, fun x hx => ?_⟩
  · obtain ⟨a, ha, rfl⟩ := mem_map.mp hx
    exact .inr ⟨ha, (hheld a).mpr ha, rfl⟩
  · refine (hi.started x hx).imp_right fun hcur => ?_
    rw [hcur.1]
    exact mem_map_of_mem ((hheld x.1).mp hcur.2)

/-- **The sweep of `cancelIo`** tries everything dispatched so far and not handed over when it
began. -/
theorem outline_cancelIoSweep (fd : Bool) (k : ℕ) :
    Outline terms (fun o => Owns [] o ∧ InPass k o) (cancelIoSweep (α := α) fd)
      fun _ o => Owns [] o ∧ Swept k o := by
  have hS : Stable terms fun o : Obj α => Owns [] o ∧ InPass k o :=
    (stable_owns []).and (stable_inPass k)
  have hH : ∀ n, Stable terms fun o : Obj α => (Owns [] o ∧ InPass k o) ∧ o.handed.length = n :=
    fun n => hS.and fun o o' _ _ hr h => (congrArg List.length hr.handed).trans h
  refine .bind (outline_look hS hH fun _ _ h => ⟨h, rfl⟩) fun before => ?_
  refine .obtain (R := fun (r : List ((α × ℕ) × Status) × List (α × ℕ)) o =>
    r.1.length = before ∧ SweepingAll .canceled k r.2 [] o ∧ Began k r.1 r.2 o) (hH before)
    (fun o hi h => ?_) ?_
  · obtain ⟨xs, hxs⟩ := h.1.1.began hi h.1.2
    exact ⟨(o.handed, xs), h.2, hxs⟩
  rintro ⟨old, xs⟩
  have hall := (outline_cancelAllObjectOperations fd k xs []).frame (stable_began k old xs)
    fun _ _ _ _ hg => Began.serving hg
  refine Outline.assume hall.stable ?_
  rintro rfl
  refine .bind hall fun _ => outline_step
    ((stable_sweeping _ _ _ _ _).and (stable_began k old xs))
    (fun _ => (stable_owns []).and (stable_swept k)) fun o hi ⟨hsw, hb⟩ => ?_
  have hk : o.bounds.length - 1 = k := by rw [hb.pass, Nat.add_sub_cancel]
  rw [hk]
  refine ⟨hi.addSweep hb fun x hx => ?_, ⟨fun _ => Iff.rfl, fun _ h => ⟨h, rfl⟩, rfl, rfl,
    prefix_refl _, List.Subset.refl _, subset_append_left _ _⟩, hsw.1, old.length, by simp⟩
  rcases hsw.2.2 x hx with htried | hpend
  · exact htried
  · simp [queuesOf] at hpend

/-! ### Reaping -/

section Reaping

variable {hand : List α}

/-- What `reapQueue` gives up has a final status. -/
theorem reapAction_final {state : Running} {status : Status} {action : ReapAction}
    (hact : combinerSelectReapAction state status = action) (h : action ≠ .keep) :
    status ≠ .pending := by
  rintro rfl
  exact h hact.symm

theorem outline_reapKeep {q : Bool → List α} {slot : Option α} {l : List α} {op : α} (hop : op ∈ l)
    (fd : Bool) :
    Outline terms (Holds q slot l) (reapKeep fd op)
      fun kept o => Holds q slot l o ∧ (kept = false → Final op o) := by
  refine outline_inspect (stable_holds q slot l) (fun o h => h.dispatched hop)
    fun status state _ => ?_
  have hF := stable_finalOf (a := op) (stable_holds q slot l) status
  have hB : Blind fun o => Holds q slot l o ∧ Final op o := (blind_holds q slot l).and (blind_final op)
  have hS : Stable terms fun o => Holds q slot l o ∧ Final op o :=
    (stable_holds q slot l).and (stable_final op)
  rcases hact : combinerSelectReapAction state status with _ | _ | _
  · exact .ret hF fun _ _ h => ⟨h.1, fun h => by cases h⟩
  · have hst := reapAction_final hact (by decide)
    refine Outline.pre (R := fun o => Holds q slot l o ∧ Final op o) ?_ hF
      fun _ _ h => ⟨h.1, h.2 hst⟩
    exact outline_tryCancel hS hB fd (fun _ h => h.2) fun _ => .ret hS fun _ _ h => ⟨h.1, fun _ => h.2⟩
  · have hst := reapAction_final hact (by decide)
    exact .ret hF fun _ _ h => ⟨h.1, fun _ => h.2 hst⟩

/-- **`reapQueue`** -/
theorem outline_reapQueue (fd write : Bool) :
    Outline terms (Owns hand) (reapQueue fd write) fun _ => Owns hand := by
  refine .obtain (R := fun (qs : (Bool → List α) × Option α) o =>
    Holds qs.1 qs.2 (qs.1 write ++ (qs.1 (!write) ++ (qs.2.toList ++ hand))) o)
    (stable_owns hand) (fun o _ h => ⟨(o.queue, o.initializationOp), h.holds_queue write⟩) ?_
  rintro ⟨q, slot⟩
  have hS := stable_holds q slot (q write ++ (q (!write) ++ (slot.toList ++ hand)))
  refine .bind (outline_getQueue write hS fun o h => h.queue write) fun list =>
    Outline.assume hS ?_
  rintro rfl
  refine .bind ((outline_survivors (E := fun _ _ => True) (fun _ => Stable.pure _)
    (fun _ _ _ _ _ h => h) (fun op rest l' hop => ?_) [] (q write)).pre hS
      fun _ _ h => ⟨h, trivial⟩) fun kept => ?_
  · exact (outline_reapKeep hop fd).conseq ((stable_holds _ _ _).and (Stable.pure _))
      (fun _ _ h => h.1) fun _ _ _ h => ⟨⟨h.1, trivial⟩, h.2⟩
  refine .bind (outline_putQueue q slot hand ((stable_holds _ _ _).and (Stable.pure _))
    (stable_owns hand) (fun o h => h.1) fun _ _ h _ => h) fun _ => ?_
  cases kept with
  | nil => exact .skip (stable_owns hand)
  | cons head rest =>
    exact .bind (outline_peek (stable_owns hand)) fun _ => .skip (stable_owns hand)

theorem outline_reapInitializationOp (fd : Bool) :
    Outline terms (Owns hand) (reapInitializationOp fd) fun _ => Owns hand := by
  refine .bind (outline_getInitializationOp (stable_owns hand)) fun slot => ?_
  cases slot with
  | none => exact .ret ((stable_owns hand).and (stable_slot _)) fun _ _ h => h.1
  | some op =>
    have hS := stable_ownsSlot hand op
    refine outline_inspect hS (fun o h => h.1.dispatched_slot h.2) fun status state _ => ?_
    have hF := stable_finalOf (a := op) hS status
    have hR := stable_released hand op
    have hB : Blind fun o => Owns hand o ∧ InSlot op o ∧ Final op o :=
      (blind_owns hand).and ((blind_inSlot op).and (blind_final op))
    have hpre : status ≠ .pending → ∀ o : Obj α, Valid o →
        (Owns hand o ∧ InSlot op o) ∧ (status ≠ .pending → Final op o) →
          Owns hand o ∧ InSlot op o ∧ Final op o := fun hst o _ h => ⟨h.1.1, h.1.2, h.2 hst⟩
    rcases hact : combinerSelectReapAction state status with _ | _ | _
    · exact .ret hF fun _ _ h => h.1.1
    · have hst := reapAction_final hact (by decide)
      refine Outline.pre (outline_tryCancel hR hB fd (fun _ h => h.2.2) fun done => ?_) hF (hpre hst)
      split
      · exact outline_initializationRelease_owns fd op hst
      · exact .ret hR fun _ _ h => h.1
    · have hst := reapAction_final hact (by decide)
      refine Outline.pre ?_ hF (hpre hst)
      dsimp only
      split
      · exact outline_initializationReleaseUnstarted_owns fd op hst
      · exact outline_initializationRelease_owns fd op hst

/-- What `reapObject` does after a sweep. -/
theorem outline_reapRest (fd : Bool) :
    Outline terms (Owns hand) (do
        let start ← reapInitializationOp fd
        let startRead ← reapQueue fd false
        let startWrite ← reapQueue fd true
        return start ||| startRead ||| startWrite) fun _ => Owns hand :=
  .bind (outline_reapInitializationOp fd) fun _ => .bind (outline_reapQueue fd false) fun _ =>
    .bind (outline_reapQueue fd true) fun _ => .skip (stable_owns hand)

/-- **`reapObject`**, where it has no sweep to do. -/
theorem outline_reapObject_owns (fd : Bool) {tag : Tag} (h : tag.has tagCancelIo = false) :
    Outline terms (Owns hand) (reapObject fd tag) fun _ => Owns hand := by
  unfold reapObject
  rw [h]
  exact .bind (.skip (stable_owns hand)) fun _ => outline_reapRest fd

/-- **`reapObject`**: with `CANCELIO` in its tag, dispatch `k` sweeps. -/
theorem outline_reapObject (fd : Bool) (tag : Tag) (k : ℕ) :
    Outline terms (fun o => Owns [] o ∧ InPass k o) (reapObject (α := α) fd tag)
      fun _ o => Owns [] o ∧ (tag.has tagCancelIo = true → Swept k o) := by
  cases htag : tag.has tagCancelIo with
  | false =>
    refine (outline_reapObject_owns fd htag).conseq ((stable_owns []).and (stable_inPass k))
      (fun _ _ h => h.1) fun _ _ _ h => ⟨h, fun h => by cases h⟩
  | true =>
    unfold reapObject
    rw [htag]
    refine .bind (outline_cancelIoSweep fd k) fun _ => ?_
    exact ((outline_reapRest fd).frame (stable_swept k) fun _ _ _ _ hg => Swept.serving hg).post
      fun _ _ _ h => ⟨h.1, fun _ => h.2⟩

end Reaping

/-! ### Executing -/

section Executing

variable {hand : List α}

theorem outline_getDeletePending {P : Obj α → Prop} (hP : Stable terms P) :
    Outline terms P getDeletePending fun _ => P := outline_peek hP

theorem outline_executeFrom {q : Bool → List α} {slot : Option α} {l : List α} (list : List α) :
    Outline terms (Holds q slot (list ++ l)) (executeFrom list)
      fun left => Holds q slot (left ++ l) := by
  induction list with
  | nil => exact .skip (stable_holds _ _ _)
  | cons op rest ih =>
    have hS := stable_holds q slot (op :: rest ++ l)
    have hB := blind_holds q slot (op :: rest ++ l)
    have hrelease : Outline terms (fun o => Holds q slot (op :: rest ++ l) o ∧ Final op o)
        (do opRelease op; executeFrom rest) fun left => Holds q slot (left ++ l) :=
      .bind (outline_addToGlobalQueue (hS.and (stable_final op)) (stable_holds q slot (rest ++ l))
        (fun _ h => h.2) fun _ h => h.1.handOver) fun _ => ih
    have hmem : ∀ o, Holds q slot (op :: rest ++ l) o → o.phase op = .dispatched :=
      fun o h => h.dispatched (by simp)
    refine .bind (outline_opGetStatus hS hmem) fun status => ?_
    have hF := stable_finalOf (a := op) hS status
    split
    · next hst => exact hrelease.pre hF fun _ _ h => ⟨h.1, h.2 hst⟩
    · refine .bind ((outline_getDeletePending hS).pre hF fun _ _ h => h.1) fun dying => ?_
      split
      · exact .skip hS
      · refine .bind (outline_executeMethod hS op) fun result => ?_
        split
        · exact .bind (outline_setRunning hS hB op .running fun _ _ h => by cases h) fun _ =>
            .skip hS
        · next hres =>
          refine .bind (outline_opGetGeneration hS hmem) fun g => ?_
          exact .bind (outline_opSetStatus hS hB hres) fun _ => hrelease

/-- **`executeOperationList`** -/
theorem outline_executeOperationList (write : Bool) :
    Outline terms (Owns hand) (executeOperationList write) fun _ => Owns hand := by
  refine .obtain (R := fun (qs : (Bool → List α) × Option α) o =>
    Holds qs.1 qs.2 (qs.1 write ++ (qs.1 (!write) ++ (qs.2.toList ++ hand))) o)
    (stable_owns hand) (fun o _ h => ⟨(o.queue, o.initializationOp), h.holds_queue write⟩) ?_
  rintro ⟨q, slot⟩
  have hS := stable_holds q slot (q write ++ (q (!write) ++ (slot.toList ++ hand)))
  refine .bind (outline_getQueue write hS fun o h => h.queue write) fun list =>
    Outline.assume hS ?_
  rintro rfl
  refine .bind (outline_peek hS) fun initialization => ?_
  split
  · refine .ret hS fun o _ h => (h.perm ?_).owns
    have := all_perm q write (slot.toList ++ hand)
    simpa [append_assoc] using this.symm
  · exact .bind (outline_executeFrom _) fun left => outline_putQueue q slot hand
      (stable_holds _ _ _) (stable_owns hand) (fun _ h => h) fun _ _ h _ => h

end Executing

/-! ### Starting -/

section Starting

theorem Owns.setSlot {hand : List α} {o : Obj α} {op : α} (h : Owns (op :: hand) o)
    (hslot : o.initializationOp = none) : Owns hand { o with initializationOp := some op } := by
  unfold Owns at h ⊢
  rw [hslot] at h
  have hl : o.queue false ++ o.queue true ++ (none : Option α).toList ++ op :: hand =
      o.queue false ++ o.queue true ++ (some op).toList ++ hand := by simp
  rw [hl] at h
  exact h

/-- The initialization operation takes its slot and runs. -/
theorem outline_startInitialization (fd : Bool) (op : α) :
    Outline terms (fun o => Owns [op] o ∧ o.initializationOp = none) (do
        setInitializationOp (some op)
        let status ← opGetStatus op
        if status ≠ .pending then initializationReleaseUnstarted fd op status
        else
          let status ← opGetStatus op
          if status ≠ .pending then initializationRelease fd op status
          else
            let result ← executeMethod op
            initializationTryComplete fd op result) fun _ => Owns [] := by
  have hS := stable_ownsSlot [] op
  have hmem : ∀ o, Owns [] o ∧ InSlot op o → o.phase op = .dispatched :=
    fun o h => h.1.dispatched_slot h.2
  refine .bind (M := fun _ o => Owns [] o ∧ InSlot op o)
    (outline_step ((stable_owns [op]).and (stable_slot none)) (fun _ => hS) fun o hi h =>
      ⟨hi.setSlot _, .setSlot o _, h.1.setSlot h.2, rfl⟩) fun _ => ?_
  refine .bind (outline_opGetStatus hS hmem) fun status => ?_
  have hF := stable_finalOf (a := op) hS status
  split
  · next hst =>
    exact (outline_initializationReleaseUnstarted_owns fd op hst).pre hF
      fun _ _ h => ⟨h.1.1, h.1.2, h.2 hst⟩
  · refine .bind ((outline_opGetStatus hS hmem).pre hF fun _ _ h => h.1) fun status' => ?_
    have hF' := stable_finalOf (a := op) hS status'
    split
    · next hst =>
      exact (outline_initializationRelease_owns fd op hst).pre hF'
        fun _ _ h => ⟨h.1.1, h.1.2, h.2 hst⟩
    · exact .bind ((outline_executeMethod hS op).pre hF' fun _ _ h => h.1) fun result =>
        outline_initializationTryComplete fd op result

/-- An ordinary operation joins its queue. -/
theorem outline_startQueued (fd write : Bool) (op : α) :
    Outline terms (Owns [op]) (do
        let list ← getQueue write
        putQueue write (list ++ [op])
        let status ← opGetStatus op
        if status ≠ .pending then reapObject fd tagCancel
        else
          let list ← getQueue write
          match list with
          | [] => return 0#6
          | head :: _ =>
            let state ← getRunning head
            return if state = .waiting then directionBit write else 0#6) fun _ => Owns [] := by
  refine .obtain (R := fun (qs : (Bool → List α) × Option α) o =>
    Holds qs.1 qs.2 (qs.1 write ++ (qs.1 (!write) ++ (qs.2.toList ++ [op]))) o)
    (stable_owns [op]) (fun o _ h => ⟨(o.queue, o.initializationOp), h.holds_queue write⟩) ?_
  rintro ⟨q, slot⟩
  have hO := stable_owns (α := α) []
  have hS := stable_holds q slot (q write ++ (q (!write) ++ (slot.toList ++ [op])))
  refine .bind (outline_getQueue write hS fun o h => h.queue write) fun list =>
    Outline.assume hS ?_
  rintro rfl
  refine .bind (outline_putQueue q slot [] hS hO (fun o h => h.perm ?_) fun _ _ h _ => h) fun _ => ?_
  · rw [append_assoc]
    refine List.Perm.append_left _ ?_
    rw [← append_assoc, append_nil]
    exact perm_append_comm
  refine .bind (outline_peek hO) fun status => ?_
  split
  · exact outline_reapObject_owns fd (by decide)
  · refine .bind (outline_peek hO) fun list => ?_
    cases list with
    | nil => exact .skip hO
    | cons head rest => exact .bind (outline_peek hO) fun _ => .skip hO

/-- **`startOperation`** moves its operation from the hand to the object, or hands it over. -/
theorem outline_startOperation (fd : Bool) (op : α) :
    Outline terms (Owns [op]) (startOperation fd op) fun _ => Owns [] := by
  have hO := stable_owns [op]
  refine .bind (outline_peek hO) fun state => ?_
  refine .bind (M := fun _ => Owns [op]) ?_ fun dying => ?_
  · split
    · exact outline_getDeletePending hO
    · exact .skip hO
  split
  · exact .bind (outline_opReleaseUnstarted_owns op (by decide)) fun _ =>
      .skip (stable_owns [])
  · refine .bind (outline_peek hO) ?_
    rintro ⟨isInit, isWrite⟩
    dsimp only
    split
    · refine .bind (outline_getInitializationOp hO) fun slot => ?_
      cases slot with
      | none => exact outline_startInitialization fd op
      | some other =>
        exact .bind ((outline_opReleaseUnstarted_owns op (by decide)).pre
          (hO.and (stable_slot _)) fun _ _ h => h.1) fun _ => .skip (stable_owns [])
    · exact outline_startQueued fd isWrite op

end Starting

/-! ### The pass -/

theorem outline_errorSweep {hand : List α} (fd : Bool) :
    Outline terms (Owns hand) (errorSweep fd) fun _ => Owns hand := by
  have hO := stable_owns hand
  refine .bind (M := fun _ => Owns hand) (.pick hO (fun _ => hO) ?_) fun drained => ?_
  · rintro o x o' rfl hi hp
    exact ⟨hi, .refl o', hp⟩
  · split
    · exact outline_cancelOperationList_owns fd false (by decide)
    · exact .skip hO

/-- A part of the pass that is sometimes left out. -/
theorem outline_when {P : Obj α → Prop} {β : Type} {c : Prop} [Decidable c] {p : Prog (Obj α) β}
    (x : β) (hP : Stable terms P) (h : Outline terms P p fun _ => P) :
    Outline terms P (if c then p else pure x) fun _ => P := by
  split
  · exact h
  · exact .skip hP

/-- A tag without `CANCEL` and `CANCELIO` has no `CANCELIO`. -/
theorem has_cancelIo_of_not {sig : Tag} (h : ¬ sig.has (tagCancel ||| tagCancelIo) = true) :
    sig.has tagCancelIo = false := by
  revert sig
  decide

/-- **The pass** of dispatch `k`: it takes the operation that came with the entry from the hand,
and sweeps if the signal says so. -/
theorem outline_core (fd : Bool) (op : Option α) (sig : Tag) (k : ℕ) :
    Outline terms (fun o => Owns op.toList o ∧ InPass k o) (reactorCombinerCore fd op sig)
      fun _ o => Owns [] o ∧ (sig.has tagCancelIo = true → Swept k o) := by
  have hO := stable_owns (α := α) []
  have inPass : ∀ {β : Type} {P : Obj α → Prop} {Q : β → Obj α → Prop} {p : Prog (Obj α) β},
      Outline terms P p Q →
        Outline terms (fun o => P o ∧ InPass k o) p fun x o => Q x o ∧ InPass k o :=
    fun h => h.frame (stable_inPass k) fun _ _ _ _ hg => InPass.serving hg
  have swept : ∀ {p : Prog (Obj α) Unit}, Outline terms (Owns []) p (fun _ => Owns []) →
      Outline terms (fun o => Owns [] o ∧ (sig.has tagCancelIo = true → Swept k o)) p
        fun _ o => Owns [] o ∧ (sig.has tagCancelIo = true → Swept k o) :=
    fun h => h.frame (fun o o' hi hi' hr hs hsig => stable_swept k o o' hi hi' hr (hs hsig))
      fun _ _ _ _ hg hs hsig => (hs hsig).serving hg
  refine .bind (inPass (outline_when false (stable_owns op.toList)
    (outline_getDeletePending (stable_owns op.toList)))) fun dying => ?_
  refine .bind (M := fun _ o => Owns [] o ∧ InPass k o) (inPass ?_) fun start => ?_
  · cases op with
    | none => exact .skip hO
    | some op => exact outline_startOperation fd op
  refine .bind (inPass (outline_when 0#6 hO (outline_processInitializationOp fd))) fun start' => ?_
  refine .bind (M := fun _ o => Owns [] o ∧ (sig.has tagCancelIo = true → Swept k o)) ?_
    fun start'' => ?_
  · split
    · exact outline_reapObject fd sig k
    · next h =>
      refine .ret (hO.and (stable_inPass k)) fun _ _ hp => ⟨hp.1, fun hsig => ?_⟩
      rw [has_cancelIo_of_not h] at hsig
      cases hsig
  refine .bind (swept (outline_when () hO (outline_errorSweep fd))) fun _ => ?_
  refine .bind (swept (outline_when () hO (outline_executeOperationList false))) fun _ => ?_
  exact swept (outline_when () hO (outline_executeOperationList true))

end Reactor

end Asyncio
