import Asyncio.Concurrent.Outline
import Asyncio.Reactor.Code
import Mathlib.Data.List.Perm.Basic

/-!
# The reactor pass accounts for its operations

Everything the pass does to an operation moves it between places: from the serving thread's hand
into a queue or the slot, out of them, and finally into `addToGlobalQueue`. The outlines here are
over the object's own state. They say that at every point the serving thread can account for all
operations dispatched and not handed over: they are those in the queues, in the slot, and in its
hand, each once.

## Main definitions

* `Reactor.Valid` — holds in every state of the object
* `Reactor.Others` — what other threads do meanwhile: they win status compare-and-swaps, create
  operations, set `DeletePending`
* `Reactor.Owns` — the serving thread's account

## Main results

* `Reactor.outline_cancelOperationList` — a sweep tries a whole queue, and the account stands
* `Reactor.outline_initializationRelease` — so does the cascade behind a failed initialization
-/

namespace Asyncio

namespace Reactor

set_option linter.unusedSectionVars false

open Concurrent Combiner Function List

variable {α : Type}

/-! ### The object's invariant -/

/-- The operation of an attempt. -/
def Attempt.key (x : Attempt α) : α × ℕ := (x.op, x.generation)

/-- Holds in every state of the object. -/
structure Valid (o : Obj α) : Prop where
  /-- Only an operation with a final status is asked to stop. -/
  cancelling : ∀ a, o.phase a ≠ .idle → (o.op a).running = .cancelling → (o.op a).status ≠ .pending
  /-- Nothing is handed over pending. -/
  terminal : ∀ h ∈ o.handed, h.2 ≠ .pending
  /-- What was handed over is no current operation. -/
  handed : ∀ h ∈ o.handed, h.1.2 < (o.op h.1.1).generation ∨
    h.1.2 = (o.op h.1.1).generation ∧ o.phase h.1.1 = .idle
  /-- Nothing is handed over twice. -/
  once : (o.handed.map Prod.fst).Nodup
  /-- What was dispatched is handed over or still current. -/
  started : ∀ x ∈ o.started, x ∈ o.handed.map Prod.fst ∨
    x = o.key x.1 ∧ o.phase x.1 = .dispatched
  dispatched : ∀ a, o.phase a = .dispatched → o.key a ∈ o.started
  /-- The last dispatch counts all operations dispatched. -/
  last : o.started ≠ [] → o.bounds[o.bounds.length - 1]? = some o.started.length
  bounds : ∀ n ∈ o.bounds, n ≤ o.started.length
  /-- A sweep tries operations dispatched up to its own dispatch. -/
  attempts : ∀ x ∈ o.attempts, ∃ n, o.bounds[x.pass]? = some n ∧ x.key ∈ o.started.take n
  /-- A pending operation gets the status the sweep gives. -/
  given : ∀ x ∈ o.attempts, x.seen = .pending → x.left = x.given
  /-- A sweep of `cancelIo` tries everything dispatched up to it and not yet handed over. -/
  sweeps : ∀ k h, (k, h) ∈ o.sweeps → ∃ n, o.bounds[k]? = some n ∧ ∀ x ∈ o.started.take n,
    x ∈ (o.handed.take h).map Prod.fst ∨
      ∃ y ∈ o.attempts, y.pass = k ∧ y.key = x ∧ y.given = .canceled

/-- What other threads may do while one serves the object. -/
structure Others (o o' : Obj α) : Prop where
  queue : ∀ write, o'.queue write = o.queue write
  slot : o'.initializationOp = o.initializationOp
  started : o'.started = o.started
  bounds : o'.bounds = o.bounds
  handed : o'.handed = o.handed
  attempts : o'.attempts = o.attempts
  sweeps : o'.sweeps = o.sweeps
  phase : ∀ a, o'.phase a = .dispatched ↔ o.phase a = .dispatched
  generation : ∀ a, o.phase a = .dispatched → (o'.op a).generation = (o.op a).generation
  status : ∀ a, o.phase a = .dispatched → (o.op a).status ≠ .pending →
    (o'.op a).status = (o.op a).status
  running : ∀ a, o.phase a = .dispatched → (o'.op a).running = (o.op a).running

/-- What the serving thread may do. -/
structure Serving (o o' : Obj α) : Prop where
  submitted : ∀ a, o'.phase a = .submitted ↔ o.phase a = .submitted
  dispatched : ∀ a, o'.phase a = .dispatched → o.phase a = .dispatched ∧
    (o'.op a).generation = (o.op a).generation
  started : o'.started = o.started
  bounds : o'.bounds = o.bounds
  handed : o.handed <+: o'.handed
  attempts : o.attempts ⊆ o'.attempts
  sweeps : o.sweeps ⊆ o'.sweeps

theorem Serving.refl (o : Obj α) : Serving o o :=
  ⟨fun _ => Iff.rfl, fun _ h => ⟨h, rfl⟩, rfl, rfl, prefix_refl _, List.Subset.refl _,
    List.Subset.refl _⟩

/-- The terms on which the serving thread runs the pass. -/
def terms : Terms (Obj α) := ⟨Valid, Others, Serving⟩

/-! ### The account -/

/-- The operations dispatched and not handed over are those of `l`, each once. -/
def Held (l : List α) (o : Obj α) : Prop :=
  l.Nodup ∧ ∀ a, o.phase a = .dispatched ↔ a ∈ l

variable {o : Obj α}

theorem Held.perm {l l' : List α} (h : Held l o) (hl : l.Perm l') : Held l' o :=
  ⟨hl.nodup_iff.mp h.1, fun a => (h.2 a).trans hl.mem_iff⟩

/-- The fields of the object, and what the serving thread really holds. -/
structure Holds (q : Bool → List α) (slot : Option α) (l : List α) (o : Obj α) : Prop where
  queue : ∀ write, o.queue write = q write
  slot : o.initializationOp = slot
  held : Held l o

/-- Everything is in the queues, in the slot, or in the thread's hand. -/
def Owns (hand : List α) (o : Obj α) : Prop :=
  Held (o.queue false ++ o.queue true ++ o.initializationOp.toList ++ hand) o

/-- A final status of an operation that is held. -/
def Final (a : α) (o : Obj α) : Prop := o.phase a = .dispatched ∧ (o.op a).status ≠ .pending

/-- The generation of an operation that is held. -/
def HasGeneration (a : α) (g : ℕ) (o : Obj α) : Prop :=
  o.phase a = .dispatched ∧ (o.op a).generation = g

theorem stable_held (l : List α) : Stable terms (Held l) :=
  fun _ _ _ _ hr h => ⟨h.1, fun a => (hr.phase a).trans (h.2 a)⟩

theorem stable_holds (q : Bool → List α) (slot : Option α) (l : List α) :
    Stable terms (Holds q slot l) :=
  fun o o' hi hi' hr h => ⟨fun b => (hr.queue b).trans (h.queue b), hr.slot.trans h.slot,
    stable_held l o o' hi hi' hr h.held⟩

theorem stable_owns (hand : List α) : Stable terms (Owns hand) := by
  intro o o' hi hi' hr h
  unfold Owns
  rw [hr.queue, hr.queue, hr.slot]
  exact stable_held _ o o' hi hi' hr h

theorem stable_final (a : α) : Stable terms (Final a) :=
  fun _ _ _ _ hr h => ⟨(hr.phase a).mpr h.1, by rw [hr.status a h.1 h.2]; exact h.2⟩

theorem stable_hasGeneration (a : α) (g : ℕ) : Stable terms (HasGeneration a g) :=
  fun _ _ _ _ hr h => ⟨(hr.phase a).mpr h.1, (hr.generation a h.1).trans h.2⟩

theorem stable_slot (slot : Option α) : Stable terms fun o => o.initializationOp = slot :=
  fun _ _ _ _ hr h => hr.slot.trans h

theorem Owns.holds {hand : List α} (h : Owns hand o) :
    Holds o.queue o.initializationOp
      (o.queue false ++ o.queue true ++ o.initializationOp.toList ++ hand) o :=
  ⟨fun _ => rfl, rfl, h⟩

variable {q : Bool → List α} {slot : Option α}

theorem Holds.owns {hand : List α}
    (h : Holds q slot (q false ++ q true ++ slot.toList ++ hand) o) : Owns hand o := by
  unfold Owns
  rw [h.queue, h.queue, h.slot]
  exact h.held

/-! ### Accesses -/

variable {P : Obj α → Prop}

theorem outline_executeMethod (hP : Stable terms P) (a : α) :
    Outline terms P (executeMethod a) fun _ => P := by
  refine .pick hP (fun _ => hP) ?_
  rintro o x o' rfl hi hp
  exact ⟨hi, .refl o', hp⟩

theorem outline_cancelMethod (hP : Stable terms P) (fd : Bool) (a : α) :
    Outline terms P (cancelMethod fd a) fun _ => P := by
  refine .pick hP (fun _ => hP) ?_
  rintro o x o' ⟨-, rfl⟩ hi hp
  exact ⟨hi, .refl o', hp⟩

variable [DecidableEq α]

theorem outline_step {β : Type} {f : Obj α → β × Obj α}
    {Q : β → Obj α → Prop} (hP : Stable terms P) (hQ : ∀ x, Stable terms (Q x))
    (h : ∀ o, Valid o → P o → Valid (f o).2 ∧ Serving o (f o).2 ∧ Q (f o).1 (f o).2) :
    Outline terms P (step f) Q := by
  refine .act hP hQ fun o x o' heq hi hp => ?_
  have hspec := h o hi hp
  rw [Option.some.inj heq] at hspec
  exact hspec

/-- An access that only reads. -/
theorem outline_look {β : Type} {f : Obj α → β} {Q : β → Obj α → Prop}
    (hP : Stable terms P) (hQ : ∀ x, Stable terms (Q x)) (h : ∀ o, Valid o → P o → Q (f o) o) :
    Outline terms P (step fun o => (f o, o)) Q :=
  outline_step hP hQ fun o hi hp => ⟨hi, .refl o, h o hi hp⟩

@[simp] theorem setOp_op_self (o : Obj α) (a : α) (x : Op) : (o.setOp a x).op a = x := by
  simp [Obj.setOp]

theorem setOp_op_of_ne (o : Obj α) {a b : α} (x : Op) (h : b ≠ a) :
    (o.setOp a x).op b = o.op b := by
  simp [Obj.setOp, h]

variable {a : α}

/-- Writing a cell's running state or giving it a final status keeps the object valid. -/
theorem Valid.setOp (h : Valid o) {x : Op} (hg : x.generation = (o.op a).generation)
    (hr : x.running = .cancelling → x.status ≠ .pending) : Valid (o.setOp a x) := by
  have hgen : ∀ b, ((o.setOp a x).op b).generation = (o.op b).generation := by
    intro b
    rcases eq_or_ne b a with rfl | hb
    · simpa using hg
    · rw [setOp_op_of_ne o x hb]
  refine ⟨fun b hb => ?_, h.terminal, fun y hy => ?_, h.once,
    fun y hy => ?_, fun b hb => ?_, h.last, h.bounds, h.attempts, h.given, h.sweeps⟩
  · rcases eq_or_ne b a with rfl | hne
    · simpa using hr
    · rw [setOp_op_of_ne o x hne]; exact h.cancelling b hb
  · rw [hgen]
    exact h.handed y hy
  · have := h.started y hy
    simp only [Obj.key] at this ⊢
    rwa [hgen]
  · have := h.dispatched b hb
    simp only [Obj.key] at this ⊢
    rwa [hgen]

theorem Serving.setOp (o : Obj α) {x : Op} (hg : x.generation = (o.op a).generation) :
    Serving o (o.setOp a x) := by
  refine ⟨fun _ => Iff.rfl, fun b hb => ⟨hb, ?_⟩, rfl, rfl, prefix_refl _,
    List.Subset.refl _, List.Subset.refl _⟩
  rcases eq_or_ne b a with rfl | hne
  · simpa using hg
  · rw [setOp_op_of_ne o x hne]

/-- Assertions that do not mind a cell's running state, nor a status that becomes final. -/
def Blind (P : Obj α → Prop) : Prop :=
  ∀ o a x, x.generation = (o.op a).generation →
    ((o.op a).status ≠ .pending → x.status = (o.op a).status) → P o → P (o.setOp a x)

variable {P Q : Obj α → Prop}

theorem Blind.and (hP : Blind P) (hQ : Blind Q) : Blind fun o => P o ∧ Q o :=
  fun o a x hg hs h => ⟨hP o a x hg hs h.1, hQ o a x hg hs h.2⟩

theorem blind_holds (q : Bool → List α) (slot : Option α) (l : List α) :
    Blind (Holds q slot l) := fun _ _ _ _ _ h => ⟨h.queue, h.slot, h.held⟩

theorem blind_owns (hand : List α) : Blind (Owns hand) := fun _ _ _ _ _ h => h

theorem blind_final (b : α) : Blind (Final b) := by
  intro o a x _ hs h
  refine ⟨h.1, ?_⟩
  rcases eq_or_ne b a with rfl | hne
  · rw [setOp_op_self, hs h.2]; exact h.2
  · rw [setOp_op_of_ne o x hne]; exact h.2

theorem blind_hasGeneration (b : α) (g : ℕ) : Blind (HasGeneration b g) := by
  intro o a x hg _ h
  refine ⟨h.1, ?_⟩
  rcases eq_or_ne b a with rfl | hne
  · rw [setOp_op_self, hg]; exact h.2
  · rw [setOp_op_of_ne o x hne]; exact h.2

theorem outline_setRunning (hP : Stable terms P) (hB : Blind P) (a : α)
    (r : Running) (h : ∀ o, P o → r = .cancelling → (o.op a).status ≠ .pending) :
    Outline terms P (setRunning a r) fun _ => P :=
  outline_step hP (fun _ => hP) fun o hi hp =>
    ⟨hi.setOp rfl (h o hp), .setOp o rfl, hB o a _ rfl (fun _ => rfl) hp⟩

variable {status : Status}

/-- Setting the status of a held operation: whoever wins, the status is final then. -/
theorem outline_opSetStatus (hP : Stable terms P) (hB : Blind P) {g : ℕ} (hst : status ≠ .pending):
    Outline terms (fun o => P o ∧ HasGeneration a g o) (opSetStatus a g status)
      fun _ o => P o ∧ Final a o := by
  refine outline_step (hP.and (stable_hasGeneration a g)) (fun _ => hP.and (stable_final a))
    fun o hi ⟨hp, hph, hg⟩ => ?_
  unfold casStatus
  split
  · next h =>
    refine ⟨hi.setOp rfl fun _ => hst, .setOp o rfl,
      hB o a _ rfl (fun h0 => absurd h.2 h0) hp, hph, ?_⟩
    simpa using hst
  · next h => exact ⟨hi, .refl o, hp, hph, fun h0 => h ⟨hg, h0⟩⟩

theorem outline_opGetGeneration (hP : Stable terms P) (ha : ∀ o, P o → o.phase a = .dispatched):
    Outline terms P (opGetGeneration a) fun g o => P o ∧ HasGeneration a g o :=
  outline_look hP (fun g => hP.and (stable_hasGeneration a g)) fun o _ hp => ⟨hp, ha o hp, rfl⟩

/-- Reading the status of a held operation. -/
theorem outline_opGetStatus (hP : Stable terms P) (ha : ∀ o, P o → o.phase a = .dispatched):
    Outline terms P (opGetStatus a) fun status o => P o ∧ (status ≠ .pending → Final a o) := by
  have hF : ∀ status : Status, Stable terms fun o => P o ∧ (status ≠ .pending → Final a o) :=
    fun status => hP.and fun o o' hi hi' hr h hs => stable_final a o o' hi hi' hr (h hs)
  exact outline_look hP hF fun o _ hp => ⟨hp, fun hs => ⟨ha o hp, hs⟩⟩

/-! ### Handing over -/

/-- Handing over an operation with a final status keeps the object valid. -/
theorem Valid.handOver_of (hi : Valid o) (hst : (o.op a).status ≠ .pending)
    (hold : ∀ x ∈ o.handed, x.1.1 = a → x.1.2 < (o.op x.1.1).generation) :
    Valid (o.handOver a) := by
  have hnot : o.key a ∉ o.handed.map Prod.fst := by
    intro hmem
    obtain ⟨x, hx, hxa⟩ := mem_map.mp hmem
    have hlt := hold x hx (congrArg Prod.fst hxa)
    rw [hxa] at hlt
    exact Nat.lt_irrefl _ hlt
  refine ⟨fun b hb => hi.cancelling b fun hidle => hb ?_, fun x hx => ?_, fun x hx => ?_, ?_, fun x hx => ?_,
    fun b hb => ?_, hi.last, hi.bounds, hi.attempts, hi.given, fun k n hk => ?_⟩
  · simp [Obj.handOver, update_apply, hidle]
  · rcases mem_append.mp hx with hx | hx
    · exact hi.terminal x hx
    · rw [mem_singleton.mp hx]; exact hst
  · rcases mem_append.mp hx with hx | hx
    · by_cases hxa : x.1.1 = a
      · exact .inl (hold x hx hxa)
      · simpa [Obj.handOver, hxa] using hi.handed x hx
    · rw [mem_singleton.mp hx]
      exact .inr ⟨rfl, by simp [Obj.handOver, Obj.key]⟩
  · simp only [Obj.handOver, map_append]
    exact nodup_append'.mpr ⟨hi.once, nodup_singleton _, by simpa using hnot⟩
  · simp only [Obj.handOver, map_append]
    rcases hi.started x hx with hmem | ⟨hkey, hd⟩
    · exact .inl (mem_append_left _ hmem)
    · by_cases hxa : x.1 = a
      · refine .inl (mem_append_right _ ?_)
        rw [hkey, hxa]
        simp
      · exact .inr ⟨hkey, by simpa [hxa] using hd⟩
  · rcases eq_or_ne b a with rfl | hne
    · simp [Obj.handOver] at hb
    · exact hi.dispatched b (by simpa [Obj.handOver, hne] using hb)
  · obtain ⟨m, hm, hall⟩ := hi.sweeps k n hk
    refine ⟨m, hm, fun x hx => (hall x hx).imp_left fun hmem => ?_⟩
    simp only [Obj.handOver, take_append, map_append]
    exact mem_append_left _ hmem

theorem Valid.handOver (hi : Valid o) (h : Final a o) :
    Valid (o.handOver a) := by
  refine hi.handOver_of h.2 fun x hx hxa => ?_
  rcases hi.handed x hx with hlt | ⟨-, hidle⟩
  · exact hlt
  · rw [hxa, h.1] at hidle; cases hidle

theorem Serving.handOver (h : o.phase a = .dispatched) :
    Serving o (o.handOver a) := by
  refine ⟨fun b => ?_, fun b hb => ?_, rfl, rfl, prefix_append _ _, List.Subset.refl _,
    List.Subset.refl _⟩
  · rcases eq_or_ne b a with rfl | hne
    · simp [Obj.handOver, h]
    · simp [Obj.handOver, hne]
  · rcases eq_or_ne b a with rfl | hne
    · simp [Obj.handOver] at hb
    · exact ⟨by simpa [Obj.handOver, hne] using hb, rfl⟩

variable {l : List α}

theorem Held.handOver (h : Held (a :: l) o) :
    Held l (o.handOver a) := by
  obtain ⟨hnd, hmem⟩ := h
  rw [nodup_cons] at hnd
  refine ⟨hnd.2, fun b => ?_⟩
  rcases eq_or_ne b a with rfl | hne
  · simpa [Obj.handOver] using hnd.1
  · simpa [Obj.handOver, hne] using hmem b

theorem Holds.handOver (h : Holds q slot (a :: l) o): Holds q slot l (o.handOver a) :=
  ⟨h.queue, h.slot, h.held.handOver⟩

/-- **Handing over**, from wherever the status is known to be final. -/
theorem outline_addToGlobalQueue (hP : Stable terms P)
    (hQ : Stable terms Q) (hfinal : ∀ o, P o → Final a o) (h : ∀ o, P o → Q (o.handOver a)) :
    Outline terms P (addToGlobalQueue a) fun _ => Q :=
  outline_step hP (fun _ => hQ) fun o hi hp =>
    ⟨hi.handOver (hfinal o hp), .handOver (hfinal o hp).1, h o hp⟩

/-! ### Sweeps

`Due status k xs pend`: every operation of `xs` was tried in dispatch `k`, or is among `pend`,
which the sweep has still to come to. -/

theorem Holds.perm {l l' : List α} (h : Holds q slot l o) (hl : l.Perm l'): Holds q slot l' o :=
  ⟨h.queue, h.slot, h.held.perm hl⟩

def Tried (status : Status) (k : ℕ) (x : α × ℕ) (o : Obj α) : Prop :=
  ∃ y ∈ o.attempts, y.pass = k ∧ y.key = x ∧ y.given = status

def Due (status : Status) (k : ℕ) (xs : List (α × ℕ)) (pend : List α) (o : Obj α) : Prop :=
  o.bounds.length - 1 = k ∧
    ∀ x ∈ xs, Tried status k x o ∨ x.1 ∈ pend ∧ HasGeneration x.1 x.2 o

theorem stable_due (status : Status) (k : ℕ) (xs : List (α × ℕ)) (pend : List α) :
    Stable terms (Due status k xs pend) := by
  refine fun o o' hi hi' hr h => ⟨by rw [hr.bounds]; exact h.1, fun x hx => ?_⟩
  refine (h.2 x hx).imp (fun ht => ?_) fun hp => ⟨hp.1, stable_hasGeneration _ _ o o' hi hi' hr hp.2⟩
  unfold Tried
  rw [hr.attempts]
  exact ht

variable {xs : List (α × ℕ)}

theorem Due.mono {k : ℕ} {pend pend' : List α}
    (h : Due status k xs pend o) (hp : pend ⊆ pend') : Due status k xs pend' o :=
  ⟨h.1, fun x hx => (h.2 x hx).imp_right fun hpend => ⟨hp hpend.1, hpend.2⟩⟩

theorem Due.handOver {k : ℕ} {pend : List α} (h : Due status k xs pend o) (ha : a ∉ pend):
    Due status k xs pend (o.handOver a) := by
  refine ⟨h.1, fun x hx => (h.2 x hx).imp_right fun hp => ⟨hp.1, ?_, hp.2.2⟩⟩
  have hne : x.1 ≠ a := fun heq => ha (heq ▸ hp.1)
  simpa [Obj.handOver, hne] using hp.2.1

theorem blind_due (status : Status) (k : ℕ) (xs : List (α × ℕ)) (pend : List α) :
    Blind (Due status k xs pend) :=
  fun o a x hg hs h => ⟨h.1, fun y hy => (h.2 y hy).imp_right fun hp =>
    ⟨hp.1, blind_hasGeneration _ _ o a x hg hs hp.2⟩⟩

/-- One status compare-and-swap of a sweep: the operation is tried, and its status is final then. -/
theorem outline_sweepStatus {l pend : List α} {g k : ℕ} (hst : status ≠ .pending):
    Outline terms
      (fun o => (Holds q slot l o ∧ Due status k xs (a :: pend) o) ∧ HasGeneration a g o)
      (sweepStatus a g status)
      fun _ o => (Holds q slot l o ∧ Due status k xs pend o) ∧ Final a o := by
  refine outline_step (((stable_holds _ _ _).and (stable_due _ _ _ _)).and (stable_hasGeneration a g))
    (fun _ => ((stable_holds _ _ _).and (stable_due _ _ _ _)).and (stable_final a))
    fun o hi ⟨⟨hh, hd⟩, hph, hg⟩ => ?_
  -- What the compare-and-swap alone does.
  obtain ⟨hv, hsv, hhold, hfin, hgen, hleft⟩ : Valid (casStatus a g status o).2 ∧
      Serving o (casStatus a g status o).2 ∧ Holds q slot l (casStatus a g status o).2 ∧
      Final a (casStatus a g status o).2 ∧
      (∀ b n, HasGeneration b n o → HasGeneration b n (casStatus a g status o).2) ∧
      ((o.op a).status = .pending → ((casStatus a g status o).2.op a).status = status) := by
    unfold casStatus
    split
    · next h =>
      have hs : (o.op a).status ≠ .pending → status = (o.op a).status := fun h0 => absurd h.2 h0
      exact ⟨hi.setOp rfl fun _ => hst, .setOp o rfl,
        blind_holds _ _ _ o a _ rfl hs hh, ⟨hph, by simpa using hst⟩,
        fun b n => blind_hasGeneration b n o a _ rfl hs, fun _ => by simp⟩
    · next h =>
      exact ⟨hi, .refl o, hh, ⟨hph, fun h0 => h ⟨hg, h0⟩⟩, fun _ _ hb => hb,
        fun h0 => absurd ⟨hg, h0⟩ h⟩
  have hatt : (casStatus a g status o).2.attempts = o.attempts := by
    unfold casStatus; split <;> rfl
  have hbnd : (casStatus a g status o).2.bounds = o.bounds := hsv.bounds
  have hkey : o.key a = (a, g) := by rw [Obj.key, hg]
  have hmem : (a, g) ∈ o.started := hkey ▸ hi.dispatched a hph
  refine ⟨⟨hv.cancelling, hv.terminal, hv.handed, hv.once, hv.started, hv.dispatched, hv.last, hv.bounds,
    fun x hx => ?_, fun x hx => ?_, fun n m hnm => ?_⟩,
    ⟨hsv.submitted, hsv.dispatched, hsv.started, hsv.bounds, hsv.handed,
      subset_append_left _ _, hsv.sweeps⟩,
    ⟨⟨hhold.queue, hhold.slot, hhold.held⟩, hbnd ▸ hd.1, fun x hx => ?_⟩, hfin⟩
  · rcases mem_append.mp hx with hx | hx
    · exact hv.attempts x (hatt ▸ hx)
    · refine ⟨o.started.length, ?_, ?_⟩
      · rw [mem_singleton.mp hx, hbnd]
        exact hi.last (ne_nil_of_mem hmem)
      · rw [mem_singleton.mp hx, hsv.started, take_length]
        exact hmem
  · rcases mem_append.mp hx with hx | hx
    · exact hv.given x (hatt ▸ hx)
    · rw [mem_singleton.mp hx]
      exact hleft
  · obtain ⟨j, hj, hall⟩ := hv.sweeps n m hnm
    refine ⟨j, hj, fun x hx => (hall x hx).imp_right ?_⟩
    rintro ⟨y, hy, hrest⟩
    exact ⟨y, mem_append_left _ (hatt ▸ hy), hrest⟩
  · rcases hd.2 x hx with ⟨y, hy, hrest⟩ | ⟨hpend, hx⟩
    · exact .inl ⟨y, mem_append_left _ hy, hrest⟩
    · rcases mem_cons.mp hpend with hxa | hpend
      · refine .inl ⟨_, mem_append_right _ (mem_singleton_self _), hd.1, ?_, rfl⟩
        exact Prod.ext hxa.symm (hg.symm.trans (hxa ▸ hx.2))
      · exact .inr ⟨hpend, hgen _ _ hx⟩

/-- **The shared walk.** `E rest` is what a use adds before the operations of `rest`; a released
operation's status is final. -/
theorem outline_survivors {keep : α → Prog (Obj α) Bool}
    {E : List α → Obj α → Prop} (hE : ∀ rest, Stable terms (E rest))
    (hrel : ∀ op rest o, op ∉ rest → op ∉ l → E rest o → E rest (o.handOver op))
    (hkeep : ∀ op rest l', op ∈ l' → Outline terms
      (fun o => Holds q slot l' o ∧ E (op :: rest) o) (keep op)
      fun kept o => (Holds q slot l' o ∧ E rest o) ∧ (kept = false → Final op o)) (acc rest : List α):
    Outline terms (fun o => Holds q slot (acc ++ rest ++ l) o ∧ E rest o)
      (survivors keep acc rest) fun kept o => Holds q slot (kept ++ l) o ∧ E [] o := by
  have hA : ∀ acc rest, Stable terms fun o => Holds q slot (acc ++ rest ++ l) o ∧ E rest o :=
    fun acc rest => (stable_holds _ _ _).and (hE rest)
  induction rest generalizing acc with
  | nil => exact .ret (hA acc []) fun _ _ h => by simpa using h
  | cons op rest ih =>
    refine .bind (hkeep op rest _ (by simp)) fun kept => ?_
    have hF : Stable terms fun o => (Holds q slot (acc ++ (op :: rest) ++ l) o ∧ E rest o) ∧
        (kept = false → Final op o) :=
      ((stable_holds _ _ _).and (hE rest)).and
        fun o o' hi hi' hr h hk => stable_final op o o' hi hi' hr (h hk)
    cases kept with
    | true => exact (ih (acc ++ [op])).pre hF fun o _ h => ⟨by simpa using h.1.1, h.1.2⟩
    | false =>
      refine .bind (M := fun _ o => Holds q slot (acc ++ rest ++ l) o ∧ E rest o) ?_ fun _ => ih acc
      refine outline_addToGlobalQueue hF (hA acc rest) (fun o h => h.2 rfl) fun o h => ?_
      have hh : Holds q slot (op :: (acc ++ rest ++ l)) o := by
        refine h.1.1.perm ?_
        simp only [append_assoc, cons_append]
        exact perm_middle
      have hnd := (nodup_cons.mp hh.held.1).1
      exact ⟨hh.handOver, hrel op rest o (fun hm => hnd (by simp [hm]))
        (fun hm => hnd (by simp [hm])) h.1.2⟩

theorem Holds.dispatched
    (h : Holds q slot l o) (ha : a ∈ l) : o.phase a = .dispatched := (h.held.2 a).mpr ha

variable {op : α}

/-- Asking a running operation to stop, where its status is final. -/
theorem outline_tryCancel (hP : Stable terms P) (hB : Blind P) (fd : Bool)
    (h : ∀ o, P o → Final op o) {β : Type} {f : Bool → Prog (Obj α) β}
    {Q : β → Obj α → Prop} (hf : ∀ done, Outline terms P (f done) Q) :
    Outline terms P (do
        setRunning op .cancelling
        let done ← cancelMethod fd op
        f done) Q :=
  .bind (outline_setRunning hP hB op .cancelling fun o hp _ => (h o hp).2) fun _ =>
    .bind (outline_cancelMethod hP fd op) hf

theorem outline_cancelKeep {l pend : List α} {k : ℕ} (hst : status ≠ .pending) (hop : op ∈ l) (fd : Bool):
    Outline terms (fun o => Holds q slot l o ∧ Due status k xs (op :: pend) o)
      (cancelKeep fd status op)
      fun _ o => (Holds q slot l o ∧ Due status k xs pend o) ∧ Final op o := by
  have hS : Stable terms fun o => Holds q slot l o ∧ Due status k xs (op :: pend) o :=
    (stable_holds _ _ _).and (stable_due _ _ _ _)
  have hF : Stable terms fun o => (Holds q slot l o ∧ Due status k xs pend o) ∧ Final op o :=
    ((stable_holds _ _ _).and (stable_due _ _ _ _)).and (stable_final op)
  refine .bind (outline_opGetGeneration hS fun o h => h.1.dispatched hop) fun g => ?_
  refine .bind (outline_sweepStatus hst) fun won => ?_
  have hB : Blind fun o => (Holds q slot l o ∧ Due status k xs pend o) ∧ Final op o :=
    ((blind_holds _ _ _).and (blind_due _ _ _ _)).and (blind_final op)
  split
  · refine .bind (outline_look hF (fun _ => hF) fun _ _ h => h) fun state => ?_
    split
    · exact outline_tryCancel hF hB fd (fun _ h => h.2) fun _ => .skip hF
    · exact .skip hF
  · exact .skip hF

/-- What the queues and the slot hold, with one queue first. -/
theorem all_perm (q : Bool → List α) (write : Bool) (rest : List α) :
    (q false ++ q true ++ rest).Perm (q write ++ (q (!write) ++ rest)) := by
  cases write with
  | false => simp [append_assoc]
  | true =>
    rw [append_assoc]
    exact perm_append_comm_assoc _ _ _

/-- The queues a sweep has still to come to. -/
def queuesOf (left : Bool → Bool) (o : Obj α) : List α :=
  (if left false then o.queue false else []) ++ if left true then o.queue true else []

/-- In the middle of a sweep. -/
def Sweeping (status : Status) (k : ℕ) (xs : List (α × ℕ)) (hand : List α) (left : Bool → Bool)
    (o : Obj α) : Prop :=
  Owns hand o ∧ Due status k xs (queuesOf left o) o

theorem stable_sweeping (status : Status) (k : ℕ) (xs : List (α × ℕ)) (hand : List α)
    (left : Bool → Bool) : Stable terms (Sweeping status k xs hand left) := by
  refine (stable_owns hand).and fun o o' hi hi' hr h => ?_
  have hq : queuesOf left o' = queuesOf left o := by
    simp only [queuesOf, hr.queue]
  rw [hq]
  exact stable_due _ _ _ _ o o' hi hi' hr h

theorem queue_setQueue (o : Obj α) (write : Bool) (q : List α) :
    (o.setQueue write q).queue = update o.queue write q := by
  funext b
  cases write <;> cases b <;> rfl

theorem Valid.setQueue (h : Valid o) (write : Bool) (q : List α) :
    Valid (o.setQueue write q) := by
  cases write <;> exact ⟨h.cancelling, h.terminal, h.handed, h.once, h.started, h.dispatched, h.last, h.bounds,
    h.attempts, h.given, h.sweeps⟩

theorem Serving.setQueue (o : Obj α) (write : Bool) (q : List α) :
    Serving o (o.setQueue write q) := by
  cases write <;> exact ⟨fun _ => Iff.rfl, fun _ h => ⟨h, rfl⟩, rfl, rfl, prefix_refl _,
    List.Subset.refl _, List.Subset.refl _⟩

theorem Holds.setQueue (h : Holds q slot l o) (write : Bool) (s : List α):
    Holds (update q write s) slot l (o.setQueue write s) := by
  refine ⟨fun b => ?_, ?_, ?_⟩
  · rw [queue_setQueue, funext h.queue]
  · cases write <;> exact h.slot
  · cases write <;> exact h.held

/-- Writing back the survivors of a walk gives the account again. -/
theorem outline_putQueue (q : Bool → List α) (slot : Option α) (hand : List α) {kept : List α}
    {write : Bool} (hP : Stable terms P) (hQ : Stable terms Q)
    (hold : ∀ o, P o → Holds q slot (kept ++ (q (!write) ++ (slot.toList ++ hand))) o)
    (h : ∀ o, P o → Owns hand (o.setQueue write kept) → (o.setQueue write kept).queue =
      update q write kept → Q (o.setQueue write kept)) :
    Outline terms P (putQueue write kept) fun _ => Q := by
  refine outline_step hP (fun _ => hQ) fun o hi hp => ⟨hi.setQueue .., .setQueue .., h o hp ?_ ?_⟩
  · have hh := (hold o hp).setQueue write kept
    refine (hh.perm (List.Perm.symm ?_)).owns
    have hother : update q write kept (!write) = q (!write) :=
      update_of_ne (by simp) _ _
    have := all_perm (update q write kept) write (slot.toList ++ hand)
    rw [update_self, hother] at this
    rwa [← append_assoc] at this
  · rw [queue_setQueue, funext (hold o hp).queue]

theorem Owns.holds_queue {hand : List α} (h : Owns hand o) (write : Bool) :
    Holds o.queue o.initializationOp
      (o.queue write ++ (o.queue (!write) ++ (o.initializationOp.toList ++ hand))) o := by
  refine h.holds.perm ?_
  have := all_perm o.queue write (o.initializationOp.toList ++ hand)
  simpa [append_assoc] using this

/-- Reading a queue whose contents are known. -/
theorem outline_getQueue {q : List α} (write : Bool) (hP : Stable terms P)
    (h : ∀ o, P o → o.queue write = q) :
    Outline terms P (getQueue write) fun list o => list = q ∧ P o :=
  outline_look hP (fun _ => (Stable.pure _).and hP) fun o _ hp => ⟨h o hp, hp⟩

/-- **`cancelOperationList`** tries the whole queue and keeps the account. -/
theorem outline_cancelOperationList (fd write : Bool) (hst : status ≠ .pending)
    (k : ℕ) (xs : List (α × ℕ)) (hand : List α) (left : Bool → Bool) :
    Outline terms (Sweeping status k xs hand left) (cancelOperationList fd write status)
      fun _ => Sweeping status k xs hand (update left write false) := by
  refine .obtain (R := fun (qs : (Bool → List α) × Option α) o =>
    Holds qs.1 qs.2 (qs.1 write ++ (qs.1 (!write) ++ (qs.2.toList ++ hand))) o ∧
      Due status k xs (qs.1 write ++ if left (!write) then qs.1 (!write) else []) o)
    (stable_sweeping _ _ _ _ _) (fun o _ h => ?_) ?_
  · refine ⟨(o.queue, o.initializationOp), h.1.holds_queue write, h.2.mono fun a ha => ?_⟩
    revert ha
    cases write <;> cases hf : left false <;> cases ht : left true <;>
      simp +contextual [queuesOf, hf, ht, or_imp]
  rintro ⟨q, slot⟩
  dsimp only
  generalize hl : q (!write) ++ (slot.toList ++ hand) = l
  generalize hpend : (if left (!write) then q (!write) else []) = pend
  have hsub : pend ⊆ l := by
    rw [← hpend, ← hl]
    split
    · exact subset_append_left _ _
    · exact nil_subset _
  have hS : Stable terms fun o => Holds q slot (q write ++ l) o ∧ Due status k xs (q write ++ pend) o :=
    (stable_holds _ _ _).and (stable_due _ _ _ _)
  refine .bind (outline_getQueue write hS fun o h => h.1.queue write) fun list =>
    Outline.assume hS ?_
  rintro rfl
  refine .bind (outline_survivors (l := l) (E := fun rest => Due status k xs (rest ++ pend))
    (fun rest => stable_due _ _ _ _) (fun op rest o hr hl h => h.handOver ?_)
    (fun op rest l' hop => ?_) [] (q write)) fun kept => ?_
  · intro hmem
    rcases mem_append.mp hmem with hmem | hmem
    · exact hr hmem
    · exact hl (hsub hmem)
  · exact (outline_cancelKeep hst hop fd).post fun _ _ _ h => ⟨h.1, fun _ => h.2⟩
  · refine outline_putQueue q slot hand
      ((stable_holds _ _ _).and (stable_due _ _ _ _)) (stable_sweeping _ _ _ _ _)
      (fun o h => hl ▸ h.1) fun o h hown hq => ⟨hown, ?_⟩
    have hpend' : queuesOf (update left write false) (o.setQueue write kept) = pend := by
      rw [← hpend]
      cases write <;> simp [queuesOf, hq]
    rw [hpend']
    have hd := h.2
    cases write <;> exact ⟨hd.1, hd.2⟩

/-! ### Releasing -/

section Releasing

variable {status : Status} {k : ℕ} {xs : List (α × ℕ)} {hand : List α} {left : Bool → Bool}

theorem Owns.not_mem_queuesOf (h : Owns (op :: hand) o) (left : Bool → Bool) :
    op ∉ queuesOf left o := by
  have hnd := h.1
  intro hmem
  have hq : op ∈ o.queue false ++ o.queue true ++ o.initializationOp.toList := by
    revert hmem
    cases hf : left false <;> cases ht : left true <;>
      simp +contextual [queuesOf, hf, ht, or_imp]
  exact (nodup_append'.mp hnd).2.2 hq (by simp)

theorem Owns.handOver (h : Owns (op :: hand) o) : Owns hand (o.handOver op) := by
  unfold Owns at h ⊢
  exact (h.perm perm_middle).handOver

/-- The operation in hand is released. -/
theorem outline_release (op : α) :
    Outline terms (fun o => Sweeping status k xs (op :: hand) left o ∧ Final op o)
      (addToGlobalQueue op) fun _ => Sweeping status k xs hand left :=
  outline_addToGlobalQueue ((stable_sweeping _ _ _ _ _).and (stable_final op))
    (stable_sweeping _ _ _ _ _) (fun _ h => h.2) fun _ h =>
      ⟨h.1.1.handOver, h.1.2.handOver (h.1.1.not_mem_queuesOf left)⟩

theorem Owns.dispatched (h : Owns hand o)
    (ha : a ∈ o.queue false ++ o.queue true ++ o.initializationOp.toList ++ hand) :
    o.phase a = .dispatched := (h.2 a).mpr ha

theorem blind_sweeping (status : Status) (k : ℕ) (xs : List (α × ℕ)) (hand : List α)
    (left : Bool → Bool) : Blind (Sweeping status k xs hand left) :=
  fun o a x hg hs h => ⟨h.1, blind_due _ _ _ _ o a x hg hs h.2⟩

theorem outline_opReleaseUnstarted (op : α) {final : Status} (hst : final ≠ .pending) :
    Outline terms (Sweeping status k xs (op :: hand) left) (opReleaseUnstarted op final)
      fun _ => Sweeping status k xs hand left := by
  have hS := stable_sweeping status k xs (op :: hand) left
  refine .bind (outline_opGetGeneration hS fun o h => h.1.dispatched (by simp)) fun g => ?_
  exact .bind (outline_opSetStatus hS (blind_sweeping _ _ _ _ _) hst) fun _ => outline_release op

/-- What `initializationRelease` leaves to do: the queues behind a failure. -/
theorem outline_initializationCascade (fd : Bool) (hst : status ≠ .pending) :
    Outline terms (Sweeping status k xs hand left) (initializationCascade fd status)
      fun _ => Sweeping status k xs hand left := by
  have hS := stable_sweeping status k xs hand left
  unfold initializationCascade
  split
  · refine .bind (outline_cancelOperationList fd false hst k xs hand left) fun _ => ?_
    refine .bind (outline_cancelOperationList fd true hst k xs hand _) fun _ => ?_
    refine .ret (stable_sweeping _ _ _ _ _) fun o _ h => ⟨h.1, h.2.mono ?_⟩
    simp [queuesOf]
  · exact .skip hS

theorem Valid.setSlot (h : Valid o) (slot : Option α) :
    Valid { o with initializationOp := slot } :=
  ⟨h.cancelling, h.terminal, h.handed, h.once, h.started, h.dispatched, h.last, h.bounds, h.attempts, h.given,
    h.sweeps⟩

theorem Serving.setSlot (o : Obj α) (slot : Option α) :
    Serving o { o with initializationOp := slot } :=
  ⟨fun _ => Iff.rfl, fun _ h => ⟨h, rfl⟩, rfl, rfl, prefix_refl _, List.Subset.refl _,
    List.Subset.refl _⟩

theorem Owns.clearSlot (h : Owns hand o) (hop : o.initializationOp = some op) :
    Owns (op :: hand) { o with initializationOp := none } := by
  unfold Owns at h ⊢
  rw [hop] at h
  have hl : o.queue false ++ o.queue true ++ (some op).toList ++ hand =
      o.queue false ++ o.queue true ++ (none : Option α).toList ++ op :: hand := by simp
  rw [hl] at h
  exact h

/-- What is known of the slot's operation. -/
def InSlot (op : α) (o : Obj α) : Prop := o.initializationOp = some op

theorem outline_clearInitializationOp (op : α) :
    Outline terms (fun o => Sweeping status k xs hand left o ∧ InSlot op o ∧ Final op o)
      (clearInitializationOp op)
      fun _ o => Sweeping status k xs (op :: hand) left o ∧ Final op o := by
  refine outline_step ((stable_sweeping _ _ _ _ _).and ((stable_slot _).and (stable_final op)))
    (fun _ => (stable_sweeping _ _ _ _ _).and (stable_final op)) fun o hi ⟨h, hop, hf⟩ => ?_
  simp only [show o.initializationOp = some op from hop, ↓reduceIte]
  exact ⟨hi.setSlot none, .setSlot o none, ⟨h.1.clearSlot hop, h.2⟩, hf⟩

/-- **`initializationRelease`** -/
theorem outline_initializationRelease (fd : Bool) (op : α) (hst : status ≠ .pending) :
    Outline terms (fun o => Sweeping status k xs hand left o ∧ InSlot op o ∧ Final op o)
      (initializationRelease fd op status) fun _ => Sweeping status k xs hand left :=
  .bind (outline_clearInitializationOp op) fun _ => .bind (outline_release op) fun _ =>
    outline_initializationCascade fd hst

/-- **`initializationReleaseUnstarted`** -/
theorem outline_initializationReleaseUnstarted (fd : Bool) (op : α) (hst : status ≠ .pending) :
    Outline terms (fun o => Sweeping status k xs hand left o ∧ InSlot op o ∧ Final op o)
      (initializationReleaseUnstarted fd op status) fun _ => Sweeping status k xs hand left :=
  .bind (outline_clearInitializationOp op) fun _ => .bind
    ((outline_opReleaseUnstarted op hst).pre ((stable_sweeping _ _ _ _ _).and (stable_final op))
      fun _ _ h => h.1) fun _ => outline_initializationCascade fd hst

end Releasing

end Reactor

end Asyncio
