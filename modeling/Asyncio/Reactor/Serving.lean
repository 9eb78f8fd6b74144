import Asyncio.Combiner.Exclusive
import Asyncio.Reactor.Pass

/-!
# The reactor behind the combiner

The combiner with the reactor pass as its handler. The record in the object's state follows the
combiner's: the operations of `started` are the nodes dispatched, and whenever nobody is inside a
dispatch, the operations dispatched and not handed over are in the object's queues and its slot.

## Main definitions

* `Reactor.backend` — what the combiner takes from the reactor
* `Reactor.Consistent` — what the reactor adds to the combiner's invariant

## Main results

* `Reactor.supports` — the reactor keeps to that
-/

namespace Asyncio

namespace Reactor

set_option linter.unusedSectionVars false

open Concurrent Combiner Function List

variable {α τ : Type} [DecidableEq α]

/-! ### The backend -/

/-- `initAsyncOpRoot`: a cell from the pool becomes a new operation. -/
def initAsyncOpRoot (o : Obj α) (a : α) (o' : Obj α) : Prop :=
  o.phase a = .idle ∧ ∃ x : Op, x.generation = (o.op a).generation + 1 ∧ x.status = .pending ∧
    x.running ≠ .cancelling ∧
    o' = { o.setOp a x with phase := update o.phase a .submitted }

/-- `releaseAsyncOp` of an operation that was never pushed. -/
def discard (a : α) (o : Obj α) : Obj α := { o with phase := update o.phase a .idle }

/-- `syncImpl` and what `runAioOperation` does with its answer. It may leave a pending operation. It
may also finish, with or without an operation to tell the result; that operation is nobody else's
until it is handed over. -/
def syncImpl : Prog (Obj α) Bool :=
  .pick fun o pending o' => o' = o ∨ pending = false ∧ ∃ a, ∃ x : Op, o.phase a = .idle ∧
    x.generation = (o.op a).generation + 1 ∧ x.status ≠ .pending ∧ o' = (o.setOp a x).handOver a

/-- What the combiner takes from the reactor, for a descriptor-backed object or a composite one. -/
def backend (fd : Bool) : Backend α (Obj α) where
  enter := beginPass
  taskHandler := reactorCombinerCore fd
  cancelAll := cancelAllObjectOperations fd
  destructor := return ()
  syncImpl := syncImpl
  create := initAsyncOpRoot
  discard := discard
  deletePending := Obj.deletePending
  occupied write o := !(o.queue write).isEmpty || o.initializationOp.isSome

/-! ### What holds along every run -/

/-- Every finished dispatch of `es` that carried `CANCELIO` has swept. -/
def Done (es : List (Entry α)) (o : Obj α) : Prop :=
  ∀ k e, es[k]? = some e → e.tag.has tagCancelIo = true → e.tag.has tagDelete = false → Swept k o

/-- What holds in every state of every run, beyond the combiner's own invariant. -/
structure Consistent (s : State α τ (Obj α)) : Prop where
  valid : Valid s.mem.obj
  /-- A node in a call's hand or on the chain is an operation not yet dispatched. -/
  submitted : ∀ a, s.ghost.place a ≠ .free → s.mem.obj.phase a = .submitted
  started : s.mem.obj.started.map Prod.fst = nodesOf s.ghost.dispatched
  length : s.mem.obj.bounds.length = s.ghost.dispatched.length
  bounds : ∀ k < s.ghost.dispatched.length,
    s.mem.obj.bounds[k]? = some (nodesOf (s.ghost.dispatched.take (k + 1))).length
  /-- Nothing is in anybody's hand outside a dispatch. -/
  owns : s.ghost.busy = false → Owns [] s.mem.obj
  finished : s.ghost.busy = false → Done s.ghost.dispatched s.mem.obj
  /-- While a dispatch is going on, the ones before it are finished. -/
  before : Done s.ghost.dispatched.dropLast s.mem.obj

/-- Whoever does not serve the object does no more than the pass can stand. -/
def ext : Ext α τ (Obj α) where
  inv := Consistent
  rel t s s' := s.ghost.owners ≠ [t] → Others s.mem.obj s'.mem.obj

theorem Others.refl (o : Obj α) : Others o o :=
  ⟨fun _ => rfl, rfl, rfl, rfl, rfl, rfl, rfl, fun _ => Iff.rfl, fun _ _ => rfl, fun _ _ _ => rfl,
    fun _ _ => rfl⟩

theorem Done.mono {es : List (Entry α)} {o o' : Obj α} (h : Done es o)
    (hs : o.sweeps ⊆ o'.sweeps) : Done es o' := by
  intro k e hk hio hdel
  obtain ⟨n, hn⟩ := h k e hk hio hdel
  exact ⟨n, hs hn⟩

theorem stable_done (es : List (Entry α)) : Stable terms (Done es) :=
  fun _ _ _ _ hr h => h.mono (hr.sweeps ▸ List.Subset.refl _)

variable {s : State α τ (Obj α)} {o : Obj α}

/-- What other threads do to the object keeps it consistent. -/
theorem Consistent.others (h : Consistent s)
    {place : α → Place τ} (hv : Valid o) (hr : Others s.mem.obj o)
    (hs : ∀ a, place a ≠ .free → o.phase a = .submitted) :
    Consistent ⟨{ s.mem with obj := o }, { s.ghost with place := place }⟩ where
  valid := hv
  submitted := hs
  started := by rw [hr.started]; exact h.started
  length := by rw [hr.bounds]; exact h.length
  bounds := by rw [hr.bounds]; exact h.bounds
  owns hb := stable_owns [] _ _ h.valid hv hr (h.owns hb)
  finished hb := stable_done _ _ _ h.valid hv hr (h.finished hb)
  before := stable_done _ _ _ h.valid hv hr h.before

/-- What the serving thread does inside a dispatch keeps it consistent. -/
theorem Consistent.serving (h : Consistent s) (hv : Valid o)
    (hs : Serving s.mem.obj o) (hbusy : s.ghost.busy = true) :
    Consistent ⟨{ s.mem with obj := o }, s.ghost⟩ where
  valid := hv
  submitted a ha := (hs.submitted a).mpr (h.submitted a ha)
  started := by rw [hs.started]; exact h.started
  length := by rw [hs.bounds]; exact h.length
  bounds := by rw [hs.bounds]; exact h.bounds
  owns hb := absurd (hbusy.symm.trans hb) (by decide)
  finished hb := absurd (hbusy.symm.trans hb) (by decide)
  before := h.before.mono hs.sweeps

/-! ### What the other threads do -/

section Others

variable {o : Obj α} {a : α}

/-- A cell from the pool was not handed over in its new incarnation. -/
theorem Valid.handed_lt (h : Valid o) {x : Op} (hg : x.generation = (o.op a).generation + 1) :
    ∀ y ∈ o.handed, y.1.1 = a → y.1.2 < x.generation := by
  intro y hy hya
  have := h.handed y hy
  rw [hya] at this
  omega

/-- A cell from the pool becomes an operation again. -/
theorem Valid.renew (h : Valid o) (hidle : o.phase a = .idle) {x : Op}
    (hg : x.generation = (o.op a).generation + 1) (hr : x.running = .cancelling → x.status ≠ .pending)
    {p : Phase} (hp : p ≠ .dispatched) :
    Valid { o.setOp a x with phase := update o.phase a p } := by
  have hne : ∀ b, o.phase b = .dispatched → b ≠ a := by
    rintro b hb rfl
    rw [hidle] at hb
    cases hb
  refine ⟨fun b hb => ?_, h.terminal, fun y hy => ?_, h.once, fun y hy => ?_, fun b hb => ?_,
    h.last, h.bounds, h.attempts, h.given, h.sweeps⟩
  · rcases eq_or_ne b a with rfl | hba
    · simpa [Obj.setOp] using hr
    · simp only [update_of_ne hba] at hb
      simpa [Obj.setOp, hba] using h.cancelling b hb
  · by_cases hya : y.1.1 = a
    · left
      simpa [Obj.setOp, hya] using h.handed_lt hg y hy hya
    · simpa [Obj.setOp, hya] using h.handed y hy
  · refine (h.started y hy).imp_right fun hcur => ?_
    have hya := hne y.1 hcur.2
    simpa [Obj.setOp, Obj.key, hya] using hcur
  · rcases eq_or_ne b a with rfl | hba
    · simp [hp] at hb
    · simp only [update_of_ne hba] at hb
      simpa [Obj.setOp, Obj.key, hba] using h.dispatched b hb

/-- A cell from the pool becomes an operation that is handed over at once. -/
theorem Valid.finishNow (h : Valid o) (hidle : o.phase a = .idle) {x : Op}
    (hg : x.generation = (o.op a).generation + 1) (hst : x.status ≠ .pending) :
    Valid ((o.setOp a x).handOver a) ∧ ((o.setOp a x).handOver a).phase = o.phase := by
  have hphase : update o.phase a .idle = o.phase := by
    rw [← hidle, update_eq_self]
  have hv := h.renew hidle hg (fun _ => hst) (p := .idle) (by decide)
  rw [hphase] at hv
  refine ⟨hv.handOver_of ?_ fun y hy hya => ?_, hphase⟩
  · simpa [Obj.setOp] using hst
  · simpa [Obj.setOp, hya] using h.handed_lt hg y hy hya

/-- `initAsyncOpRoot` does not touch what is dispatched. -/
theorem initAsyncOpRoot_spec {o' : Obj α} (h : Valid o) (hc : initAsyncOpRoot o a o') :
    Valid o' ∧ Others o o' ∧ ∀ b, o'.phase b = if b = a then .submitted else o.phase b := by
  obtain ⟨hidle, x, hg, -, hr, rfl⟩ := hc
  refine ⟨h.renew hidle hg (fun h0 => absurd h0 hr) (by decide),
    ⟨fun _ => rfl, rfl, rfl, rfl, rfl, rfl, rfl, fun b => ?_, fun b hb => ?_, fun b hb _ => ?_,
      fun b hb => ?_⟩, fun b => update_apply ..⟩
  · rcases eq_or_ne b a with rfl | hba
    · simp [hidle]
    · simp [hba]
  all_goals
    have hba : b ≠ a := by
      rintro rfl
      rw [hidle] at hb
      cases hb
    simp [Obj.setOp, hba]

/-- So does `releaseAsyncOp` of an operation never pushed. -/
theorem discard_spec (h : Valid o) (ha : o.phase a = .submitted) :
    Valid (discard a o) ∧ Others o (discard a o) := by
  have hphase : ∀ b, b ≠ a → (discard a o).phase b = o.phase b :=
    fun b hb => update_of_ne hb ..
  have hself : (discard a o).phase a = .idle := update_self ..
  have hd : ∀ b, (discard a o).phase b = .dispatched ↔ o.phase b = .dispatched := by
    intro b
    rcases eq_or_ne b a with rfl | hba
    · rw [hself, ha]; decide
    · rw [hphase b hba]
  refine ⟨⟨fun b hb => h.cancelling b fun hidle => hb ?_, h.terminal, fun y hy => ?_, h.once,
    fun y hy => (h.started y hy).imp_right fun hcur => ⟨hcur.1, (hd _).mpr hcur.2⟩,
    fun b hb => h.dispatched b ((hd b).mp hb), h.last, h.bounds, h.attempts, h.given, h.sweeps⟩,
    ⟨fun _ => rfl, rfl, rfl, rfl, rfl, rfl, rfl, hd, fun _ _ => rfl, fun _ _ _ => rfl, fun _ _ => rfl⟩⟩
  · rcases eq_or_ne b a with rfl | hba
    · exact hself
    · rw [hphase b hba]; exact hidle
  · refine (h.handed y hy).imp_right fun hcur => ⟨hcur.1, ?_⟩
    rw [hphase y.1.1 ?_]
    · exact hcur.2
    · intro hya
      rw [hya, ha] at hcur
      cases hcur.2

/-- Winning a status compare-and-swap is all right at any time. -/
theorem casStatus_spec (h : Valid o) {g : ℕ} {status : Status} (hst : status ≠ .pending) :
    Valid (casStatus a g status o).2 ∧ Others o (casStatus a g status o).2 ∧
      (casStatus a g status o).2.phase = o.phase := by
  unfold casStatus
  split
  · next hwon =>
    refine ⟨h.setOp rfl fun _ => hst, ⟨fun _ => rfl, rfl, rfl, rfl, rfl, rfl, rfl, fun _ => Iff.rfl,
      fun b _ => ?_, fun b _ hb => ?_, fun b _ => ?_⟩, rfl⟩
    · rcases eq_or_ne b a with rfl | hba
      · simp
      · rw [setOp_op_of_ne o _ hba]
    · have hba : b ≠ a := by
        rintro rfl
        exact hb hwon.2
      rw [setOp_op_of_ne o _ hba]
    · rcases eq_or_ne b a with rfl | hba
      · simp
      · rw [setOp_op_of_ne o _ hba]
  · exact ⟨h, .refl o, rfl⟩

end Others

theorem ext_fits : (ext : Ext α τ (Obj α)).Fits := by
  intro t s s' hstep _ _ h
  obtain ⟨hobj, hdisp, hbusy, hplace⟩ := hstep.frame
  refine ⟨⟨hobj ▸ h.valid, fun a ha => hobj ▸ h.submitted a (hplace a ha), ?_, ?_, ?_,
    fun hb => ?_, fun hb => ?_, ?_⟩, fun _ => hobj ▸ .refl _⟩
  · rw [hobj, hdisp]; exact h.started
  · rw [hobj, hdisp]; exact h.length
  · rw [hobj, hdisp]; exact h.bounds
  · rw [hobj]; exact h.owns (hbusy ▸ hb)
  · rw [hobj, hdisp]; exact h.finished (hbusy ▸ hb)
  · rw [hobj, hdisp]; exact h.before

/-! ### Entering a dispatch -/

section Entering

variable {o : Obj α} {op : Option α}

theorem getElem?_append_of_some {β : Type} {l : List β} {k : ℕ} {x : β} (h : l[k]? = some x)
    (l' : List β) : (l ++ l')[k]? = some x := by
  rw [List.getElem?_append_left (List.getElem?_eq_some_iff.mp h).1, h]

theorem beginPass_started (op : Option α) (o : Obj α) :
    (beginPass op o).started = o.started ++ op.toList.map o.key := by
  cases op <;> simp [beginPass]

theorem beginPass_bounds (op : Option α) (o : Obj α) :
    (beginPass op o).bounds = o.bounds ++ [(beginPass op o).started.length] := by
  cases op <;> simp [beginPass]

theorem beginPass_phase (op : Option α) (o : Obj α) (b : α) :
    (beginPass op o).phase b = if b ∈ op then .dispatched else o.phase b := by
  cases op with
  | none => simp [beginPass]
  | some a =>
    rcases eq_or_ne b a with rfl | hba
    · simp [beginPass]
    · simp [beginPass, hba, hba.symm]

/-- What a dispatch does not touch. -/
theorem beginPass_rest (op : Option α) (o : Obj α) :
    (beginPass op o).op = o.op ∧ (beginPass op o).handed = o.handed ∧
      (beginPass op o).attempts = o.attempts ∧ (beginPass op o).sweeps = o.sweeps ∧
      (beginPass op o).queue = o.queue ∧
      (beginPass op o).initializationOp = o.initializationOp := by
  cases op <;> exact ⟨rfl, rfl, rfl, rfl, rfl, rfl⟩

/-- Dispatching a submitted operation keeps the object valid. -/
theorem Valid.beginPass (h : Valid o) (hop : ∀ a ∈ op, o.phase a = .submitted) :
    Valid (beginPass op o) := by
  obtain ⟨hcell, hhanded, hatt, hsw, -, -⟩ := beginPass_rest op o
  have hstart := beginPass_started op o
  have hbound := beginPass_bounds op o
  have hphase := beginPass_phase op o
  have hkey : (Reactor.beginPass op o).key = o.key := funext fun a => by rw [Obj.key, hcell]; rfl
  -- What was dispatched before is found at the same place.
  have htake : ∀ {k n}, o.bounds[k]? = some n →
      (Reactor.beginPass op o).started.take n = o.started.take n := fun hk => by
    rw [hstart, take_append_of_le_length (h.bounds _ (mem_of_getElem? hk))]
  refine ⟨fun b hb => ?_, by rw [hhanded]; exact h.terminal, fun y hy => ?_,
    by rw [hhanded]; exact h.once, fun y hy => ?_, fun b hb => ?_, fun _ => ?_, fun n hn => ?_,
    fun y hy => ?_, by rw [hatt]; exact h.given, fun k n hk => ?_⟩
  · rw [hcell]
    refine h.cancelling b fun hidle => ?_
    rw [hphase] at hb
    split at hb
    · next hmem => rw [hop b hmem] at hidle; cases hidle
    · exact hb hidle
  · rw [hhanded] at hy
    rw [hcell, hphase]
    refine (h.handed y hy).imp_right fun hcur => ⟨hcur.1, ?_⟩
    split
    · next hmem => rw [hop _ hmem] at hcur; cases hcur.2
    · exact hcur.2
  · rw [hstart] at hy
    rw [hhanded, hkey, hphase]
    rcases mem_append.mp hy with hy | hy
    · refine (h.started y hy).imp_right fun hcur => ⟨hcur.1, ?_⟩
      split
      · rfl
      · exact hcur.2
    · obtain ⟨a, ha, rfl⟩ := mem_map.mp hy
      exact .inr ⟨rfl, if_pos (Option.mem_toList.mp ha)⟩
  · rw [hphase] at hb
    rw [hstart, hkey]
    split at hb
    · next hmem =>
      exact mem_append_right _ (mem_map_of_mem (Option.mem_toList.mpr hmem))
    · exact mem_append_left _ (h.dispatched b hb)
  · rw [hbound]
    simp
  · rw [hbound] at hn
    rcases mem_append.mp hn with hn | hn
    · refine (h.bounds n hn).trans ?_
      rw [hstart, length_append]
      exact Nat.le_add_right _ _
    · rw [mem_singleton.mp hn]
  · rw [hatt] at hy
    obtain ⟨n, hn, hmem⟩ := h.attempts y hy
    refine ⟨n, ?_, by rw [htake hn]; exact hmem⟩
    rw [hbound]
    exact getElem?_append_of_some hn _
  · rw [hsw] at hk
    obtain ⟨m, hm, hall⟩ := h.sweeps k n hk
    refine ⟨m, ?_, ?_⟩
    · rw [hbound]
      exact getElem?_append_of_some hm _
    · rw [htake hm, hhanded, hatt]
      exact hall

/-- The operation that comes with an entry is in the hand. -/
theorem Owns.beginPass (h : Owns [] o) (hop : ∀ a ∈ op, o.phase a = .submitted) :
    Owns op.toList (beginPass op o) := by
  obtain ⟨-, -, -, -, hq, hslot⟩ := beginPass_rest op o
  unfold Owns at h ⊢
  rw [hq, hslot]
  rw [append_nil] at h
  refine ⟨nodup_append'.mpr ⟨h.1, ?_, ?_⟩, fun b => ?_⟩
  · cases op <;> simp
  · intro b hb hmem
    have := (h.2 b).mpr hb
    rw [hop b (Option.mem_toList.mp hmem)] at this
    cases this
  · rw [beginPass_phase, mem_append, ← h.2 b, Option.mem_toList]
    split
    · next hmem => exact iff_of_true rfl (.inr hmem)
    · next hmem => exact ⟨.inl, fun h => h.resolve_right hmem⟩

end Entering

/-! ### Serving -/

section Serving

variable {t : τ} {fd : Bool} {reversed : TaggedPtr α} {rest es : List (Entry α)} {e : Entry α}

/-- The node of a captured entry is an operation not yet dispatched. -/
theorem Consistent.submitted_of_captured (hi : Inv s)
    (h : Consistent s) (hcap : s.ghost.captured = e :: rest) :
    ∀ a ∈ e.node, s.mem.obj.phase a = .submitted := by
  intro a ha
  refine h.submitted a ?_
  rw [(hi.queued a).mpr (mem_nodesOf.mpr ⟨e, by simp [hcap], ha⟩)]
  simp

/-- Recording the dispatch of the next captured entry keeps the object consistent. -/
theorem Consistent.entered (hi : Inv s) (h : Consistent s)
    (hcap : s.ghost.captured = e :: rest) (hbusy : s.ghost.busy = false) :
    Consistent (s.entered (backend fd) e) := by
  have hop := h.submitted_of_captured hi hcap
  have hdisp : (s.entered (backend fd) e).ghost.dispatched = s.ghost.dispatched ++ [e] := by
    simp [State.entered, Ghost.beginDispatch, hcap]
  have hobj : (s.entered (backend fd) e).mem.obj = beginPass e.node s.mem.obj := rfl
  have hstart : (beginPass e.node s.mem.obj).started.map Prod.fst =
      nodesOf (s.ghost.dispatched ++ [e]) := by
    rw [beginPass_started, map_append, h.started, nodesOf_append, nodesOf_cons]
    cases e.node <;> simp [Obj.key]
  refine ⟨hobj ▸ h.valid.beginPass hop, fun b hb => ?_, ?_, ?_, fun k hk => ?_,
    fun hb => absurd hb (by simp [State.entered, Ghost.beginDispatch]),
    fun hb => absurd hb (by simp [State.entered, Ghost.beginDispatch]), ?_⟩
  · have hplace : s.ghost.place b ≠ .free ∧ b ∉ e.node := by
      cases hn : e.node with
      | none => exact ⟨by simpa [State.entered, Ghost.beginDispatch, hn] using hb, by simp⟩
      | some a =>
        rcases eq_or_ne b a with rfl | hba
        · simp [State.entered, Ghost.beginDispatch, hn] at hb
        · exact ⟨by simpa [State.entered, Ghost.beginDispatch, hn, hba] using hb,
            by simpa using hba.symm⟩
    rw [hobj, beginPass_phase, if_neg hplace.2]
    exact h.submitted b hplace.1
  · rw [hobj, hdisp]
    exact hstart
  · rw [hobj, hdisp, beginPass_bounds, length_append, length_append, h.length]
    rfl
  · rw [hdisp, length_append, length_singleton] at hk
    rw [hobj, hdisp, beginPass_bounds]
    rcases Nat.lt_succ_iff_lt_or_eq.mp hk with hlt | rfl
    · rw [take_append_of_le_length (Nat.succ_le_of_lt hlt)]
      exact getElem?_append_of_some (h.bounds k hlt) _
    · rw [take_of_length_le (by simp), ← hstart, length_map, ← h.length]
      simp
  · rw [hobj, hdisp, dropLast_concat]
    refine (h.finished hbusy).mono ?_
    rw [(beginPass_rest e.node s.mem.obj).2.2.2.1]
    exact List.Subset.refl _

/-- The thread serves the object and is inside the dispatch of the last entry of `es`, or in the
sweep after it. -/
def Inside (t : τ) (reversed : TaggedPtr α) (rest es : List (Entry α)) (s : State α τ (Obj α)) :
    Prop :=
  Handles t reversed rest s ∧ s.ghost.dispatched = es ∧ s.ghost.busy = true

theorem stable_inside : Stable (ext.terms t) (Inside t reversed rest es) := by
  intro s s' hi hi' hr h
  refine ⟨stable_handles _ _ s s' hi hi' hr h.1, ?_⟩
  obtain ⟨u, hu, hg, -⟩ := hr
  obtain ⟨-, -, hd, hb, -⟩ := hg.owner t hu.symm h.1.1
  exact ⟨hd.trans h.2.1, hb.trans h.2.2⟩

theorem rely_others (u : τ) (s s' : State α τ (Obj α)) (hu : u ≠ t) (ho : s.ghost.owners = [t])
    (hrel : ext.rel u s s') : Others s.mem.obj s'.mem.obj :=
  hrel (by rw [ho]; simpa using hu.symm)

theorem stable_inside_and {P : Obj α → Prop} (hP : Stable terms P) :
    Stable (ext.terms t) fun s => Inside t reversed rest es s ∧ P s.mem.obj :=
  stable_lift stable_inside (fun _ h => h.1.1) (fun _ h => h.valid) rely_others hP

/-- Inside a dispatch, a program of the pass does what it does alone. -/
theorem outline_inside {β : Type} {P : Obj α → Prop} {p : Prog (Obj α) β} {Q : β → Obj α → Prop}
    (h : Outline terms P p Q) :
    Outline (ext.terms t) (fun s => Inside t reversed rest es s ∧ P s.mem.obj) (onObject t p)
      fun x s => Inside t reversed rest es s ∧ Q x s.mem.obj :=
  outline_lift h stable_inside (fun _ h => h.1.1) (fun _ _ h => h) (fun _ h => h.valid) rely_others
    fun _ _ hx hw hv hg => ⟨hx.serving hv hg hw.2.2, fun hne => absurd hw.1.1 hne⟩

variable [DecidableEq τ]

/-- The sweep of a dying object gives the account back. -/
theorem outline_sweepDying_inside {hand : List α} {F : Obj α → Prop} (hF : Stable terms F)
    (hserv : ∀ o o', Serving o o' → F o → F o') :
    Outline (ext.terms t) (fun s => Inside t reversed rest es s ∧ Owns hand s.mem.obj ∧ F s.mem.obj)
      (sweepDying (backend fd) t)
      fun _ s => Inside t reversed rest es s ∧ Owns hand s.mem.obj ∧ F s.mem.obj := by
  have hS : Stable (ext.terms t) fun s : State α τ (Obj α) =>
      Inside t reversed rest es s ∧ Owns hand s.mem.obj ∧ F s.mem.obj :=
    stable_inside_and ((stable_owns hand).and hF)
  refine .bind (outline_read ext_fits hS) fun dying => ?_
  split
  · exact outline_inside ((outline_cancelAllObjectOperations_owns fd).frame hF
      fun o o' _ _ hg => hserv o o' hg)
  · exact .skip hS

/-- The dispatch or the sweep ends. -/
theorem outline_leave :
    Outline (ext.terms t)
      (fun s => Inside t reversed rest es s ∧ Owns [] s.mem.obj ∧ Done es s.mem.obj)
      (note t (Ghost.setBusy false)) fun _ => Serves t rest reversed rest := by
  refine outline_setBusy (stable_inside_and ((stable_owns []).and (stable_done es)))
    (stable_serves _ _ _) fun s _ hx ⟨⟨⟨ho, hcap, hn, hc⟩, hd, _⟩, howns, hdone⟩ => ?_
  refine ⟨ho, ⟨hx.valid, hx.submitted, hx.started, hx.length, hx.bounds, fun _ => howns,
    fun _ => hd ▸ hdone, hx.before⟩, fun hne => absurd ho hne, ho, hcap, rfl,
    ⟨List.Subset.refl _, hn⟩, hc⟩

/-- Inside the dispatch of `e`, after the entries of `es`, with its operation in the hand. -/
def Entered (t : τ) (reversed : TaggedPtr α) (rest es : List (Entry α)) (e : Entry α)
    (s : State α τ (Obj α)) : Prop :=
  Inside t reversed rest (es ++ [e]) s ∧ Owns e.node.toList s.mem.obj ∧
    InPass es.length s.mem.obj ∧ Done es s.mem.obj

theorem stable_entered (e : Entry α) : Stable (ext.terms t) (Entered t reversed rest es e) :=
  stable_inside_and ((stable_owns _).and ((stable_inPass _).and (stable_done es)))

theorem Consistent.entered_of_serves (hi : Inv s)
    (h : Consistent s) (hs : Serves t (e :: rest) reversed rest s)
    (hh : Handles t reversed rest (s.entered (backend fd) e)) :
    Entered t reversed rest s.ghost.dispatched e (s.entered (backend fd) e) := by
  obtain ⟨-, hcap, hbusy, -, -⟩ := hs
  have hobj : (s.entered (backend fd) e).mem.obj = beginPass e.node s.mem.obj := rfl
  refine ⟨⟨hh, by simp [State.entered, Ghost.beginDispatch, hcap], rfl⟩,
    (h.owns hbusy).beginPass (h.submitted_of_captured hi hcap), ?_, ?_⟩
  · rw [InPass, hobj, beginPass_bounds, length_append, h.length]
    rfl
  · refine (h.finished hbusy).mono ?_
    rw [hobj, (beginPass_rest e.node s.mem.obj).2.2.2.1]
    exact List.Subset.refl _

theorem Done.concat (h : Done es o)
    (he : e.tag.has tagCancelIo = true → Swept es.length o) : Done (es ++ [e]) o := by
  intro k f hk hio hdel
  rcases Nat.lt_trichotomy k es.length with hlt | rfl | hgt
  · rw [getElem?_append_left hlt] at hk
    exact h k f hk hio hdel
  · rw [getElem?_concat_length] at hk
    cases hk
    exact he hio
  · rw [getElem?_eq_none (by simpa using Nat.succ_le_of_lt hgt)] at hk
    cases hk

/-- **A dispatch.** -/
theorem dispatches : Dispatches ext (backend (α := α) fd) t := by
  refine dispatches_of (M := fun e reversed rest s => ∃ es, Entered t reversed rest es e s)
    (fun e _ _ => Stable.exists fun _ => stable_entered e) (fun e reversed rest s hi hx hs =>
      ⟨hx.entered hi hs.2.1 hs.2.2.1, fun hne => absurd hs.1 hne,
        fun _ hh => ⟨_, hx.entered_of_serves hi hs hh⟩⟩) fun e reversed rest _ => ?_
  refine .obtain (R := fun es => Entered t reversed rest es e)
    (Stable.exists fun _ => stable_entered e) (fun _ _ h => h) fun es => ?_
  refine .bind (M := fun _ => Entered t reversed rest es e) ?_ fun _ => ?_
  · split
    · exact outline_sweepDying_inside ((stable_inPass es.length).and (stable_done es))
        fun _ _ hg h => ⟨h.1.serving hg, h.2.mono hg.sweeps⟩
    · exact .skip (stable_entered e)
  · have hcore := (outline_core fd e.node e.tag es.length).frame (stable_done es)
      fun _ _ _ _ hg h => h.mono hg.sweeps
    refine .bind ((outline_inside hcore).pre (stable_entered e)
      fun _ _ h => ⟨h.1, ⟨h.2.1, h.2.2.1⟩, h.2.2.2⟩) fun _ => ?_
    refine outline_leave.pre (stable_inside_and (P := fun o => (Owns [] o ∧
      (e.tag.has tagCancelIo = true → Swept es.length o)) ∧ Done es o) ?_) fun _ _ h =>
      ⟨h.1, h.2.1.1, h.2.2.concat h.2.1.2⟩
    exact ((stable_owns []).and fun o o' hi hi' hr h hio =>
      stable_swept es.length o o' hi hi' hr (h hio)).and (stable_done es)

/-- **The sweep where the object is given up.** -/
theorem sweeps : Sweeps ext (backend (α := α) fd) t := by
  refine .bind (M := fun _ s => ∃ es, Inside t .null [] es s ∧ Owns [] s.mem.obj ∧ Done es s.mem.obj)
    ?_ fun _ => ?_
  · refine outline_setBusy stable_own
      (Stable.exists fun es => stable_inside_and ((stable_owns []).and (stable_done es)))
      fun s _ hx ⟨ho, hcap, hbusy, _, hc⟩ => ⟨ho, ⟨hx.valid, hx.submitted, hx.started, hx.length,
        hx.bounds, fun hb => absurd hb (by simp [Ghost.setBusy]),
        fun hb => absurd hb (by simp [Ghost.setBusy]), hx.before⟩, fun hne => absurd ho hne, ?_⟩
    exact ⟨s.ghost.dispatched, ⟨⟨ho, hcap, by simp, hc⟩, rfl, rfl⟩, hx.owns hbusy, hx.finished hbusy⟩
  · refine .obtain (R := fun es s => Inside t .null [] es s ∧ Owns [] s.mem.obj ∧ Done es s.mem.obj)
      (Stable.exists fun es => stable_inside_and ((stable_owns []).and (stable_done es)))
      (fun _ _ h => h) fun es => ?_
    exact .bind (outline_sweepDying_inside (stable_done es) fun _ _ hg h => h.mono hg.sweeps)
      fun _ => outline_leave

/-- **Running synchronously.** An operation it hands over was never dispatched. -/
theorem syncs : Syncs ext (backend (α := α) fd) t := by
  refine .pick (stable_serves _ _ _) (fun _ => stable_serves _ _ _) ?_
  rintro s pending s' ⟨-, o, hsync, rfl⟩ ⟨hi, hx⟩ hs
  have hg : Guar t s ⟨{ s.mem with obj := o }, s.ghost⟩ := .setObj t s o
  refine ⟨⟨hi.setObj o, ?_⟩, ⟨hg, fun hne => absurd hs.1 hne⟩, hs⟩
  rcases hsync with rfl | ⟨-, a, x, hidle, hgen, hst, rfl⟩
  · exact hx
  obtain ⟨hv, hphase⟩ := hx.valid.finishNow hidle hgen hst
  refine ⟨hv, fun b hb => ?_, hx.started, hx.length, hx.bounds, fun hb => ?_, hx.finished, hx.before⟩
  · rw [hphase]
    exact hx.submitted b hb
  · have := hx.owns hb
    unfold Owns Held at this ⊢
    rw [hphase]
    exact this

theorem creates : Creates ext (backend (α := α) fd) t := by
  intro s a o _ hx hfree hcreate
  obtain ⟨hv, hr, hphase⟩ := initAsyncOpRoot_spec hx.valid hcreate
  refine ⟨hx.others hv hr fun b hb => ?_, fun _ => hr⟩
  rw [hphase]
  split
  · rfl
  · next hba => exact hx.submitted b (by rwa [update_of_ne hba] at hb)

theorem discards : Discards ext (backend (α := α) fd) t := by
  intro s a _ hx hheld
  obtain ⟨hv, hr⟩ := discard_spec (a := a) hx.valid (hx.submitted a (by rw [hheld]; simp))
  refine ⟨hx.others hv hr fun b hb => ?_, fun _ => hr⟩
  rcases eq_or_ne b a with rfl | hba
  · simp at hb
  · rw [update_of_ne hba] at hb
    exact (update_of_ne hba ..).trans (hx.submitted b hb)

/-- **The reactor keeps to its invariant.** -/
theorem supports : Supports ext (backend (α := α) fd) t :=
  ⟨ext_fits, dispatches, sweeps, syncs, creates, discards⟩

end Serving

end Reactor

end Asyncio
