import Asyncio.Combiner.Calls

/-!
# One server, every entry once, in order

The system: any number of threads, each making calls on one object for as long as it likes, over
any backend. Which call a thread makes next is not the code's choice, so it is a `pick`. What a call
may assume is what its callers provide: a node to push is nobody else's, signal bits are not zero
and leave DELETE alone, and DELETE is pushed by one call.

A node may be pushed again as soon as it was dispatched.

## Main results

* `Combiner.inv_of_run` — the head word's invariant holds along every run
* `Combiner.exclusive_ordered` — the combiner's contract
-/

namespace Asyncio

namespace Combiner

set_option linter.unusedSectionVars false

open Concurrent

variable {α τ O : Type}

/-! ### Programs of the object -/

/-- The extension that asks for nothing. -/
def Ext.none : Ext α τ O := ⟨fun _ => True, fun _ _ _ => True⟩

theorem Ext.none_fits [DecidableEq α] [DecidableEq τ] : (Ext.none : Ext α τ O).Fits :=
  fun _ _ _ _ _ _ _ => ⟨trivial, trivial⟩

variable {t : τ}

/-- Whatever the object's programs do, they keep an assertion that is not about the object. -/
theorem outline_onObject {β : Type} (p : Prog O β) {P : State α τ O → Prop}
    (hP : Stable (Ext.none.terms t) P) (hobj : ∀ s o, P s → P ⟨{ s.mem with obj := o }, s.ghost⟩) :
    Outline (Ext.none.terms t) P (onObject t p) fun _ => P := by
  induction p with
  | ret x => exact .skip hP
  | act f =>
    refine .act hP (fun _ => hP) fun s x s' heq hi hPs => ?_
    split at heq
    · cases heq
    · obtain ⟨⟨y, o⟩, -, hy⟩ := Option.map_eq_some_iff.mp heq
      cases hy
      exact ⟨⟨hi.1.setObj o, trivial⟩, ⟨.setObj t s o, trivial⟩, hobj s o hPs⟩
  | pick r =>
    refine .pick hP (fun _ => hP) ?_
    rintro s x s' ⟨-, o, -, rfl⟩ hi hPs
    exact ⟨⟨hi.1.setObj o, trivial⟩, ⟨.setObj t s o, trivial⟩, hobj s o hPs⟩
  | bind p k ihp ihk => exact .bind ihp fun x => ihk x
  | loop body x ih =>
    refine .loop (fun _ => P) x (fun y => (ih y).post ?_) fun _ => hP
    rintro (_ | _) _ _ h <;> exact h

/-- A call on the object. -/
inductive Call (α : Type) where
  | pushOperation (a : α)
  | pushCounter (bits : Tag)
  | pushValidated (generation : ℕ) (bits : Tag)
  | pushDelete
  /-- `combinerAcquire` and, on its synchronous path, the rest of `runAioOperation`. -/
  | runAioOperation (write : Bool)
  /-- Anything else that writes the object's own state. -/
  | writeObject

section

variable [DecidableEq α] [DecidableEq τ] (B : Backend α O) (t : τ)

/-- Thread `t` may make a call, and what it then has. -/
inductive Call.Admits : State α τ O → Call α → State α τ O → Prop
  | pushOperation (s : State α τ O) (a : α) (o : O) : s.ghost.place a = .free →
      B.create s.mem.obj a o → Admits s (.pushOperation a)
        ⟨{ s.mem with obj := o },
          { s.ghost with place := Function.update s.ghost.place a (.held t) }⟩
  | pushCounter (s : State α τ O) (bits : Tag) : bits ≠ 0#6 → bits.has tagDelete = false →
      Admits s (.pushCounter bits) s
  | pushValidated (s : State α τ O) (generation : ℕ) (bits : Tag) : bits ≠ 0#6 →
      bits.has tagDelete = false → Admits s (.pushValidated generation bits) s
  | pushDelete (s : State α τ O) : s.ghost.deleteRight = .free →
      Admits s .pushDelete ⟨s.mem, { s.ghost with deleteRight := .held t }⟩
  | runAioOperation (s : State α τ O) (write : Bool) : Admits s (.runAioOperation write) s
  | writeObject (s : State α τ O) (o : O) :
      Admits s .writeObject ⟨{ s.mem with obj := o }, s.ghost⟩

def Call.run : Call α → Prog (State α τ O) Unit
  | .pushOperation a => combinerPushOperation B t a
  | .pushCounter bits => combinerPushCounter B t bits
  | .pushValidated generation bits => do
    let _ ← combinerPushValidated B t generation bits
    return ()
  | .pushDelete => combinerPushDelete B t
  | .runAioOperation write => Combiner.runAioOperation B t write
  | .writeObject => return ()

/-- A thread that makes one call after the other. -/
def client : Prog (State α τ O) Unit :=
  .loop (fun _ : Unit => do
    let call ← .pick fun s call s' => s.ghost.halted = false ∧ Call.Admits B t s call s'
    call.run B t
    return .inl ()) ()

variable {B t}

/-- The sweep of a dying object keeps what the owner knows. -/
theorem outline_sweepDying {P : State α τ O → Prop} (hP : Stable (Ext.none.terms t) P)
    (hobj : ∀ s o, P s → P ⟨{ s.mem with obj := o }, s.ghost⟩) :
    Outline (Ext.none.terms t) P (sweepDying B t) fun _ => P := by
  refine .bind (outline_read Ext.none_fits hP) fun dying => ?_
  split
  · exact outline_onObject _ hP hobj
  · exact .skip hP

theorem dispatches_none : Dispatches Ext.none B t := by
  refine dispatches_of (M := fun _ reversed rest => Handles t reversed rest)
    (fun _ reversed rest => stable_handles reversed rest)
    (fun _ _ _ _ _ _ _ => ⟨trivial, trivial, fun _ h => h⟩) fun e reversed rest _ => ?_
  have hs := stable_handles (X := Ext.none) (t := t) (O := O) reversed rest
  refine .bind (M := fun _ => Handles t reversed rest) ?_ fun _ =>
    .bind (outline_onObject _ hs fun _ _ h => h) fun _ => ?_
  · split
    · exact outline_sweepDying hs fun _ _ h => h
    · exact .skip hs
  · exact outline_setBusy hs (stable_serves _ _ _) fun s _ _ ⟨ho, hcap, hn, hc⟩ =>
      ⟨ho, trivial, trivial, ho, hcap, rfl, ⟨List.Subset.refl _, hn⟩, hc⟩

theorem sweeps_none : Sweeps Ext.none B t := by
  have hs : Stable (Ext.none.terms t) (Handles t .null [] : State α τ O → Prop) :=
    stable_handles _ _
  refine .bind (M := fun _ => Handles t .null []) ?_ fun _ =>
    .bind (outline_sweepDying hs fun _ _ h => h) fun _ => ?_
  · exact outline_setBusy stable_own hs fun s _ _ ⟨ho, hcap, _, _, hc⟩ =>
      ⟨ho, trivial, trivial, ho, hcap, by simp, hc⟩
  · exact outline_setBusy hs stable_own fun s _ _ ⟨ho, hcap, hn, hc⟩ =>
      ⟨ho, trivial, trivial, ho, hcap, rfl, ⟨List.Subset.refl _, hn⟩, hc⟩

theorem supports_none : Supports Ext.none B t where
  fits := Ext.none_fits
  dispatches := dispatches_none
  sweeps := sweeps_none
  syncs := outline_onObject _ (stable_serves _ _ _) fun _ _ h => h
  creates _ _ _ _ _ _ _ := ⟨trivial, trivial⟩
  discards _ _ _ _ _ := ⟨trivial, trivial⟩

/-- What an admitted call starts from. -/
def Call.Pre (t : τ) : Call α → State α τ O → Prop
  | .pushOperation a, s => HasNode t (some a) s
  | .pushCounter bits, _ => bits ≠ 0#6 ∧ bits.has tagDelete = false
  | .pushValidated _ bits, _ => bits ≠ 0#6 ∧ bits.has tagDelete = false
  | .pushDelete, s => s.ghost.deleteRight = .held t
  | .runAioOperation _, _ => True
  | .writeObject, _ => True

theorem Call.stable_pre (call : Call α) :
    Stable (Ext.none.terms t) (call.Pre t : State α τ O → Prop) := by
  cases call with
  | pushOperation a => exact stable_hasNode (some a)
  | pushDelete => exact stable_right
  | _ => exact Stable.pure _

/-- Every call, from what its caller provides. -/
theorem Call.outline_run (call : Call α) :
    Outline (Ext.none.terms t) (call.Pre t) (call.run B t) fun _ _ => True := by
  have hT : Supports Ext.none B t := supports_none
  cases call with
  | pushOperation a => exact outline_pushOperation hT a
  | pushCounter bits =>
    exact (Outline.assume stable_true fun h =>
      outline_pushCounter hT h.1 h.2).pre (Stable.pure _)
        fun _ _ h => ⟨h, trivial⟩
  | pushValidated generation bits =>
    refine .bind (M := fun _ _ => True) ?_ fun _ =>
      outline_ret stable_true fun _ _ _ => trivial
    exact (Outline.assume stable_true fun h =>
      outline_pushValidated hT h.1 h.2 generation).pre (Stable.pure _)
        fun _ _ h => ⟨h, trivial⟩
  | pushDelete => exact outline_pushDelete hT
  | runAioOperation write =>
    exact outline_runAioOperation hT write
  | writeObject => exact outline_ret stable_true fun _ _ _ => trivial

theorem Call.Admits.spec {s s' : State α τ O} {call : Call α} (h : Call.Admits B t s call s')
    (hi : Inv s) : Inv s' ∧ Guar t s s' ∧ call.Pre t s' := by
  cases h with
  | pushOperation a o ha _ =>
    refine ⟨(hi.setPlace (.held t) (by rw [ha]; simp) (by simp)).setObj o, .setPlace _ o (.inl ha),
      fun b hb => ?_⟩
    cases Option.mem_some.mp hb
    simp
  | pushCounter bits hb hd => exact ⟨hi, .refl t s, hb, hd⟩
  | pushValidated generation bits hb hd => exact ⟨hi, .refl t s, hb, hd⟩
  | pushDelete hr =>
    have hstep : HeadStep t s _ := .holdDelete s hr
    exact ⟨hstep.inv hi, hstep.guar hi, rfl⟩
  | runAioOperation write => exact ⟨hi, .refl t s, trivial⟩
  | writeObject o => exact ⟨hi.setObj o, .setObj t s o, trivial⟩

theorem outline_client :
    Outline (Ext.none.terms t) (fun _ => True) (client B t) fun _ _ => True := by
  refine .loop (fun _ _ => True) () (fun _ => ?_) fun _ => stable_true
  refine .bind (M := fun call => call.Pre t) ?_ fun call => ?_
  · refine .pick stable_true (fun call => call.stable_pre) ?_
    rintro s call s' ⟨-, hadm⟩ hi -
    obtain ⟨hi', hg, hpre⟩ := hadm.spec hi.1
    exact ⟨⟨hi', trivial⟩, ⟨hg, trivial⟩, hpre⟩
  · exact .bind call.outline_run fun _ => outline_ret stable_true fun _ _ _ => trivial

/-- Nothing has happened yet: the head is zero and every node is free. -/
structure Initial (s : State α τ O) : Prop where
  low : s.mem.low = .null
  ghost : s.ghost = ⟨fun _ => .free, .free, [], [], [], [], .empty, [], false, false⟩

theorem Initial.inv {s : State α τ O} (h : Initial s) : Inv s := by
  obtain ⟨⟨low, high, next, obj⟩, ghost⟩ := s
  obtain ⟨rfl, rfl⟩ := h
  exact ⟨by simp, fun _ => ⟨rfl, rfl, rfl, rfl, rfl⟩, ⟨.null, rfl, .inr ⟨rfl, by simp⟩⟩, .refl,
    by simp, by simp, by simp [Entry.empty], by simp, by simp, by simp⟩

/-- **The head word's invariant holds along every run.** -/
theorem inv_of_run {s₀ : State α τ O} {c : Config (State α τ O) τ} (h₀ : Initial s₀)
    (hrun : Run ⟨s₀, client B⟩ c) : Inv c.shared :=
  (Ext.inv_of_run (P := fun _ _ => True) h₀.inv trivial (fun _ => trivial)
    (fun _ => outline_client) hrun).1

/-- The nodes of sound entries are those their modifications pushed. -/
theorem filterMap_node_mods {es : List (Entry α)} (h : ∀ e ∈ es, e.Sound) :
    (es.flatMap Entry.mods).filterMap Mod.node = nodesOf es := by
  induction es with
  | nil => rfl
  | cons e es ih =>
    rw [List.flatMap_cons, List.filterMap_append, nodesOf_cons, (h e (List.mem_cons_self ..)).nodes,
      ih fun f hf => h f (List.mem_cons_of_mem _ hf)]

/-- **One server, every entry once, in order.** In every reachable state at most one thread has
taken the head from zero and not yet set it back, and the head is non-zero exactly when there is
one. The modifications of the head are handed to the handlers in the order they were made, each at
most once: those dispatched so far are an initial segment of all of them, and so are the nodes. An
entry is dispatched with exactly the signal bits of its modifications. When the head is zero,
everything has been dispatched. -/
theorem exclusive_ordered {s₀ : State α τ O} {c : Config (State α τ O) τ} (h₀ : Initial s₀)
    (hrun : Run ⟨s₀, client B⟩ c) :
    c.shared.ghost.owners.length ≤ 1 ∧
    (c.shared.mem.low ≠ .null ↔ c.shared.ghost.owners ≠ []) ∧
    nodesOf c.shared.ghost.dispatched <+: c.shared.ghost.mods.filterMap Mod.node ∧
    c.shared.ghost.dispatched.flatMap Entry.mods <+: c.shared.ghost.mods ∧
    (∀ e ∈ c.shared.ghost.dispatched, e.mods.filterMap Mod.node = e.node.toList ∧
      e.tag = e.mods.foldl (fun acc m => acc ||| m.tag) 0#6) ∧
    (c.shared.mem.low = .null →
      c.shared.ghost.dispatched.flatMap Entry.mods = c.shared.ghost.mods) := by
  have h := inv_of_run h₀ hrun
  have hsound : ∀ e ∈ c.shared.ghost.dispatched, e.Sound :=
    fun e he => h.sound e (List.mem_append_left _ he)
  have hpre : c.shared.ghost.dispatched.flatMap Entry.mods <+: c.shared.ghost.mods := by
    rw [← h.order, List.append_assoc, List.flatMap_append]
    exact List.prefix_append _ _
  refine ⟨h.one, not_congr h.low_eq_null_iff, ?_, hpre,
    fun e he => ⟨(hsound e he).nodes, (hsound e he).tag⟩, fun hlow => ?_⟩
  · rw [← filterMap_node_mods hsound]
    exact hpre.filterMap _
  · obtain ⟨-, hcap, hbase, hstack, -⟩ := h.idle (h.low_eq_null_iff.mp hlow)
    rw [← h.order, hcap, hbase, hstack]
    simp [Entry.empty]

end

/-- A thread that pushes CANCEL onto the zero head has the object after its fetch-or. -/
theorem exclusive_ordered_cancel : ∃ c : Config (State Unit Unit Unit) Unit,
    c.shared.mem.low = ⟨.null, tagCancel⟩ ∧ c.shared.ghost.owners.length ≤ 1 ∧
      c.shared.ghost.owners ≠ [] := by
  let B : Backend Unit Unit :=
    ⟨fun _ o => o, fun _ _ => .ret (), .ret (), .ret (), .ret false, fun _ _ _ => True, fun _ o => o,
      fun _ => false, fun _ _ => false⟩
  let s₀ : State Unit Unit Unit := ⟨⟨.null, 0, fun _ => .null, ()⟩,
    ⟨fun _ => .free, .free, [], [], [], [], .empty, [], false, false⟩⟩
  have hsteps : ∃ p s', Steps (client B ()) s₀ p s' ∧ s'.mem.low = ⟨.null, tagCancel⟩ := by
    exact ⟨_, _, .loop <| .bind (.seq (.pick ⟨rfl, .pushCounter s₀ tagCancel (by decide) (by decide)⟩)
      (.bind (.bind (.act rfl) _) _)) _, by decide⟩
  obtain ⟨p, s', hsteps, hlow⟩ := hsteps
  obtain ⟨hone, hiff, -⟩ := exclusive_ordered (B := B) ⟨rfl, rfl⟩ (Run.of_steps hsteps)
  exact ⟨_, hlow, hone, hiff.mp (by rw [hlow]; decide)⟩

end Combiner

end Asyncio
