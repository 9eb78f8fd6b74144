import Asyncio.Concurrent.Chain
import Asyncio.Combiner.Code
import Mathlib.Data.List.Basic
import Mathlib.Tactic.Push

/-!
# The head word's invariant

The record of a run says of every modification of the head word which entry it went into. The
invariant ties that record to memory: the word on the head leads through the entries of `stack` to
a word without a node, and the modifications of all entries, read from the oldest dispatched to
the newest pushed, are the modifications that happened, in the order they happened. Nothing is
lost, nothing is there twice, and nothing is out of order: that is one equation, `Inv.order`.

A node that is recycled and pushed again while another thread still remembers the word it had
does no harm. The chain is about what the word on the head is now, and a CAS that succeeds has
just compared it.

## Main definitions

* `Combiner.Entry.Built` — entries made from a start by setting signal bits
* `Combiner.Inv` — the invariant
* `Combiner.HeadStep` — everything a thread can do to the head word, the link fields and the record
* `Combiner.Guar` — what that leaves alone

## Main results

* `Combiner.HeadStep.inv`, `Combiner.HeadStep.guar` — a head step keeps the one and is the other
-/

namespace Asyncio

namespace Combiner

open Concurrent Function Option
open List hiding chain_cons

variable {α τ O : Type}

/-! ### Entries -/

namespace Entry

/-- `e` is `start` with signal bits set since, each call setting at least one. -/
inductive Built (start : Entry α) : Entry α → Prop
  | refl : Built start start
  | signal {e : Entry α} {bits : Tag} : Built start e → bits ≠ 0#6 → Built start (e.signal bits)

variable {start e : Entry α}

theorem Built.node (h : Built start e) : e.node = start.node := by
  induction h with
  | refl => rfl
  | signal _ _ ih => exact ih

/-- Without signal bits nothing was set since the start. -/
theorem Built.eq_of_tag (h : Built start e) (htag : e.tag = 0#6) :
    e = start := by
  cases h with
  | refl => rfl
  | signal _ hb => exact absurd (Tag.or_eq_zero_iff.mp htag).2 hb

/-- Setting signal bits pushes no node. -/
theorem Built.nodes (h : Built start e) :
    e.mods.filterMap Mod.node = start.mods.filterMap Mod.node := by
  induction h with
  | refl => rfl
  | signal _ _ ih => simp [Entry.signal, filterMap_append, Mod.node, ih]

/-- What was done to an entry since its start set signal bits. -/
theorem Built.mods (h : Built start e) :
    ∃ ms, e.mods = start.mods ++ ms ∧ ∀ m ∈ ms, m.node = none := by
  induction h with
  | refl => exact ⟨[], by simp⟩
  | @signal e bits _ _ ih =>
    obtain ⟨ms, hms, hnone⟩ := ih
    refine ⟨ms ++ [.signal bits], by simp [Entry.signal, hms], fun m hm => ?_⟩
    rcases mem_append.mp hm with hm | hm
    · exact hnone m hm
    · rw [mem_singleton.mp hm]; rfl

/-- The signal bits of an entry are those its modifications set. -/
theorem Built.tag (h : Built start e)
    (hstart : start.tag = start.mods.foldl (fun acc m => acc ||| m.tag) 0#6) :
    e.tag = e.mods.foldl (fun acc m => acc ||| m.tag) 0#6 := by
  induction h with
  | refl => exact hstart
  | signal _ _ ih => simp [Entry.signal, Mod.tag, ih]

/-- An entry that the owner has: a bottom entry, or a node's. -/
def Sound (e : Entry α) : Prop := Built .empty e ∨ ∃ a, Built (.ofPush a) e

theorem Sound.nodes {e : Entry α} (h : e.Sound) : e.mods.filterMap Mod.node = e.node.toList := by
  rcases h with h | ⟨a, h⟩
  · rw [h.nodes, h.node]; rfl
  · rw [h.nodes, h.node]; rfl

theorem Sound.tag {e : Entry α} (h : e.Sound) :
    e.tag = e.mods.foldl (fun acc m => acc ||| m.tag) 0#6 := by
  rcases h with h | ⟨a, h⟩
  · exact h.tag rfl
  · exact h.tag (by simp [ofPush, Mod.tag])

/-- The word that points to an entry's node. -/
def word (e : Entry α) : TaggedPtr α := ⟨e.node.elim .null .op, e.tag⟩

/-- The link field of an entry's node. -/
def link (next : α → TaggedPtr α) (e : Entry α) : TaggedPtr α := e.node.elim .null next

end Entry

/-- The nodes of some entries. -/
def nodesOf (es : List (Entry α)) : List α := es.filterMap Entry.node

@[simp] theorem nodesOf_nil : nodesOf ([] : List (Entry α)) = [] := rfl

@[simp] theorem nodesOf_append (es fs : List (Entry α)) :
    nodesOf (es ++ fs) = nodesOf es ++ nodesOf fs := filterMap_append

theorem nodesOf_cons (e : Entry α) (es : List (Entry α)) :
    nodesOf (e :: es) = e.node.toList ++ nodesOf es := by
  cases h : e.node <;> simp [nodesOf, h]

theorem nodesOf_reverse (es : List (Entry α)) : nodesOf es.reverse = (nodesOf es).reverse :=
  filterMap_reverse ..

variable {a : α}

theorem mem_nodesOf {es : List (Entry α)} :
    a ∈ nodesOf es ↔ ∃ e ∈ es, e.node = some a := by
  simp [nodesOf, mem_filterMap]

/-! ### The invariant -/

/-- Holds in every state. -/
structure Inv (s : State α τ O) : Prop where
  /-- At most one thread has the object. -/
  one : s.ghost.owners.length ≤ 1
  /-- Nobody has it: the head is zero and nothing is left. -/
  idle : s.ghost.owners = [] → s.mem.low = .null ∧ s.ghost.captured = [] ∧
    s.ghost.base = .empty ∧ s.ghost.stack = [] ∧ s.ghost.busy = false
  /-- The head leads through the stack to a word without a node. -/
  chain : ∃ n, Chain Entry.word (Entry.link s.mem.next) s.mem.low s.ghost.stack
      ⟨n, s.ghost.base.tag⟩ ∧
    (n = .stub ∨ n = .null ∧ (s.ghost.owners ≠ [] → s.ghost.base.tag ≠ 0#6))
  base : Entry.Built .empty s.ghost.base
  stack : ∀ e ∈ s.ghost.stack, ∃ a, Entry.Built (.ofPush a) e
  sound : ∀ e ∈ s.ghost.dispatched ++ s.ghost.captured, e.Sound
  /-- Every modification is in exactly one entry, and the entries are in order. -/
  order : (s.ghost.dispatched ++ s.ghost.captured ++ s.ghost.base :: s.ghost.stack.reverse).flatMap
    Entry.mods = s.ghost.mods
  queued : ∀ a, s.ghost.place a = .queued ↔ a ∈ nodesOf (s.ghost.captured ++ s.ghost.stack)
  nodup : (nodesOf (s.ghost.captured ++ s.ghost.stack)).Nodup
  /-- DELETE was not pushed while the right to push it is not spent. -/
  delete : s.ghost.deleteRight ≠ .queued → ∀ m ∈ s.ghost.mods, m.tag.has tagDelete = false

variable {s : State α τ O}

/-- The head is zero exactly when nobody has the object. -/
theorem Inv.low_eq_null_iff (h : Inv s) :
    s.mem.low = .null ↔ s.ghost.owners = [] := by
  refine ⟨fun hlow => ?_, fun ho => (h.idle ho).1⟩
  by_contra ho
  obtain ⟨n, hc, hn⟩ := h.chain
  cases hst : s.ghost.stack with
  | nil =>
    rw [hst, chain_nil, hlow] at hc
    have hnull : n = .null := (congrArg TaggedPtr.node hc).symm
    have htag : s.ghost.base.tag = 0#6 := (congrArg TaggedPtr.tag hc).symm
    rcases hn with rfl | ⟨-, hn⟩
    · cases hnull
    · exact hn ho htag
  | cons e es =>
    obtain ⟨a, ha⟩ := h.stack e (by rw [hst]; exact mem_cons_self ..)
    rw [hst, chain_cons, hlow] at hc
    have := congrArg TaggedPtr.node hc.1
    rw [Entry.word, ha.node] at this
    cases this

/-- A sound entry has the signal bits of its modifications. -/
theorem Entry.Sound.has_tag {e : Entry α} (h : e.Sound) (bit : Tag) :
    e.tag.has bit = e.mods.any fun m => m.tag.has bit := by
  rw [h.tag]
  have hfold : ∀ (ms : List (Mod α)) (acc : Tag),
      (ms.foldl (fun acc m => acc ||| m.tag) acc).has bit =
        (acc.has bit || ms.any fun m => m.tag.has bit) := by
    intro ms
    induction ms with
    | nil => simp
    | cons m ms ih =>
      intro acc
      rw [foldl_cons, ih, Tag.or_has, any_cons, Bool.or_assoc]
  rw [hfold, Tag.zero_has, Bool.false_or]

theorem Entry.Sound.has_tag_eq_false {e : Entry α} (h : e.Sound) {bit : Tag}
    (hm : ∀ m ∈ e.mods, m.tag.has bit = false) : e.tag.has bit = false := by
  rw [h.has_tag, List.any_eq_false]
  exact fun m hmem => by rw [hm m hmem]; decide

/-- While the right to push DELETE is not spent, the head does not carry it. -/
theorem Inv.low_has_delete (h : Inv s) (hr : s.ghost.deleteRight ≠ .queued) :
    s.mem.low.tag.has tagDelete = false := by
  have hmods : ∀ e ∈ s.ghost.base :: s.ghost.stack.reverse,
      ∀ m ∈ e.mods, m.tag.has tagDelete = false := by
    intro e he m hm
    refine h.delete hr m ?_
    rw [← h.order]
    exact mem_flatMap.mpr ⟨e, mem_append_right _ he, hm⟩
  obtain ⟨n, hc, -⟩ := h.chain
  cases hst : s.ghost.stack with
  | nil =>
    rw [hst, chain_nil] at hc
    rw [hc]
    exact Entry.Sound.has_tag_eq_false (.inl h.base) (hmods _ (mem_cons_self ..))
  | cons e es =>
    rw [hst] at hc
    rw [hc.1]
    have he : e ∈ s.ghost.stack := by rw [hst]; exact mem_cons_self ..
    exact Entry.Sound.has_tag_eq_false (.inr (h.stack e he)) (hmods e (by simp [he]))

variable {t : τ}

/-- A node a call holds is in no chain. -/
theorem Inv.not_mem_of_held (h : Inv s)
    (ha : s.ghost.place a = .held t) : a ∉ nodesOf (s.ghost.captured ++ s.ghost.stack) := by
  intro hmem
  rw [(h.queued a).mpr hmem] at ha
  cases ha

/-- Taking the zero head, with or without a node to run first. -/
theorem Inv.acquire (h : Inv s) {e : Entry α} (pl : α → Place τ)
    (hlow : s.mem.low = .null) (he : e.Sound) (htag : ∀ m ∈ e.mods, m.tag = 0#6)
    (hpl : ∀ a, pl a = .queued ↔ s.ghost.place a = .queued ∨ e.node = some a) :
    Inv ⟨{ s.mem with low := .stub }, { s.ghost with
        mods := s.ghost.mods ++ e.mods
        captured := [e]
        place := pl
        owners := t :: s.ghost.owners }⟩ := by
  have ho := h.low_eq_null_iff.mp hlow
  obtain ⟨-, hcap, hbase, hstack, -⟩ := h.idle ho
  have hord := h.order
  rw [hcap, hbase, hstack] at hord
  refine ⟨by simp [ho], by simp, ⟨.stub, ?_, .inl rfl⟩, h.base, h.stack, ?_, ?_, ?_, ?_, ?_⟩
  · simp [hstack, hbase, Entry.empty, TaggedPtr.stub]
  · intro f hf
    rcases mem_append.mp hf with hf | hf
    · exact h.sound f (mem_append_left _ hf)
    · rw [mem_singleton.mp hf]; exact he
  · simp only [hbase, hstack, ← hord]
    simp [flatMap_append, Entry.empty]
  · intro a
    have hq := h.queued a
    simp only [hcap, hstack, append_nil, nodesOf_nil, not_mem_nil, iff_false] at hq
    simp [hpl, hq, hstack, nodesOf_cons]
  · cases hn : e.node <;> simp [hstack, nodesOf_cons, hn]
  · intro hr k hk
    rcases mem_append.mp hk with hk | hk
    · exact h.delete hr k hk
    · rw [htag k hk]; exact Tag.zero_has _

namespace Ghost

variable (bits : Tag) (g : Ghost α τ)

@[simp] theorem signal_place : (g.signal bits).place = g.place := by unfold signal; split <;> rfl

@[simp] theorem signal_deleteRight : (g.signal bits).deleteRight = g.deleteRight := by
  unfold signal; split <;> rfl

@[simp] theorem signal_owners : (g.signal bits).owners = g.owners := by
  unfold signal; split <;> rfl

@[simp] theorem signal_dispatched : (g.signal bits).dispatched = g.dispatched := by
  unfold signal; split <;> rfl

@[simp] theorem signal_captured : (g.signal bits).captured = g.captured := by
  unfold signal; split <;> rfl

@[simp] theorem signal_busy : (g.signal bits).busy = g.busy := by unfold signal; split <;> rfl

@[simp] theorem signal_halted : (g.signal bits).halted = g.halted := by
  unfold signal; split <;> rfl

end Ghost

/-- Setting signal bits, in a head that is zero or not. -/
theorem Inv.signal (h : Inv s) (bits : Tag) (os : List τ) (r : Place τ)
    (hbits : bits ≠ 0#6) (hone : os.length ≤ 1) (hos : os ≠ [])
    (hr : r ≠ .queued → s.ghost.deleteRight ≠ .queued ∧ bits.has tagDelete = false) :
    Inv ⟨{ s.mem with low := s.mem.low.or bits },
      { s.ghost.signal bits with owners := os, deleteRight := r }⟩ := by
  obtain ⟨n, hc, hn⟩ := h.chain
  have hbase : (s.ghost.base.signal bits).tag ≠ 0#6 :=
    fun h0 => hbits (Tag.or_eq_zero_iff.mp h0).2
  have hdel : ∀ m ∈ s.ghost.mods ++ [.signal bits], r ≠ .queued → m.tag.has tagDelete = false := by
    intro m hm hne
    rcases mem_append.mp hm with hm | hm
    · exact h.delete (hr hne).1 m hm
    · rw [mem_singleton.mp hm]; exact (hr hne).2
  have hnode : n = .stub ∨ n = .null := hn.imp_right And.left
  have hord := h.order
  have hq := h.queued
  have hnd := h.nodup
  cases hst : s.ghost.stack with
  | nil =>
    rw [hst] at hc hord hq hnd
    rw [chain_nil] at hc
    simp only [Ghost.signal, hst]
    refine ⟨hone, fun h0 => absurd h0 hos, ⟨n, ?_, ?_⟩, h.base.signal hbits, ?_, h.sound, ?_, hq,
      hnd, fun hne m hm => hdel m hm hne⟩
    · show s.mem.low.or bits = _
      rw [hc]; rfl
    · exact hnode.imp_right fun hn => ⟨hn, fun _ => hbase⟩
    · simp
    · simp only [← hord]
      simp [Entry.signal, flatMap_append]
  | cons e es =>
    rw [hst] at hc hord hq hnd
    simp only [Ghost.signal, hst]
    have hstack := h.stack
    rw [hst] at hstack
    refine ⟨hone, fun h0 => absurd h0 hos, ⟨n, ⟨?_, hc.2⟩, ?_⟩, h.base, ?_, h.sound, ?_, ?_, ?_,
      fun hne m hm => hdel m hm hne⟩
    · rw [hc.1]; rfl
    · have ho : s.ghost.owners ≠ [] := fun h0 => by
        have := (h.idle h0).2.2.2.1
        rw [hst] at this
        cases this
      exact hn.imp_right fun hn => ⟨hn.1, fun _ => hn.2 ho⟩
    · intro f hf
      rcases mem_cons.mp hf with rfl | hf
      · obtain ⟨a, ha⟩ := hstack e (mem_cons_self ..)
        exact ⟨a, ha.signal hbits⟩
      · exact hstack f (mem_cons_of_mem _ hf)
    · simp only [reverse_cons, ← hord]
      simp [Entry.signal, flatMap_append]
    · intro a
      rw [hq a]
      simp only [nodesOf_append, nodesOf_cons]
      rfl
    · simp only [nodesOf_append, nodesOf_cons] at hnd ⊢
      exact hnd

theorem Inv.capture (h : Inv s) (ho : s.ghost.owners = [t])
    (hcap : s.ghost.captured = []) : Inv ⟨{ s.mem with low := .stub }, s.ghost.capture⟩ := by
  have hq := h.queued
  have hnd := h.nodup
  have hord := h.order
  simp only [hcap, nil_append, append_nil] at hq hnd hord
  -- A bottom entry without signal bits carries no modification either.
  have hbot : (if s.ghost.base.tag = 0#6 then [] else [s.ghost.base]).flatMap Entry.mods =
      s.ghost.base.mods := by
    split
    · next h0 => rw [h.base.eq_of_tag h0]; rfl
    · simp
  have hnb : nodesOf (if s.ghost.base.tag = 0#6 then [] else [s.ghost.base]) = [] := by
    split
    · rfl
    · simp [nodesOf_cons, h.base.node, Entry.empty]
  refine ⟨h.one, fun h0 => ?_, ⟨.stub, rfl, .inl rfl⟩, .refl, by simp [Ghost.capture],
    fun e he => ?_, ?_, fun a => ?_, ?_, h.delete⟩
  · exact absurd (ho.symm.trans h0) (by simp)
  · rcases mem_append.mp he with he | he
    · exact h.sound e (mem_append_left _ he)
    · rcases mem_append.mp he with he | he
      · split at he
        · cases he
        · rw [mem_singleton.mp he]; exact .inl h.base
      · exact .inr (h.stack e (mem_reverse.mp he))
  · show (s.ghost.dispatched ++ (_ ++ s.ghost.stack.reverse) ++ [Entry.empty]).flatMap Entry.mods
      = s.ghost.mods
    rw [← hord]
    simp only [flatMap_append, hbot, flatMap_cons]
    simp [Entry.empty]
  · simp only [Ghost.capture, nodesOf_append, hnb, nodesOf_reverse]
    simpa using hq a
  · simp only [Ghost.capture, nodesOf_append, hnb, nodesOf_reverse]
    simpa using hnd

theorem Inv.release (h : Inv s) (hcap : s.ghost.captured = [])
    (hbusy : s.ghost.busy = false) (hlow : s.mem.low = .stub) :
    Inv ⟨{ s.mem with low := .null }, { s.ghost with owners := [] }⟩ := by
  obtain ⟨n, hc, hn⟩ := h.chain
  -- The stub is no node's word, so nothing is above the bottom, and no bit is set in it.
  have hstack : s.ghost.stack = [] := by
    cases hst : s.ghost.stack with
    | nil => rfl
    | cons e es =>
      obtain ⟨a, ha⟩ := h.stack e (by rw [hst]; exact mem_cons_self ..)
      rw [hst, hlow] at hc
      have := congrArg TaggedPtr.node hc.1
      rw [Entry.word, ha.node] at this
      cases this
  have hbase : s.ghost.base = .empty := by
    rw [hstack, hlow, chain_nil] at hc
    exact h.base.eq_of_tag (congrArg TaggedPtr.tag hc).symm
  refine ⟨by simp, fun _ => ⟨rfl, hcap, hbase, hstack, hbusy⟩, ⟨.null, ?_, .inr ⟨rfl, by simp⟩⟩, h.base,
    h.stack, h.sound, h.order, h.queued, h.nodup, h.delete⟩
  simp [hstack, hbase, Entry.empty, TaggedPtr.null]

/-! ### What a thread can do

`HeadStep t s s'` lists the steps of thread `t` on the head word, on link fields and on the record,
each with what the code knows where it takes the step. The object's own state stays. -/

variable [DecidableEq α]

inductive HeadStep (t : τ) : State α τ O → State α τ O → Prop
  /-- An access that changes nothing. -/
  | same (s : State α τ O) : HeadStep t s s
  /-- A call takes the right to push DELETE. -/
  | holdDelete (s : State α τ O) : s.ghost.deleteRight = .free →
      HeadStep t s ⟨s.mem, { s.ghost with deleteRight := .held t }⟩
  /-- Write the link field of a node the call holds. -/
  | link (s : State α τ O) (a : α) (p : TaggedPtr α) : s.ghost.place a = .held t →
      HeadStep t s ⟨{ s.mem with next := update s.mem.next a p }, s.ghost⟩
  /-- The owner writes the link field of a node it captured. -/
  | relink (s : State α τ O) (a : α) (p : TaggedPtr α) : s.ghost.owners = [t] →
      a ∈ nodesOf s.ghost.captured →
      HeadStep t s ⟨{ s.mem with next := update s.mem.next a p }, s.ghost⟩
  /-- Push a linked node. -/
  | push (s : State α τ O) (a : α) : s.ghost.place a = .held t → s.mem.low ≠ .null →
      s.mem.next a = s.mem.low → HeadStep t s ⟨{ s.mem with low := .make a }, s.ghost.push a⟩
  /-- Push a node onto the zero head. -/
  | pushFirst (s : State α τ O) (a : α) : s.ghost.place a = .held t → s.mem.low = .null →
      HeadStep t s ⟨{ s.mem with low := .stub },
        { s.ghost.pushFirst a with owners := t :: s.ghost.owners }⟩
  /-- Take the zero head without a node. -/
  | claim (s : State α τ O) : s.mem.low = .null →
      HeadStep t s ⟨{ s.mem with low := .stub },
        { s.ghost.claim with owners := t :: s.ghost.owners }⟩
  /-- Set signal bits in a head that is not zero. -/
  | signal (s : State α τ O) (bits : Tag) : bits ≠ 0#6 → bits.has tagDelete = false →
      s.mem.low ≠ .null → HeadStep t s ⟨{ s.mem with low := s.mem.low.or bits }, s.ghost.signal bits⟩
  /-- Set signal bits in the zero head. -/
  | signalFirst (s : State α τ O) (bits : Tag) : bits ≠ 0#6 → bits.has tagDelete = false →
      s.mem.low = .null →
      HeadStep t s ⟨{ s.mem with low := s.mem.low.or bits },
        { s.ghost.signal bits with owners := t :: s.ghost.owners }⟩
  /-- Spend the right to push DELETE. -/
  | delete (s : State α τ O) : s.ghost.deleteRight = .held t → s.mem.low ≠ .null →
      HeadStep t s ⟨{ s.mem with low := s.mem.low.or tagDelete },
        { s.ghost.signal tagDelete with deleteRight := .queued }⟩
  /-- Spend it on the zero head. -/
  | deleteFirst (s : State α τ O) : s.ghost.deleteRight = .held t → s.mem.low = .null →
      HeadStep t s ⟨{ s.mem with low := s.mem.low.or tagDelete },
        { s.ghost.signal tagDelete with deleteRight := .queued, owners := t :: s.ghost.owners }⟩
  /-- The acquirer passes no node to run first. -/
  | passNone (s : State α τ O) : s.ghost.owners = [t] → s.ghost.captured = [.empty] →
      HeadStep t s ⟨s.mem, s.ghost.passForRun none⟩
  /-- The acquirer passes a node to run first. -/
  | passSome (s : State α τ O) (a : α) : s.ghost.owners = [t] → s.ghost.captured = [.empty] →
      s.ghost.place a = .held t → HeadStep t s ⟨s.mem, s.ghost.passForRun (some a)⟩
  /-- The owner captures the chain. -/
  | capture (s : State α τ O) : s.ghost.owners = [t] → s.ghost.captured = [] →
      s.ghost.busy = false → HeadStep t s ⟨{ s.mem with low := .stub }, s.ghost.capture⟩
  /-- The owner gives the object up. -/
  | release (s : State α τ O) : s.ghost.owners = [t] → s.ghost.captured = [] →
      s.ghost.busy = false → s.mem.low = .stub →
      HeadStep t s ⟨{ s.mem with low := .null }, { s.ghost with owners := [] }⟩

omit [DecidableEq α] in
theorem Ghost.signal_frame (bits : Tag) (g : Ghost α τ) :
    (g.signal bits).dispatched = g.dispatched ∧ (g.signal bits).busy = g.busy ∧
      (g.signal bits).place = g.place := by
  unfold Ghost.signal
  split <;> exact ⟨rfl, rfl, rfl⟩

variable {s s' : State α τ O}

/-- Head steps are not about the object, nor about what was dispatched. A node they push was in the
call's hand. -/
theorem HeadStep.frame (h : HeadStep t s s') :
    s'.mem.obj = s.mem.obj ∧ s'.ghost.dispatched = s.ghost.dispatched ∧
      s'.ghost.busy = s.ghost.busy ∧ ∀ a, s'.ghost.place a ≠ .free → s.ghost.place a ≠ .free := by
  have hpush : ∀ {a : α}, s.ghost.place a = .held t →
      ∀ b, update s.ghost.place a .queued b ≠ .free → s.ghost.place b ≠ .free := by
    intro a ha b hb
    rcases eq_or_ne b a with rfl | hne
    · rw [ha]; simp
    · rwa [update_of_ne hne] at hb
  have hsignal := fun bits => Ghost.signal_frame (α := α) (τ := τ) bits s.ghost
  cases h with
  | push a ha _ _ => exact ⟨rfl, rfl, rfl, hpush ha⟩
  | pushFirst a ha _ => exact ⟨rfl, rfl, rfl, hpush ha⟩
  | passSome a _ _ ha => exact ⟨rfl, rfl, rfl, hpush ha⟩
  | signal bits _ _ _ =>
    exact ⟨rfl, (hsignal bits).1, (hsignal bits).2.1, fun a ha => (hsignal bits).2.2 ▸ ha⟩
  | signalFirst bits _ _ _ =>
    exact ⟨rfl, (hsignal bits).1, (hsignal bits).2.1, fun a ha => (hsignal bits).2.2 ▸ ha⟩
  | delete _ _ =>
    exact ⟨rfl, (hsignal _).1, (hsignal _).2.1, fun a ha => (hsignal tagDelete).2.2 ▸ ha⟩
  | deleteFirst _ _ =>
    exact ⟨rfl, (hsignal _).1, (hsignal _).2.1, fun a ha => (hsignal tagDelete).2.2 ▸ ha⟩
  | _ => exact ⟨rfl, rfl, rfl, fun _ ha => ha⟩

/-- What a step of thread `t` leaves alone: the nodes and the right that others hold, and, when
another thread has the object, everything the owner works on. -/
structure Guar (t : τ) (s s' : State α τ O) : Prop where
  held : ∀ u ≠ t, ∀ a, s.ghost.place a = .held u →
    s'.ghost.place a = .held u ∧ s'.mem.next a = s.mem.next a
  right : ∀ u ≠ t, s.ghost.deleteRight = .held u → s'.ghost.deleteRight = .held u
  owner : ∀ u ≠ t, s.ghost.owners = [u] → s'.ghost.owners = [u] ∧
    s'.ghost.captured = s.ghost.captured ∧ s'.ghost.dispatched = s.ghost.dispatched ∧
    s'.ghost.busy = s.ghost.busy ∧
    ∀ a ∈ nodesOf s.ghost.captured, s'.mem.next a = s.mem.next a
  high : s'.mem.high = s.mem.high
  halted : s.ghost.halted = true → s'.ghost.halted = true

omit [DecidableEq α] in
/-- A step that changes nothing is within every guarantee. -/
theorem Guar.refl (t : τ) (s : State α τ O) : Guar t s s where
  held _ _ _ ha := ⟨ha, rfl⟩
  right _ _ hr := hr
  owner _ _ ho := ⟨ho, rfl, rfl, rfl, fun _ _ => rfl⟩
  high := rfl
  halted h := h

/-- Writing the link field of a node that is not on the stack keeps the stack's chain. -/
theorem chain_update {next : α → TaggedPtr α} {p q : TaggedPtr α} {es : List (Entry α)}
    (h : Chain Entry.word (Entry.link next) p es q) (ha : a ∉ nodesOf es) (w : TaggedPtr α) :
    Chain Entry.word (Entry.link (update next a w)) p es q := by
  refine h.congr fun e he => ?_
  cases hn : e.node with
  | none => simp [Entry.link, hn]
  | some b =>
    have hb : b ≠ a := by
      rintro rfl
      exact ha (mem_nodesOf.mpr ⟨e, he, hn⟩)
    simp [Entry.link, hn, update_of_ne hb]

/-! ### Head steps keep the invariant -/

/-- Only whether a node is queued matters to the invariant. -/
theorem Inv.setPlace (h : Inv s) (pl : Place τ) (ha : s.ghost.place a ≠ .queued) (hpl : pl ≠ .queued):
    Inv ⟨s.mem, { s.ghost with place := update s.ghost.place a pl }⟩ where
  one := h.one
  idle := h.idle
  chain := h.chain
  base := h.base
  stack := h.stack
  sound := h.sound
  order := h.order
  queued b := by
    rw [← h.queued b]
    rcases eq_or_ne b a with rfl | hb
    · simp [ha, hpl]
    · simp [update_of_ne hb]
  nodup := h.nodup
  delete := h.delete

theorem Inv.setNext (h : Inv s) (p : TaggedPtr α) (ha : a ∉ nodesOf s.ghost.stack):
    Inv ⟨{ s.mem with next := update s.mem.next a p }, s.ghost⟩ where
  one := h.one
  idle := h.idle
  chain := by
    obtain ⟨n, hc, hn⟩ := h.chain
    exact ⟨n, chain_update hc ha p, hn⟩
  base := h.base
  stack := h.stack
  sound := h.sound
  order := h.order
  queued := h.queued
  nodup := h.nodup
  delete := h.delete

theorem Inv.push (h : Inv s) (ha : s.ghost.place a = .held t) (hlow : s.mem.low ≠ .null)
    (hnext : s.mem.next a = s.mem.low) :
    Inv ⟨{ s.mem with low := .make a }, s.ghost.push a⟩ where
  one := h.one
  idle ho := absurd (h.low_eq_null_iff.mpr ho) hlow
  chain := by
    obtain ⟨n, hc, hn⟩ := h.chain
    refine ⟨n, ⟨rfl, ?_⟩, hn⟩
    show Chain _ _ (s.mem.next a) _ _
    rw [hnext]
    exact hc
  base := h.base
  stack e he := by
    rcases mem_cons.mp he with rfl | he
    · exact ⟨a, .refl⟩
    · exact h.stack e he
  sound := h.sound
  order := by
    simp only [Ghost.push, reverse_cons, ← h.order]
    simp [Entry.ofPush, flatMap_append]
  queued b := by
    have hq := h.queued b
    simp only [Ghost.push, nodesOf_append, nodesOf_cons, Entry.ofPush, mem_append,
      toList_some, mem_singleton] at hq ⊢
    rcases eq_or_ne b a with rfl | hb
    · simp
    · simp [hq, hb]
  nodup := by
    have hmem := h.not_mem_of_held ha
    have hnd := h.nodup
    simp only [Ghost.push, nodesOf_append, nodesOf_cons, Entry.ofPush, toList_some] at hmem hnd ⊢
    rw [singleton_append, nodup_middle]
    exact nodup_cons.mpr ⟨hmem, hnd⟩
  delete hr m hm := by
    rcases mem_append.mp hm with hm | hm
    · exact h.delete hr m hm
    · rw [mem_singleton.mp hm]; exact Tag.zero_has _

theorem Inv.passNone (h : Inv s) (ho : s.ghost.owners = [t])
    (hcap : s.ghost.captured = [.empty]) : Inv ⟨s.mem, s.ghost.passForRun none⟩ where
  one := h.one
  idle h0 := absurd (ho.symm.trans h0) (by simp)
  chain := h.chain
  base := h.base
  stack := h.stack
  sound e he := h.sound e (mem_append_left _ (by simpa [Ghost.passForRun] using he))
  order := by simpa [Ghost.passForRun, hcap, Entry.empty] using h.order
  queued a := by simpa [Ghost.passForRun, hcap, nodesOf_cons, Entry.empty] using h.queued a
  nodup := by simpa [Ghost.passForRun, hcap, nodesOf_cons, Entry.empty] using h.nodup
  delete := h.delete

theorem Inv.passSome (h : Inv s) (ho : s.ghost.owners = [t])
    (hcap : s.ghost.captured = [.empty]) (ha : s.ghost.place a = .held t) :
    Inv ⟨s.mem, s.ghost.passForRun (some a)⟩ := by
  have hord := h.order
  have hq := h.queued
  have hnd := h.nodup
  have hmem := h.not_mem_of_held ha
  simp only [hcap, nodesOf_append, nodesOf_cons, Entry.empty, toList_none,
    nil_append, nodesOf_nil] at hq hnd hmem
  -- What came onto the head since the acquisition is what is not dispatched yet.
  have hmods : (s.ghost.passForRun (some a)).mods =
      (s.ghost.dispatched ++ [Entry.ofPush a] ++ s.ghost.base :: s.ghost.stack.reverse).flatMap
        Entry.mods := by
    simp only [Ghost.passForRun]
    rw [← hord, hcap]
    simp [flatMap_append, Entry.empty, Entry.ofPush]
  refine ⟨h.one, fun h0 => ?_, h.chain, h.base, h.stack, fun e he => ?_, hmods.symm, fun b => ?_,
    ?_, fun hr m hm => ?_⟩
  · exact absurd (ho.symm.trans h0) (by simp)
  · rcases mem_append.mp he with he | he
    · exact h.sound e (mem_append_left _ he)
    · rw [mem_singleton.mp he]; exact .inr ⟨a, .refl⟩
  · simp only [Ghost.passForRun, nodesOf_append, nodesOf_cons, Entry.ofPush, toList_some,
      nodesOf_nil, mem_append, mem_singleton, append_nil]
    rcases eq_or_ne b a with rfl | hb
    · simp
    · simp [hq b, hb]
  · simp only [Ghost.passForRun, nodesOf_cons, Entry.ofPush, toList_some, singleton_append]
    exact nodup_cons.mpr ⟨hmem, hnd⟩
  · simp only [Ghost.passForRun] at hm
    rcases mem_append.mp hm with hm | hm
    · exact h.delete hr m (mem_of_mem_take hm)
    · rcases mem_cons.mp hm with rfl | hm
      · exact Tag.zero_has _
      · exact h.delete hr m (mem_of_mem_drop hm)

/-- **A head step keeps the invariant.** -/
theorem HeadStep.inv (hst : HeadStep t s s') (h : Inv s) : Inv s' := by
  cases hst with
  | same => exact h
  | holdDelete hr =>
    exact ⟨h.one, h.idle, h.chain, h.base, h.stack, h.sound, h.order, h.queued, h.nodup,
      fun _ => h.delete (by rw [hr]; simp)⟩
  | link a p ha =>
    refine h.setNext p fun hmem => h.not_mem_of_held ha ?_
    rw [nodesOf_append]
    exact mem_append_right _ hmem
  | relink a p _ ha =>
    have hnd := h.nodup
    rw [nodesOf_append] at hnd
    exact h.setNext p ((nodup_append'.mp hnd).2.2 ha)
  | push a ha hlow hnext => exact h.push ha hlow hnext
  | pushFirst a ha hlow =>
    refine h.acquire _ hlow (.inr ⟨a, .refl⟩) (by simp [Entry.ofPush, Mod.tag]) fun b => ?_
    rcases eq_or_ne b a with rfl | hb
    · simp [Ghost.pushFirst, Entry.ofPush]
    · simp [Ghost.pushFirst, update_of_ne hb, Entry.ofPush, hb.symm]
  | claim hlow =>
    have := h.acquire (t := t) s.ghost.place hlow (.inl .refl) (by simp [Entry.empty])
      fun b => by simp [Entry.empty]
    simpa [Ghost.claim, Entry.empty] using this
  | signal bits hb hd hlow =>
    have ho : s.ghost.owners ≠ [] := fun h0 => hlow (h.low_eq_null_iff.mpr h0)
    have := h.signal bits s.ghost.owners s.ghost.deleteRight hb h.one ho fun hr => ⟨hr, hd⟩
    rwa [← s.ghost.signal_owners bits, ← s.ghost.signal_deleteRight bits] at this
  | signalFirst bits hb hd hlow =>
    have ho := h.low_eq_null_iff.mp hlow
    have := h.signal bits (t :: s.ghost.owners) s.ghost.deleteRight hb (by simp [ho]) (by simp)
      fun hr => ⟨hr, hd⟩
    rwa [← s.ghost.signal_deleteRight bits] at this
  | delete _ hlow =>
    have ho : s.ghost.owners ≠ [] := fun h0 => hlow (h.low_eq_null_iff.mpr h0)
    have := h.signal tagDelete s.ghost.owners .queued (by decide) h.one ho (by simp)
    rwa [← s.ghost.signal_owners tagDelete] at this
  | deleteFirst _ hlow =>
    have ho := h.low_eq_null_iff.mp hlow
    exact h.signal tagDelete (t :: s.ghost.owners) .queued (by decide) (by simp [ho]) (by simp)
      (by simp)
  | passNone ho hcap => exact h.passNone ho hcap
  | passSome a ho hcap ha => exact h.passSome ho hcap ha
  | capture ho hcap _ => exact h.capture ho hcap
  | release _ hcap hbusy hlow => exact h.release hcap hbusy hlow

/-- Changing the place of a node that nobody else holds. -/
theorem held_update {place : α → Place τ} {a b : α} {t u : τ} {pl : Place τ} (hu : u ≠ t)
    (ha : place a = .free ∨ place a = .held t) (hb : place b = .held u) :
    update place a pl b = .held u := by
  rcases eq_or_ne b a with rfl | hne
  · rcases ha with ha | ha <;> rw [ha] at hb <;> simp at hb
    exact absurd hb.symm hu
  · rw [update_of_ne hne, hb]

/-- **A head step is within the guarantee.** -/
theorem HeadStep.guar (hst : HeadStep t s s') (h : Inv s) :
    Guar t s s' := by
  have hmine : ∀ {u : τ}, u ≠ t → s.ghost.owners = [u] → s.ghost.owners ≠ [t] := by
    intro u hu ho ho'
    rw [ho] at ho'
    exact hu (List.cons.inj ho').1
  have hzero : ∀ {u : τ}, s.mem.low = .null → s.ghost.owners ≠ [u] := by
    intro u hlow ho
    rw [h.low_eq_null_iff.mp hlow] at ho
    cases ho
  cases hst with
  | same => exact .refl t s
  | holdDelete hr =>
    exact ⟨fun _ _ _ ha => ⟨ha, rfl⟩, fun u _ hu => (by rw [hr] at hu; cases hu),
      fun _ _ ho => ⟨ho, rfl, rfl, rfl, fun _ _ => rfl⟩, rfl, id⟩
  | link a p ha =>
    refine ⟨fun u hu b hb => ⟨hb, ?_⟩, fun _ _ hr => hr,
      fun _ _ ho => ⟨ho, rfl, rfl, rfl, fun b hb => ?_⟩, rfl, id⟩
    · refine update_of_ne ?_ _ _
      rintro rfl
      rw [ha] at hb
      exact hu (Place.held.inj hb).symm
    · refine update_of_ne ?_ _ _
      rintro rfl
      exact h.not_mem_of_held ha (by rw [nodesOf_append]; exact mem_append_left _ hb)
  | relink a p ho ha =>
    have hq : s.ghost.place a = .queued :=
      (h.queued a).mpr (by rw [nodesOf_append]; exact mem_append_left _ ha)
    refine ⟨fun u hu b hb => ⟨hb, ?_⟩, fun _ _ hr => hr, fun u hu hou => absurd ho (hmine hu hou),
      rfl, id⟩
    refine update_of_ne ?_ _ _
    rintro rfl
    rw [hq] at hb
    cases hb
  | push a ha _ _ =>
    exact ⟨fun u hu b hb => ⟨held_update hu (.inr ha) hb, rfl⟩, fun _ _ hr => hr,
      fun _ _ ho => ⟨ho, rfl, rfl, rfl, fun _ _ => rfl⟩, rfl, id⟩
  | pushFirst a ha hlow =>
    exact ⟨fun u hu b hb => ⟨held_update hu (.inr ha) hb, rfl⟩, fun _ _ hr => hr,
      fun _ _ ho => absurd ho (hzero hlow), rfl, id⟩
  | claim hlow =>
    exact ⟨fun _ _ _ ha => ⟨ha, rfl⟩, fun _ _ hr => hr, fun _ _ ho => absurd ho (hzero hlow), rfl, id⟩
  | signal bits _ _ _ =>
    exact ⟨fun _ _ _ ha => ⟨by simpa using ha, rfl⟩, fun _ _ hr => by simpa using hr,
      fun _ _ ho => ⟨by simpa using ho, by simp, by simp, by simp, fun _ _ => rfl⟩, rfl, by simp⟩
  | signalFirst bits _ _ hlow =>
    exact ⟨fun _ _ _ ha => ⟨by simpa using ha, rfl⟩, fun _ _ hr => by simpa using hr,
      fun _ _ ho => absurd ho (hzero hlow), rfl, by simp⟩
  | delete hr _ =>
    exact ⟨fun _ _ _ ha => ⟨by simpa using ha, rfl⟩,
      fun u hu hr' => absurd (Place.held.inj (hr'.symm.trans hr)) hu,
      fun _ _ ho => ⟨by simpa using ho, by simp, by simp, by simp, fun _ _ => rfl⟩, rfl, by simp⟩
  | deleteFirst hr hlow =>
    exact ⟨fun _ _ _ ha => ⟨by simpa using ha, rfl⟩,
      fun u hu hr' => absurd (Place.held.inj (hr'.symm.trans hr)) hu,
      fun _ _ ho => absurd ho (hzero hlow), rfl, by simp⟩
  | passNone ho _ =>
    exact ⟨fun _ _ _ ha => ⟨ha, rfl⟩, fun _ _ hr => hr,
      fun u hu hou => absurd ho (hmine hu hou), rfl, id⟩
  | passSome a ho _ ha =>
    exact ⟨fun u hu b hb => ⟨held_update hu (.inr ha) hb, rfl⟩, fun _ _ hr => hr,
      fun u hu hou => absurd ho (hmine hu hou), rfl, id⟩
  | capture ho _ _ =>
    exact ⟨fun _ _ _ ha => ⟨ha, rfl⟩, fun _ _ hr => hr,
      fun u hu hou => absurd ho (hmine hu hou), rfl, id⟩
  | release ho _ _ _ =>
    exact ⟨fun _ _ _ ha => ⟨ha, rfl⟩, fun _ _ hr => hr,
      fun u hu hou => absurd ho (hmine hu hou), rfl, id⟩

/-! ### Other steps

These also change what is not the head word's: the object's state with a node's, and what is
dispatched. -/

omit [DecidableEq α] in
/-- The invariant does not depend on the object's own state. -/
theorem Inv.setObj (h : Inv s) (o : O) : Inv ⟨{ s.mem with obj := o }, s.ghost⟩ :=
  ⟨h.one, h.idle, h.chain, h.base, h.stack, h.sound, h.order, h.queued, h.nodup, h.delete⟩

omit [DecidableEq α] in
theorem Guar.setObj (t : τ) (s : State α τ O) (o : O) :
    Guar t s ⟨{ s.mem with obj := o }, s.ghost⟩ :=
  ⟨fun _ _ _ ha => ⟨ha, rfl⟩, fun _ _ hr => hr, fun _ _ ho => ⟨ho, rfl, rfl, rfl, fun _ _ => rfl⟩,
    rfl, id⟩

/-- A call takes a node nobody uses, or gives its own back. -/
theorem Guar.setPlace (pl : Place τ) (o : O) (ha : s.ghost.place a = .free ∨ s.ghost.place a = .held t):
    Guar t s ⟨{ s.mem with obj := o }, { s.ghost with place := update s.ghost.place a pl }⟩ :=
  ⟨fun _ hu _ hb => ⟨held_update hu ha hb, rfl⟩, fun _ _ hr => hr,
    fun _ _ ho => ⟨ho, rfl, rfl, rfl, fun _ _ => rfl⟩, rfl, id⟩

/-- **Handing the next captured entry to a handler keeps the invariant**, where the node and the
tag handed over are the entry's own. -/
theorem Inv.beginDispatch (h : Inv s) {e : Entry α}
    {rest : List (Entry α)} (ho : s.ghost.owners = [t]) (hcap : s.ghost.captured = e :: rest) :
    Inv ⟨s.mem, s.ghost.beginDispatch e.node e.tag⟩ := by
  have hq := h.queued
  have hnd := h.nodup
  have hord := h.order
  have hsound := h.sound
  simp only [hcap, cons_append, nodesOf_cons] at hq hnd hsound
  have hentry : (⟨e.node, e.tag, s.ghost.captured.head?.elim [] Entry.mods⟩ : Entry α) = e := by
    rw [hcap]; rfl
  have htail : s.ghost.captured.tail = rest := by rw [hcap]; rfl
  refine ⟨h.one, fun h0 => absurd (ho.symm.trans h0) (by simp), h.chain, h.base, h.stack,
    fun f hf => ?_, ?_, fun a => ?_, ?_, h.delete⟩
  · simp only [Ghost.beginDispatch, hentry, htail] at hf
    exact hsound f (by simpa using hf)
  · simp only [Ghost.beginDispatch, hentry, htail]
    rw [← hord, hcap]
    simp
  · simp only [Ghost.beginDispatch, htail]
    cases hn : e.node with
    | none => simpa [hn] using hq a
    | some b =>
      rw [hn, toList_some, singleton_append, nodup_cons] at hnd
      rcases eq_or_ne a b with rfl | hab
      · simpa using hnd.1
      · simpa [hn, hab] using hq a
  · simp only [Ghost.beginDispatch, htail]
    exact (nodup_append'.mp hnd).2.1

theorem Guar.beginDispatch (h : Inv s) {e : Entry α}
    {rest : List (Entry α)} (ho : s.ghost.owners = [t]) (hcap : s.ghost.captured = e :: rest)
    (hhalt : s.ghost.halted = false) (o : O) :
    Guar t s ⟨{ s.mem with obj := o }, s.ghost.beginDispatch e.node e.tag⟩ := by
  refine ⟨fun u hu a ha => ⟨?_, rfl⟩, fun _ _ hr => hr, fun u hu hou => ?_, rfl,
    fun h0 => by rw [hhalt] at h0; cases h0⟩
  · cases hn : e.node with
    | none => simpa [Ghost.beginDispatch] using ha
    | some b =>
      have hab : a ≠ b := by
        rintro rfl
        exact h.not_mem_of_held ha (mem_nodesOf.mpr ⟨e, by simp [hcap], hn⟩)
      simpa [Ghost.beginDispatch, update_of_ne hab] using ha
  · rw [ho] at hou
    exact absurd (List.cons.inj hou).1.symm hu

omit [DecidableEq α] in
theorem Inv.setBusy (h : Inv s) (ho : s.ghost.owners = [t])
    (busy : Bool) : Inv ⟨s.mem, s.ghost.setBusy busy⟩ :=
  ⟨h.one, fun h0 => absurd (ho.symm.trans h0) (by simp), h.chain, h.base, h.stack, h.sound, h.order,
    h.queued, h.nodup, h.delete⟩

omit [DecidableEq α] in
theorem Guar.setBusy (ho : s.ghost.owners = [t]) (busy : Bool) :
    Guar t s ⟨s.mem, s.ghost.setBusy busy⟩ := by
  refine ⟨fun _ _ _ ha => ⟨ha, rfl⟩, fun _ _ hr => hr, fun u hu hou => ?_, rfl, id⟩
  rw [ho] at hou
  exact absurd (List.cons.inj hou).1.symm hu

end Combiner

end Asyncio
