import Asyncio.Combiner.Outlines

/-!
# Proof outlines of the calls

The functions that other code calls on an object, each from what its caller provides.

## Main results

* `Combiner.outline_pushCounter`, `outline_pushValidated`, `outline_pushDelete`,
  `outline_pushOperation`, `outline_acquire`, `outline_runAioOperation`
-/

namespace Asyncio

namespace Combiner

set_option linter.unusedSectionVars false

open Concurrent

variable {α τ O : Type} {X : Ext α τ O} {t : τ} [DecidableEq α] [DecidableEq τ] {B : Backend α O}

/-! ### Signals -/

variable {s : State α τ O}

/-- Who takes the zero head finds nothing captured. -/
theorem Inv.serves_of_idle (h : Inv s) (hlow : s.mem.low = .null)
    {m : Mem α O} {g : Ghost α τ} {cs : List (Entry α)} (ho : g.owners = t :: s.ghost.owners)
    (hcap : g.captured = cs) (hbusy : g.busy = s.ghost.busy) : Serves t cs .null [] ⟨m, g⟩ := by
  have hidle := h.low_eq_null_iff.mp hlow
  refine ⟨by rw [ho, hidle], hcap, hbusy.trans (h.idle hidle).2.2.2.2, ⟨by simp, by simp⟩, rfl⟩

/-- Setting signal bits: who finds the head zero has the object then. -/
theorem signal_spec (hi : Inv s) {bits : Tag} (hb : bits ≠ 0#6) (hd : bits.has tagDelete = false):
    HeadStep t s ⟨{ s.mem with low := s.mem.low.or bits },
      (s.ghost.signal bits).track t s.mem.low (s.mem.low.or bits)⟩ ∧
    (s.mem.low = .null → Own t ⟨{ s.mem with low := s.mem.low.or bits },
      (s.ghost.signal bits).track t s.mem.low (s.mem.low.or bits)⟩) := by
  have hne := s.mem.low.or_ne_null hb
  by_cases hlow : s.mem.low = .null
  · have htrack : (s.ghost.signal bits).track t s.mem.low (s.mem.low.or bits) =
        { s.ghost.signal bits with owners := t :: s.ghost.owners } := by
      rw [hlow] at hne ⊢
      rw [Ghost.track_take _ hne, Ghost.signal_owners]
    rw [htrack]
    refine ⟨.signalFirst s bits hb hd hlow, fun _ => hi.serves_of_idle hlow rfl ?_ ?_⟩
    · exact (s.ghost.signal_captured bits).trans (hi.idle (hi.low_eq_null_iff.mp hlow)).2.1
    · exact s.ghost.signal_busy bits
  · rw [Ghost.track_of_ne _ hlow hne]
    exact ⟨.signal s bits hb hd hlow, fun h => absurd h hlow⟩

/-- A call that took the head from zero serves the object. -/
theorem outline_serve_if (hT : Supports X B t) {φ : Prop} [Decidable φ]:
    Outline (X.terms t) (fun s => φ → Own t s) (if φ then combiner B t .stub .null else pure ())
      fun _ _ => True := by
  split
  · next hφ =>
    exact (outline_combiner hT).pre stable_serves_of fun _ _ h => h hφ
  · exact outline_ret stable_serves_of fun _ _ _ => trivial

/-- **`combinerPushCounter`** -/
theorem outline_pushCounter (hT : Supports X B t) {bits : Tag}
    (hb : bits ≠ 0#6) (hd : bits.has tagDelete = false) :
    Outline (X.terms t) (fun _ => True) (combinerPushCounter B t bits) fun _ _ => True := by
  refine .bind (M := fun old s => old = .null → Own t s) ?_ fun _ => outline_serve_if hT
  exact outline_instr hT.fits stable_true (fun _ => stable_serves_of) fun s hi _ => signal_spec hi hb hd

/-- **`combinerPushDelete`** -/
theorem outline_pushDelete (hT : Supports X B t) :
    Outline (X.terms t) (fun s => s.ghost.deleteRight = .held t) (combinerPushDelete B t)
      fun _ _ => True := by
  refine .bind (M := fun old s => old = .null → Own t s) ?_ fun _ => outline_serve_if hT
  refine outline_instr hT.fits stable_right (fun _ => stable_serves_of) fun s hi hr => ?_
  have hadd : (⟨s.mem.low.node, s.mem.low.tag + tagDelete⟩ : TaggedPtr α) =
      s.mem.low.or tagDelete := by
    rw [Tag.add_delete (hi.low_has_delete (by rw [hr]; simp))]
    rfl
  have hne := s.mem.low.or_ne_null (show tagDelete ≠ 0#6 by decide)
  simp only [hadd]
  by_cases hlow : s.mem.low = .null
  · have htrack : ({ s.ghost.signal tagDelete with deleteRight := .queued } : Ghost α τ).track t
        s.mem.low (s.mem.low.or tagDelete) =
        { s.ghost.signal tagDelete with
          deleteRight := .queued, owners := t :: s.ghost.owners } := by
      rw [hlow] at hne ⊢
      rw [Ghost.track_take _ hne, Ghost.signal_owners]
    rw [htrack]
    refine ⟨.deleteFirst s hr hlow, fun _ => hi.serves_of_idle hlow rfl ?_ ?_⟩
    · exact (s.ghost.signal_captured tagDelete).trans (hi.idle (hi.low_eq_null_iff.mp hlow)).2.1
    · exact s.ghost.signal_busy tagDelete
  · rw [Ghost.track_of_ne _ hlow hne]
    exact ⟨.delete s hr hlow, fun h => absurd h hlow⟩

/-- **`combinerPushValidated`**, with whatever generation. -/
theorem outline_pushValidated (hT : Supports X B t)
    {bits : Tag} (hb : bits ≠ 0#6) (hd : bits.has tagDelete = false) (generation : ℕ) :
    Outline (X.terms t) (fun _ => True) (combinerPushValidated B t generation bits)
      fun _ _ => True := by
  refine .bind (outline_loadLow hT.fits stable_true) fun low => ?_
  refine .bind (M := fun won s => won = some .null → Own t s) ?_ fun won => ?_
  · refine .loop (fun _ _ => True) _ (fun expected => ?_) fun _ => stable_serves_of
    split
    · exact outline_ret stable_true fun _ _ _ h => absurd h (by simp)
    · refine .bind (M := fun r s => r.1 = true → expected.1 = .null → Own t s) ?_ ?_
      · refine outline_instr hT.fits stable_true ?_ fun s hi _ => ?_
        · exact fun r s s' hi hi' hr h h1 => stable_serves_of s s' hi hi' hr (h h1)
        by_cases heq : (s.mem.low, s.mem.high) = expected
        · subst heq
          simp only [↓reduceIte]
          exact ⟨(signal_spec hi hb hd).1, fun _ => (signal_spec hi hb hd).2⟩
        · simp only [heq, ↓reduceIte, Bool.false_eq_true, Ghost.track_self]
          exact ⟨.same s, by simp⟩
      · rintro ⟨ok, seen⟩
        have hs : Stable (X.terms t)
            (fun s => ok = true → expected.1 = .null → Own t s : State α τ O → Prop) :=
          fun s s' hi hi' hr h h1 => stable_serves_of s s' hi hi' hr (h h1)
        cases ok with
        | true => exact outline_ret hs fun _ _ h h1 => h rfl (Option.some.inj h1)
        | false => exact outline_ret hs fun _ _ _ => trivial
  · cases won with
    | none => exact outline_ret stable_serves_of fun _ _ _ => trivial
    | some low =>
      dsimp only
      split
      · next h0 =>
        refine .bind (M := fun _ _ => True) ?_ fun _ =>
          outline_ret stable_true fun _ _ _ => trivial
        exact (outline_combiner hT).pre stable_serves_of
          fun _ _ h => h (by rw [h0])
      · exact outline_ret stable_serves_of fun _ _ _ => trivial

/-- Pushing a linked node: the head is still the word it was linked to, or nothing happens. -/
theorem outline_casPush (hX : X.Fits) {a : α} {head : TaggedPtr α} (hne : head ≠ .null) :
    Outline (X.terms t) (Linked t a head) (casLow t head (.make a) (Ghost.push a))
      fun ok s => ok = false → HasNode t (some a) s := by
  have hpost : ∀ ok, Stable (X.terms t)
      (fun s => ok = false → HasNode t (some a) s : State α τ O → Prop) :=
    fun _ s s' hi hi' hr h h0 => stable_hasNode (some a) s s' hi hi' hr (h h0)
  refine outline_instr hX (stable_linked a head) hpost fun s hi ⟨ha, hnext⟩ => ?_
  by_cases hlow : s.mem.low = head
  · simp only [hlow, ↓reduceIte, Ghost.track_of_ne _ hne (TaggedPtr.make_ne_null a)]
    exact ⟨.push s a ha (hlow ▸ hne) (hnext.trans hlow.symm), by simp⟩
  · simp only [hlow, ↓reduceIte, Bool.false_eq_true, Ghost.track_self]
    refine ⟨.same s, fun _ b hb => ?_⟩
    cases Option.mem_some.mp hb
    exact ha

/-- Writing the link field of a node the call has. -/
theorem outline_storeNext (hX : X.Fits) (a : α) (p : TaggedPtr α) :
    Outline (X.terms t) (HasNode t (some a)) (storeNext t a p) fun _ => Linked t a p := by
  refine outline_instr hX (stable_hasNode _) (fun _ => stable_linked a p) fun s hi h => ?_
  have ha := h a rfl
  simp only [Ghost.track_self]
  exact ⟨.link s a p ha, ha, by simp⟩

/-- **`combinerPushOperation`** -/
theorem outline_pushOperation (hT : Supports X B t) (a : α) :
    Outline (X.terms t) (HasNode t (some a)) (combinerPushOperation B t a) fun _ _ => True := by
  refine .bind (M := fun head s => head = .null → Serves t [.ofPush a] .null [] s) ?_
    fun head => ?_
  · refine .loop (fun _ => HasNode t (some a)) () (fun _ => ?_) fun _ => stable_serves_of
    refine .bind (outline_loadLow hT.fits (stable_hasNode (some a))) fun head => ?_
    split
    · next hne =>
      refine .bind (outline_storeNext hT.fits a head) fun _ => .bind (outline_casPush hT.fits hne) fun ok => ?_
      have hs : Stable (X.terms t)
          (fun s => ok = false → HasNode t (some a) s : State α τ O → Prop) :=
        fun s s' hi hi' hr h h0 => stable_hasNode (some a) s s' hi hi' hr (h h0)
      cases ok with
      | true => exact outline_ret hs fun _ _ _ h => absurd h hne
      | false => exact outline_ret hs fun _ _ h => h rfl
    · next h0 =>
      obtain rfl : head = .null := not_not.mp h0
      refine .bind (M := fun ok s =>
        if ok then Serves t [.ofPush a] .null [] s else HasNode t (some a) s) ?_ fun ok => ?_
      · refine outline_instr hT.fits (stable_hasNode _) (fun ok => ?_) fun s hi h => ?_
        · cases ok
          · exact stable_hasNode (some a)
          · exact stable_serves _ _ _
        by_cases hlow : s.mem.low = .null
        · simp only [hlow, ↓reduceIte, Ghost.track_take _ TaggedPtr.stub_ne_null]
          exact ⟨.pushFirst s a (h a rfl) hlow, hi.serves_of_idle hlow rfl rfl rfl⟩
        · simp only [hlow, ↓reduceIte, Bool.false_eq_true, Ghost.track_self]
          exact ⟨.same s, h⟩
      · cases ok with
        | true => exact outline_ret (stable_serves _ _ _) fun _ _ h _ => h
        | false => exact .skip (stable_hasNode _)
  · split
    · next h0 =>
      exact (outline_combiner_forRun hT a).pre stable_serves_of
        fun _ _ h => h h0
    · exact outline_ret stable_serves_of fun _ _ _ => trivial

/-- The call took the head without a node, and may have allocated one. -/
def Claimed (t : τ) (allocated : Option α) (s : State α τ O) : Prop :=
  Serves t [.empty] .null [] s ∧ HasNode t allocated s

theorem stable_claimed (allocated : Option α) :
    Stable (X.terms t) (Claimed t allocated : State α τ O → Prop) :=
  (stable_serves _ _ _).and (stable_hasNode allocated)

/-- Allocating where no node was allocated yet. -/
theorem outline_allocateOnce (hC : Creates X B t) (allocated : Option α) {P : State α τ O → Prop}
    (hP : Stable (X.terms t) P) (hhold : ∀ s a o, P s → P ⟨{ s.mem with obj := o },
      { s.ghost with place := Function.update s.ghost.place a (.held t) }⟩) :
    Outline (X.terms t) (fun s => P s ∧ HasNode t allocated s) (allocateOnce B t allocated)
      fun a s => P s ∧ HasNode t (some a) s := by
  cases allocated with
  | some a =>
    exact .skip (hP.and (stable_hasNode _))
  | none =>
    exact (outline_newAsyncOp hC hP hhold).pre (hP.and (stable_hasNode _)) fun _ _ h => h.1

/-- Serving does not depend on the object's state, nor on the nodes calls hold. -/
theorem Serves.setPlace {cs es : List (Entry α)} {p : TaggedPtr α}
    (h : Serves t cs p es s) (a : α) (pl : Place τ) (o : O) :
    Serves t cs p es ⟨{ s.mem with obj := o },
      { s.ghost with place := Function.update s.ghost.place a pl }⟩ := h

/-- The acquirer passes the node it has. -/
theorem outline_passSome (hX : X.Fits) (a : α) :
    Outline (X.terms t) (Claimed t (some a)) (note t (Ghost.passForRun (some a)))
      fun _ => Serves t [.ofPush a] .null [] := by
  refine outline_instr hX (stable_claimed _) (fun _ => stable_serves _ _ _) ?_
  rintro s hi ⟨⟨ho, hcap, hbusy, hs⟩, ha⟩
  simp only [Ghost.track_self]
  exact ⟨.passSome s a ho hcap (ha a rfl), ho, rfl, hbusy, by simp, rfl⟩

/-- What the acquiring loop leaves: a pushed node, or the head taken. -/
def AcquireLoop (t : τ) (r : TaggedPtr α × Option α) (s : State α τ O) : Prop :=
  (r.1 ≠ .null → r.2 ≠ none) ∧ (r.1 = .null → Claimed t r.2 s)

theorem stable_acquireLoop (r : TaggedPtr α × Option α) :
    Stable (X.terms t) (AcquireLoop t r : State α τ O → Prop) :=
  (Stable.pure _).and fun s s' hi hi' hr h h0 => stable_claimed r.2 s s' hi hi' hr (h h0)

/-- **`combinerAcquire`**: where it answers `none`, the caller has the object. -/
theorem outline_acquire (hT : Supports X B t) (write : Bool) :
    Outline (X.terms t) (fun _ => True) (combinerAcquire B t write)
      fun r s => r = none → Serves t [.empty] .null [] s := by
  refine .bind (M := AcquireLoop t) ?_ ?_
  · refine Outline.pre (.loop (HasNode t) none (fun allocated => ?_) stable_acquireLoop)
      stable_true fun _ _ _ => by simp [HasNode]
    refine .bind (outline_loadLow hT.fits (stable_hasNode allocated)) fun head => ?_
    split
    · next hne =>
      refine .bind (M := fun a => HasNode t (some a)) ?_ fun a => ?_
      · exact ((outline_allocateOnce hT.creates allocated stable_true fun _ _ _ _ => trivial).pre
          (stable_hasNode _) fun _ _ h => ⟨trivial, h⟩).post fun _ _ _ h => h.2
      refine .bind (outline_storeNext hT.fits a head) fun _ => .bind (outline_casPush hT.fits hne) fun ok => ?_
      have hs : Stable (X.terms t)
          (fun s => ok = false → HasNode t (some a) s : State α τ O → Prop) :=
        fun s s' hi hi' hr h h0 => stable_hasNode (some a) s s' hi hi' hr (h h0)
      cases ok with
      | true => exact outline_ret hs fun _ _ _ => ⟨by simp, fun h => absurd h hne⟩
      | false => exact outline_ret hs fun _ _ h => h rfl
    · next h0 =>
      obtain rfl : head = .null := not_not.mp h0
      refine .bind (M := fun ok s => if ok then Claimed t allocated s else HasNode t allocated s) ?_
        fun ok => ?_
      · refine outline_instr hT.fits (stable_hasNode _) (fun ok => ?_) fun s hi h => ?_
        · cases ok
          · exact stable_hasNode allocated
          · exact stable_claimed allocated
        by_cases hlow : s.mem.low = .null
        · simp only [hlow, ↓reduceIte, Ghost.track_take _ TaggedPtr.stub_ne_null]
          exact ⟨.claim s hlow, hi.serves_of_idle hlow rfl rfl rfl, h⟩
        · simp only [hlow, ↓reduceIte, Bool.false_eq_true, Ghost.track_self]
          exact ⟨.same s, h⟩
      · cases ok with
        | true => exact outline_ret (stable_claimed _) fun _ _ h => ⟨by simp, fun _ => h⟩
        | false => exact .skip (stable_hasNode _)
  · rintro ⟨head, allocated⟩
    dsimp only
    split
    · next hne =>
      exact outline_ret (stable_acquireLoop _)
        fun _ _ h h0 => absurd h0 (h.1 hne)
    · next h0 =>
      refine Outline.pre (R := Claimed t allocated) ?_ (stable_acquireLoop _)
        fun _ _ h => h.2 (not_not.mp h0)
      refine .bind (outline_read hT.fits (stable_claimed _)) fun occupied => ?_
      refine .bind (M := fun _ => Claimed t allocated) ?_ fun queued => ?_
      · cases occupied with
        | true => exact .skip (stable_claimed _)
        | false =>
          simp only [Bool.false_eq_true, ↓reduceIte]
          exact outline_read hT.fits (stable_claimed _)
      cases queued with
      | true =>
        refine .bind (outline_allocateOnce hT.creates allocated (stable_serves _ _ _)
          fun _ _ _ h => h.setPlace ..) fun a => ?_
        refine .bind (outline_passSome hT.fits a) fun _ => ?_
        refine .bind (outline_combiner_forRun hT a) fun _ => ?_
        exact outline_ret stable_true fun _ _ _ h => absurd h (by simp)
      | false =>
        cases allocated with
        | none =>
          exact outline_ret (stable_claimed _) fun _ _ h _ => h.1
        | some a =>
          refine .bind (M := fun _ => Serves t [.empty] .null []) ?_ fun _ =>
            outline_ret (stable_serves _ _ _) fun _ _ h _ => h
          refine .act (stable_claimed _) (fun _ => stable_serves _ _ _) fun s x s' heq hi h => ?_
          split at heq
          · cases heq
          simp only [Ghost.track_self] at heq
          cases heq
          have ha := h.2 a rfl
          obtain ⟨hxi, hxr⟩ := hT.discards s a hi.1 hi.2 ha
          have hinv := (hi.1.setPlace .free (by rw [ha]; simp) (by simp)).setObj (B.discard a s.mem.obj)
          exact ⟨⟨hinv, hxi⟩, ⟨.setPlace _ _ (.inr ha), hxr⟩, h.1.setPlace ..⟩

/-- **`runAioOperation`** -/
theorem outline_runAioOperation (hT : Supports X B t) (write : Bool) :
    Outline (X.terms t) (fun _ => True) (runAioOperation B t write) fun _ _ => True := by
  refine .bind (outline_acquire hT write) fun r => ?_
  cases r with
  | some a => exact outline_ret stable_serves_of fun _ _ _ => trivial
  | none =>
    refine .bind (hT.syncs.pre stable_serves_of fun _ _ h => h rfl)
      fun pending => ?_
    cases pending with
    | true =>
      refine .bind (outline_newAsyncOp hT.creates (stable_serves _ _ _)
        fun _ _ _ h => h.setPlace ..) fun a => ?_
      exact .bind (outline_passSome hT.fits a) fun _ => outline_combiner_forRun hT a
    | false =>
      refine .bind (M := fun _ => Own t) ?_ fun _ => outline_combiner hT
      refine outline_instr hT.fits (stable_serves _ _ _) (fun _ => stable_own) ?_
      rintro s hi ⟨ho, hcap, hbusy, hs⟩
      simp only [Ghost.track_self]
      exact ⟨.passNone s ho hcap, ho, rfl, hbusy, by simp, rfl⟩

end Combiner

end Asyncio
