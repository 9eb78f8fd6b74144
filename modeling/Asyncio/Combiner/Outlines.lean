import Asyncio.Concurrent.Outline
import Asyncio.Combiner.Invariant

/-!
# Proof outlines of the combiner

Every function that works on the head word, outlined once for all uses. What a use adds is an
`Ext`: a further invariant and a further guarantee, about the object that the head word protects.
An extension fits (`Ext.Fits`) when the head steps keep it. The functions' outlines then need one
thing more, `Dispatches`: that running the handler of an entry is all right by the extension.

## Main results

* `Combiner.outline_combiner` — the serving thread, from its first entry to the releasing CAS
* `Combiner.outline_pushOperation`, `outline_pushCounter`, `outline_pushValidated`,
  `outline_pushDelete`, `outline_acquire`, `outline_runAioOperation` — the calls
-/

namespace Asyncio

namespace Combiner

set_option linter.unusedSectionVars false

open Concurrent Function List

variable {α τ O : Type}

/-! ### Extensions -/

/-- What a use of the combiner maintains beyond the head word's own invariant. -/
structure Ext (α τ O : Type) where
  inv : State α τ O → Prop
  rel : τ → State α τ O → State α τ O → Prop

/-- The terms on which thread `t` runs. -/
def Ext.terms (X : Ext α τ O) (t : τ) : Terms (State α τ O) :=
  poolTerms (fun s => Inv s ∧ X.inv s) (fun u s s' => Guar u s s' ∧ X.rel u s s') t

variable {X : Ext α τ O} {t : τ}

/-! ### What a thread knows -/

/-- The call has node `a` and has written `p` into its link field. -/
def Linked (t : τ) (a : α) (p : TaggedPtr α) (s : State α τ O) : Prop :=
  s.ghost.place a = .held t ∧ s.mem.next a = p

/-- The call has node `a`, or no node yet. -/
def HasNode (t : τ) (allocated : Option α) (s : State α τ O) : Prop :=
  ∀ a ∈ allocated, s.ghost.place a = .held t

/-- The thread has the object and is between dispatches. It will dispatch `cs`; the word
`reversed` leads through `es`, which are among them and have nodes. -/
def Serves (t : τ) (cs : List (Entry α)) (reversed : TaggedPtr α) (es : List (Entry α))
    (s : State α τ O) : Prop :=
  s.ghost.owners = [t] ∧ s.ghost.captured = cs ∧ s.ghost.busy = false ∧
    (es ⊆ cs ∧ ∀ e ∈ es, e.node ≠ none) ∧
    Chain Entry.word (Entry.link s.mem.next) reversed es .null

variable {P : State α τ O → Prop}

theorem stable_of_guar
    (h : ∀ u s s', u ≠ t → Inv s → Guar u s s' → P s → P s') : Stable (X.terms t) P := by
  rintro s s' hi - ⟨u, hu, hg, -⟩ hP
  exact h u s s' hu hi.1 hg hP

theorem stable_linked (a : α) (p : TaggedPtr α) : Stable (X.terms t) (Linked t a p) :=
  stable_of_guar fun _ _ _ hu _ hg ⟨ha, hp⟩ =>
    ⟨(hg.held t hu.symm a ha).1, (hg.held t hu.symm a ha).2.trans hp⟩

theorem stable_hasNode (allocated : Option α) : Stable (X.terms t) (HasNode t allocated) :=
  stable_of_guar fun _ _ _ hu _ hg h a ha => (hg.held t hu.symm a (h a ha)).1

theorem stable_right : Stable (X.terms t) fun s => s.ghost.deleteRight = .held t :=
  stable_of_guar fun _ _ _ hu _ hg h => hg.right t hu.symm h

theorem stable_halted : Stable (X.terms t) fun s => s.ghost.halted = true :=
  stable_of_guar fun _ _ _ _ _ hg h => hg.halted h

/-- A chain of captured nodes depends on their link fields only. -/
theorem chain_of_nodes {next next' : α → TaggedPtr α} {p q : TaggedPtr α} {es : List (Entry α)}
    (h : Chain Entry.word (Entry.link next) p es q) (heq : ∀ a ∈ nodesOf es, next' a = next a) :
    Chain Entry.word (Entry.link next') p es q := by
  refine h.congr fun e he => ?_
  cases hn : e.node with
  | none => simp [Entry.link, hn]
  | some a => simpa [Entry.link, hn] using heq a (mem_nodesOf.mpr ⟨e, he, hn⟩)

theorem nodesOf_subset {es fs : List (Entry α)} (h : es ⊆ fs) : nodesOf es ⊆ nodesOf fs := by
  intro a ha
  obtain ⟨e, he, hn⟩ := mem_nodesOf.mp ha
  exact mem_nodesOf.mpr ⟨e, h he, hn⟩

theorem stable_serves (cs : List (Entry α)) (reversed : TaggedPtr α) (es : List (Entry α)) :
    Stable (X.terms t) (Serves t cs reversed es) := by
  refine stable_of_guar fun u s s' hu _ hg ⟨ho, hcap, hbusy, hsub, hc⟩ => ?_
  obtain ⟨ho', hcap', -, hbusy', hnext⟩ := hg.owner t hu.symm ho
  refine ⟨ho', hcap'.trans hcap, hbusy'.trans hbusy, hsub, chain_of_nodes hc fun a ha => ?_⟩
  exact hnext a (hcap ▸ nodesOf_subset hsub.1 ha)

/-- The thread has the object and is inside a dispatch; `es` is left for after it. -/
def Handles (t : τ) (reversed : TaggedPtr α) (es : List (Entry α)) (s : State α τ O) : Prop :=
  s.ghost.owners = [t] ∧ s.ghost.captured = es ∧ (∀ e ∈ es, e.node ≠ none) ∧
    Chain Entry.word (Entry.link s.mem.next) reversed es .null

theorem stable_handles (reversed : TaggedPtr α) (es : List (Entry α)) :
    Stable (X.terms t) (Handles t reversed es) := by
  refine stable_of_guar fun u s s' hu _ hg ⟨ho, hcap, hn, hc⟩ => ?_
  obtain ⟨ho', hcap', -, -, hnext⟩ := hg.owner t hu.symm ho
  exact ⟨ho', hcap'.trans hcap, hn, chain_of_nodes hc fun a ha => hnext a (hcap ▸ ha)⟩

/-- The thread has the object and nothing captured. -/
def Own (t : τ) : State α τ O → Prop := Serves t [] .null []

theorem stable_own : Stable (X.terms t) (Own t : State α τ O → Prop) :=
  stable_serves [] .null []

theorem stable_serves_of {φ : Prop} {cs es : List (Entry α)} {p : TaggedPtr α} :
    Stable (X.terms t) fun s => φ → Serves t cs p es s :=
  fun s s' hi hi' hr h hφ => stable_serves cs p es s s' hi hi' hr (h hφ)

theorem stable_true : Stable (X.terms t) fun _ => True := fun _ _ _ _ _ _ => trivial

variable {β : Type}

theorem outline_ret {Q : β → State α τ O → Prop} {x : β}
    (hP : Stable (X.terms t) P) (h : ∀ s, Inv s → P s → Q x s) :
    Outline (X.terms t) P (pure x) Q :=
  .ret hP fun s hi => h s hi.1

/-- `q` is the end of a captured chain whose bottom entry, if it has one to dispatch, is in `bs`. -/
def Bottom (bs : List (Entry α)) (q : TaggedPtr α) : Prop :=
  bs = [] ∧ q = .stub ∨
    ∃ b, bs = [b] ∧ b.node = none ∧ q.node.op? = none ∧ q.tag = b.tag ∧ b.tag ≠ 0#6

/-- In the middle of the reversal: `cur` leads through what is still to be reversed down to the
bottom, `rev` through what is done. -/
structure Reverses (t : τ) (bs todo done : List (Entry α)) (q cur rev : TaggedPtr α)
    (s : State α τ O) : Prop where
  owners : s.ghost.owners = [t]
  captured : s.ghost.captured = bs ++ todo.reverse ++ done
  busy : s.ghost.busy = false
  nodes : ∀ e ∈ todo ++ done, e.node ≠ none
  todo : Chain Entry.word (Entry.link s.mem.next) cur todo q
  done : Chain Entry.word (Entry.link s.mem.next) rev done .null

theorem stable_reverses (bs todo done : List (Entry α)) (q cur rev : TaggedPtr α) :
    Stable (X.terms t) (Reverses t bs todo done q cur rev) := by
  refine stable_of_guar fun u s s' hu _ hg h => ?_
  obtain ⟨ho, hcap, -, hbusy, hnext⟩ := hg.owner t hu.symm h.owners
  have hmem : ∀ es, es ⊆ s.ghost.captured → ∀ a ∈ nodesOf es, s'.mem.next a = s.mem.next a :=
    fun es hes a ha => hnext a (nodesOf_subset hes ha)
  refine ⟨ho, hcap.trans h.captured, hbusy.trans h.busy, h.nodes,
    chain_of_nodes h.todo (hmem todo ?_), chain_of_nodes h.done (hmem done ?_)⟩
  · rw [h.captured]; intro e he; simp [he]
  · rw [h.captured]; intro e he; simp [he]

/-- The captured chain and the word it starts at. -/
def Captured (t : τ) (cur rev : TaggedPtr α) (s : State α τ O) : Prop :=
  ∃ bs q, Bottom bs q ∧ ∃ todo done, Reverses t bs todo done q cur rev s

theorem stable_captured (cur rev : TaggedPtr α) :
    Stable (X.terms t) (Captured t cur rev : State α τ O → Prop) :=
  .exists fun bs => .exists fun q => (Stable.pure _).and <|
    .exists fun todo => .exists fun done => stable_reverses bs todo done q cur rev

variable {s : State α τ O}

/-- What the owner has after the capture: the whole chain to reverse, down to its bottom. -/
theorem Inv.captured (h : Inv s) (ho : s.ghost.owners = [t]) (hbusy : s.ghost.busy = false):
    Captured t s.mem.low .null ⟨{ s.mem with low := .stub }, s.ghost.capture⟩ := by
  obtain ⟨n, hc, hn⟩ := h.chain
  refine ⟨if s.ghost.base.tag = 0#6 then [] else [s.ghost.base], ⟨n, s.ghost.base.tag⟩, ?_,
    s.ghost.stack, [], ho, by simp [Ghost.capture], hbusy, fun e he => ?_, hc, rfl⟩
  · split
    · next h0 =>
      rcases hn with rfl | ⟨-, hn⟩
      · exact .inl ⟨rfl, by rw [h0]; rfl⟩
      · exact absurd h0 (hn (by simp [ho]))
    · next h0 =>
      refine .inr ⟨s.ghost.base, rfl, h.base.node, ?_, rfl, h0⟩
      rcases hn with rfl | ⟨rfl, -⟩ <;> rfl
  · obtain ⟨a, ha⟩ := h.stack e (by simpa using he)
    rw [ha.node]
    simp [Entry.ofPush]

/-! ### Programs of the object

A handler runs on the object's own state. It is outlined there, on terms `T` of its own, and the
outline is then read as one over the whole state: `W` is what the owner knows of the rest. -/

theorem stable_lift {T : Terms O} {W : State α τ O → Prop} {P : O → Prop}
    (hW : Stable (X.terms t) W) (hown : ∀ s, W s → s.ghost.owners = [t])
    (hinv : ∀ s, X.inv s → T.inv s.mem.obj)
    (hrely : ∀ u s s', u ≠ t → s.ghost.owners = [t] → X.rel u s s' →
      T.rely s.mem.obj s'.mem.obj) (hP : Stable T P) :
    Stable (X.terms t) fun s => W s ∧ P s.mem.obj := by
  intro s s' hi hi' hr h
  refine ⟨hW s s' hi hi' hr h.1, ?_⟩
  obtain ⟨u, hu, -, hrel⟩ := hr
  exact hP _ _ (hinv s hi.2) (hinv s' hi'.2) (hrely u s s' hu (hown s h.1) hrel) h.2

/-- **An outline over the object's state is one over the whole state.** -/
theorem outline_lift {T : Terms O} {W : State α τ O → Prop} {P : O → Prop}
    {p : Prog O β} {Q : β → O → Prop} (h : Outline T P p Q) (hW : Stable (X.terms t) W)
    (hown : ∀ s, W s → s.ghost.owners = [t]) (hobj : ∀ s o, W s → W ⟨{ s.mem with obj := o }, s.ghost⟩)
    (hinv : ∀ s, X.inv s → T.inv s.mem.obj)
    (hrely : ∀ u s s', u ≠ t → s.ghost.owners = [t] → X.rel u s s' →
      T.rely s.mem.obj s'.mem.obj) (hguar : ∀ s o, X.inv s → W s → T.inv o → T.guar s.mem.obj o →
      X.inv ⟨{ s.mem with obj := o }, s.ghost⟩ ∧ X.rel t s ⟨{ s.mem with obj := o }, s.ghost⟩) :
    Outline (X.terms t) (fun s => W s ∧ P s.mem.obj) (onObject t p)
      fun x s => W s ∧ Q x s.mem.obj := by
  have hst : ∀ {R : O → Prop}, Stable T R → Stable (X.terms t) fun s => W s ∧ R s.mem.obj :=
    fun hR => stable_lift hW hown hinv hrely hR
  induction h with
  | ret hP hq => exact .ret (hst hP) fun s hi hp => ⟨hp.1, hq _ (hinv s hi.2) hp.2⟩
  | act hP hQ hact =>
    refine .act (hst hP) (fun x => hst (hQ x)) fun s x s' heq hi hp => ?_
    split at heq
    · cases heq
    · obtain ⟨⟨y, o⟩, hf, hy⟩ := Option.map_eq_some_iff.mp heq
      cases hy
      obtain ⟨hi', hg, hq⟩ := hact _ y o hf (hinv s hi.2) hp.2
      obtain ⟨hxi, hxr⟩ := hguar s o hi.2 hp.1 hi' hg
      exact ⟨⟨hi.1.setObj o, hxi⟩, ⟨.setObj t s o, hxr⟩, hobj s o hp.1, hq⟩
  | pick hP hQ hpick =>
    refine .pick (hst hP) (fun x => hst (hQ x)) ?_
    rintro s x s' ⟨-, o, hr, rfl⟩ hi hp
    obtain ⟨hi', hg, hq⟩ := hpick _ x o hr (hinv s hi.2) hp.2
    obtain ⟨hxi, hxr⟩ := hguar s o hi.2 hp.1 hi' hg
    exact ⟨⟨hi.1.setObj o, hxi⟩, ⟨.setObj t s o, hxr⟩, hobj s o hp.1, hq⟩
  | bind _ _ ih ihk => exact .bind ih fun x => ihk x
  | loop I x _ hQ ih =>
    refine .loop (fun y s => W s ∧ I y s.mem.obj) x (fun y => (ih y).post ?_) fun y => hst (hQ y)
    rintro (_ | _) s _ h <;> exact h
  | conseq hP hpre _ hpost ih =>
    exact .conseq (hst hP) (fun s hi hp => ⟨hp.1, hpre _ (hinv s hi.2) hp.2⟩) ih
      fun x s hi hq => ⟨hq.1, hpost x _ (hinv s hi.2) hq.2⟩
  | obtain hP hpre _ ih =>
    refine .obtain (hst hP) (fun s hi hp => ?_) ih
    obtain ⟨i, hr⟩ := hpre _ (hinv s hi.2) hp.2
    exact ⟨i, hp.1, hr⟩

/-! ### Instructions -/

variable [DecidableEq α] [DecidableEq τ]

/-- Head steps are all right by the extension. -/
def Ext.Fits (X : Ext α τ O) : Prop :=
  ∀ t s s', HeadStep t s s' → Inv s → Inv s' → X.inv s → X.inv s' ∧ X.rel t s s'

@[simp] theorem Ghost.track_self (p : TaggedPtr α) (g : Ghost α τ) : g.track t p p = g := by
  unfold Ghost.track
  split
  · next h => exact absurd h.1 h.2
  · split
    · next h => exact absurd h.2 h.1
    · rfl

theorem Ghost.track_of_ne (g : Ghost α τ) {p q : TaggedPtr α} (hp : p ≠ .null) (hq : q ≠ .null) :
    g.track t p q = g := by
  simp [Ghost.track, hp, hq]

theorem Ghost.track_take (g : Ghost α τ) {q : TaggedPtr α} (hq : q ≠ .null) :
    g.track t .null q = { g with owners := t :: g.owners } := by
  simp [Ghost.track, hq]

/-- An instruction that is a head step. -/
theorem outline_instr (hX : X.Fits) {f : Mem α O → β × Mem α O}
    {nt : β → Ghost α τ → Ghost α τ} {Q : β → State α τ O → Prop}
    (hP : Stable (X.terms t) P) (hQ : ∀ x, Stable (X.terms t) (Q x)) (h : ∀ s, Inv s → P s →
      HeadStep t s ⟨(f s.mem).2, (nt (f s.mem).1 s.ghost).track t s.mem.low (f s.mem).2.low⟩ ∧
      Q (f s.mem).1 ⟨(f s.mem).2, (nt (f s.mem).1 s.ghost).track t s.mem.low (f s.mem).2.low⟩) :
    Outline (X.terms t) P (instr t f nt) Q := by
  refine .act hP hQ fun s x s' heq hi hPs => ?_
  split at heq
  · cases heq
  · cases heq
    obtain ⟨hstep, hq⟩ := h s hi.1 hPs
    have hinv := hstep.inv hi.1
    obtain ⟨hxi, hxr⟩ := hX t s _ hstep hi.1 hinv hi.2
    exact ⟨⟨hinv, hxi⟩, ⟨hstep.guar hi.1, hxr⟩, hq⟩

/-- An instruction that only reads. -/
theorem outline_read (hX : X.Fits) {f : Mem α O → β} (hP : Stable (X.terms t) P):
    Outline (X.terms t) P (instr t (fun m => (f m, m)) fun _ g => g) fun _ => P := by
  refine outline_instr hX hP (fun _ => hP) fun s _ hPs => ?_
  simp only [Ghost.track_self]
  exact ⟨.same s, hPs⟩

theorem outline_loadLow (hX : X.Fits) (hP : Stable (X.terms t) P) :
    Outline (X.terms t) P (loadLow t) fun _ => P :=
  outline_read hX hP

/-- Creating an operation in a node nobody uses is all right by the extension. -/
def Creates (X : Ext α τ O) (B : Backend α O) (t : τ) : Prop :=
  ∀ s a o, Inv s → X.inv s → s.ghost.place a = .free → B.create s.mem.obj a o →
    let s' : State α τ O := ⟨{ s.mem with obj := o },
      { s.ghost with place := update s.ghost.place a (.held t) }⟩
    X.inv s' ∧ X.rel t s s'

/-- So is giving back one that was never pushed. -/
def Discards (X : Ext α τ O) (B : Backend α O) (t : τ) : Prop :=
  ∀ s a, Inv s → X.inv s → s.ghost.place a = .held t →
    let s' : State α τ O := ⟨{ s.mem with obj := B.discard a s.mem.obj },
      { s.ghost with place := update s.ghost.place a .free }⟩
    X.inv s' ∧ X.rel t s s'

/-- Taking a node nobody uses. -/
theorem outline_newAsyncOp {B : Backend α O} (hC : Creates X B t) (hP : Stable (X.terms t) P)
    (hhold : ∀ s a o, P s → P ⟨{ s.mem with obj := o },
      { s.ghost with place := update s.ghost.place a (.held t) }⟩) :
    Outline (X.terms t) P (newAsyncOp B t) fun a s => P s ∧ HasNode t (some a) s := by
  refine .pick hP (fun a => hP.and (stable_hasNode _)) ?_
  rintro s a s' ⟨-, hfree, o, hcreate, rfl⟩ hi hPs
  obtain ⟨hxi, hxr⟩ := hC s a o hi.1 hi.2 hfree hcreate
  have hinv := (hi.1.setPlace (.held t) (by rw [hfree]; simp) (by simp)).setObj o
  refine ⟨⟨hinv, hxi⟩, ⟨.setPlace _ o (.inl hfree), hxr⟩, hhold s a o hPs, fun b hb => ?_⟩
  cases Option.mem_some.mp hb
  simp

/-! ### Dispatching -/

/-- After the dispatch of a DELETE tag no instruction runs. -/
theorem outline_onObject_halted (p : Prog O β) :
    Outline (X.terms t) (fun s => s.ghost.halted = true) (onObject t p)
      fun _ s => s.ghost.halted = true := by
  induction p with
  | ret x => exact .skip stable_halted
  | act f =>
    refine .act stable_halted (fun _ => stable_halted) fun s x s' heq _ hP => ?_
    rw [if_pos hP] at heq
    cases heq
  | pick r =>
    refine .pick stable_halted (fun _ => stable_halted) ?_
    rintro s x s' ⟨h0, -⟩ _ hP
    rw [h0] at hP
    cases hP
  | bind p k ihp ihk => exact .bind ihp fun x => ihk x
  | loop body x ih =>
    refine .loop (fun _ s => s.ghost.halted = true) x (fun y => (ih y).post ?_)
      fun _ => stable_halted
    rintro (_ | _) _ _ h <;> exact h

theorem outline_instr_halted {f : Mem α O → β × Mem α O} {nt : β → Ghost α τ → Ghost α τ}:
    Outline (X.terms t) (fun s => s.ghost.halted = true) (instr t f nt)
      fun _ s => s.ghost.halted = true := by
  refine .act stable_halted (fun _ => stable_halted) fun s x s' heq _ hP => ?_
  rw [if_pos hP] at heq
  cases heq

/-- The owner begins or ends its work on the object, where that is all right by the extension. -/
theorem outline_setBusy {P Q : State α τ O → Prop} {busy : Bool} (hP : Stable (X.terms t) P)
    (hQ : Stable (X.terms t) Q) (h : ∀ s, Inv s → X.inv s → P s → s.ghost.owners = [t] ∧
      X.inv ⟨s.mem, s.ghost.setBusy busy⟩ ∧ X.rel t s ⟨s.mem, s.ghost.setBusy busy⟩ ∧
      Q ⟨s.mem, s.ghost.setBusy busy⟩) :
    Outline (X.terms t) P (note t (Ghost.setBusy busy)) fun _ => Q := by
  refine .act hP (fun _ => hQ) fun s x s' heq hi hp => ?_
  split at heq
  · cases heq
  simp only [Ghost.track_self] at heq
  cases heq
  obtain ⟨ho, hxi, hxr, hq⟩ := h s hi.1 hi.2 hp
  exact ⟨⟨hi.1.setBusy ho busy, hxi⟩, ⟨.setBusy ho busy, hxr⟩, hq⟩

/-- Handing an entry to its handler is all right by the extension, whatever is left after it. -/
def Dispatches (X : Ext α τ O) (B : Backend α O) (t : τ) : Prop :=
  ∀ e rest reversed, Outline (X.terms t) (Serves t (e :: rest) reversed rest)
    (combinerDispatch B t e.node e.tag)
    fun destroyed s => destroyed = false → Serves t rest reversed rest s

/-- The state after the dispatch of an entry was recorded. -/
def State.entered (B : Backend α O) (e : Entry α) (s : State α τ O) : State α τ O :=
  ⟨{ s.mem with obj := B.enter e.node s.mem.obj }, s.ghost.beginDispatch e.node e.tag⟩

/-- What a backend has to show: its handler runs from `M`, which holds after the entry was taken off
the captured list. -/
theorem dispatches_of {B : Backend α O} {M : Entry α → TaggedPtr α → List (Entry α) → State α τ O → Prop}
    (hM : ∀ e reversed rest, Stable (X.terms t) (M e reversed rest))
    (hbegin : ∀ e reversed rest s, Inv s → X.inv s → Serves t (e :: rest) reversed rest s →
      X.inv (s.entered B e) ∧ X.rel t s (s.entered B e) ∧
      (e.tag.has tagDelete = false → Handles t reversed rest (s.entered B e) →
        M e reversed rest (s.entered B e))) (hrun : ∀ e reversed rest, e.tag.has tagDelete = false →
      Outline (X.terms t) (M e reversed rest) (combinerHandle B t e.node e.tag)
        fun _ => Serves t rest reversed rest) : Dispatches X B t := by
  intro e rest reversed
  refine .bind (M := fun _ s =>
    if e.tag.has tagDelete then s.ghost.halted = true else M e reversed rest s) ?_ fun _ => ?_
  · refine .act (stable_serves _ _ _) (fun _ => ?_) fun s x s' heq hi h => ?_
    · split
      · exact stable_halted
      · exact hM e reversed rest
    split at heq
    · cases heq
    next hhalt =>
    simp only [Ghost.track_self] at heq
    cases heq
    obtain ⟨hxi, hxr, hm⟩ := hbegin e reversed rest s hi.1 hi.2 h
    obtain ⟨ho, hcap, -, ⟨-, hn⟩, hc⟩ := h
    refine ⟨⟨(hi.1.beginDispatch ho hcap).setObj (B.enter e.node s.mem.obj), hxi⟩,
      ⟨.beginDispatch hi.1 ho hcap (Bool.eq_false_iff.mpr hhalt) _, hxr⟩, ?_⟩
    split
    · next hd => exact hd
    · next hd =>
      exact hm (Bool.eq_false_iff.mpr hd)
        ⟨ho, by simp [State.entered, Ghost.beginDispatch, hcap], hn, hc⟩
  · cases hd : e.tag.has tagDelete with
    | true =>
      simp only [↓reduceIte]
      refine .bind (outline_onObject_halted _) fun _ => ?_
      refine .bind outline_instr_halted fun _ => .bind outline_instr_halted fun _ => ?_
      refine .bind (outline_onObject_halted _) fun _ => ?_
      exact outline_ret stable_halted fun _ _ _ h => absurd h (by simp)
    | false =>
      refine .bind (hrun e reversed rest hd) fun _ => ?_
      exact outline_ret (stable_serves _ _ _) fun _ _ h _ => h

/-! ### Serving -/

/-- Sweeping a dying object where it is given up is all right by the extension. -/
def Sweeps (X : Ext α τ O) (B : Backend α O) (t : τ) : Prop :=
  Outline (X.terms t) (Own t) (releaseSweep B t) fun _ => Own t

/-- Running `syncImpl` is all right by the extension. -/
def Syncs (X : Ext α τ O) (B : Backend α O) (t : τ) : Prop :=
  Outline (X.terms t) (Serves t [.empty] .null []) (onObject t B.syncImpl)
    fun _ => Serves t [.empty] .null []

/-- The backend keeps to the extension, and so do the head steps. -/
structure Supports (X : Ext α τ O) (B : Backend α O) (t : τ) : Prop where
  fits : X.Fits
  dispatches : Dispatches X B t
  sweeps : Sweeps X B t
  syncs : Syncs X B t
  creates : Creates X B t
  discards : Discards X B t

variable {B : Backend α O}

/-- Where the head is the stub and the thread has the object, the releasing CAS gives it up. -/
theorem outline_casRelease (hX : X.Fits) :
    Outline (X.terms t) (Own t) (casLow t .stub .null id)
      fun ok s => ok = false → Own t s := by
  refine outline_instr hX stable_own (fun _ => stable_serves_of) fun s hi ⟨ho, hcap, hbusy, hs⟩ => ?_
  by_cases hlow : s.mem.low = .stub
  · have htrack : s.ghost.track t .stub .null = { s.ghost with owners := [] } := by
      simp [Ghost.track, ho]
    simp only [hlow, ↓reduceIte, id_eq, htrack]
    exact ⟨.release s ho hcap hbusy hlow, by simp⟩
  · simp only [hlow, ↓reduceIte, Bool.false_eq_true, Ghost.track_self]
    exact ⟨.same s, fun _ => ⟨ho, hcap, hbusy, hs⟩⟩

theorem outline_combinerRelease (hX : X.Fits) (hS : Sweeps X B t) :
    Outline (X.terms t) (Own t) (combinerRelease B t .stub)
      fun seen s => seen ≠ none → Own t s := by
  refine .loop (fun _ => Own t) () (fun _ => ?_) fun _ => stable_serves_of
  refine .bind (outline_loadLow hX stable_own) fun currentHead => ?_
  split
  · refine .bind hS fun _ => ?_
    refine .bind (outline_casRelease hX) fun released => ?_
    cases released with
    | true => exact outline_ret stable_serves_of fun _ _ _ h => absurd rfl h
    | false => exact outline_ret stable_serves_of fun _ _ h => h rfl
  · exact outline_ret stable_own fun _ _ h _ => h

theorem outline_combinerCapture (hX : X.Fits) (seen : TaggedPtr α) :
    Outline (X.terms t) (Own t) (combinerCapture t .stub seen) fun cur => Captured t cur .null := by
  refine .loop (fun _ => Own t) seen (fun expected => ?_) fun cur => stable_captured cur .null
  refine .bind (M := fun ok s => if ok then Captured t expected .null s else Own t s) ?_
    fun ok => ?_
  · refine outline_instr hX stable_own (fun ok => ?_) fun s hi ⟨ho, hcap, hbusy, hs⟩ => ?_
    · cases ok
      · exact stable_own
      · exact stable_captured expected .null
    have hne : s.mem.low ≠ .null := fun h0 => by
      rw [hi.low_eq_null_iff.mp h0] at ho
      cases ho
    by_cases hlow : s.mem.low = expected
    · rw [hlow] at hne
      simp only [hlow, ↓reduceIte, Ghost.track_of_ne _ hne TaggedPtr.stub_ne_null]
      exact ⟨.capture s ho hcap hbusy, hlow ▸ hi.captured ho hbusy⟩
    · simp only [hlow, ↓reduceIte, Bool.false_eq_true, Ghost.track_self]
      exact ⟨.same s, ho, hcap, hbusy, hs⟩
  · cases ok with
    | true => exact .skip (stable_captured expected .null)
    | false =>
      refine .bind (outline_loadLow hX stable_own) fun reloaded => ?_
      exact .skip stable_own

/-- Reversed: the tail, if there is one to dispatch, and then the list. -/
def Reversed (t : τ) (rt : TaggedPtr α × TaggedPtr α) (s : State α τ O) : Prop :=
  (rt.2 = .null ∧ ∃ es, Serves t es rt.1 es s) ∨
    ∃ b es, (rt.2 ≠ .null ∧ rt.2.node.op? = b.node ∧ rt.2.tag = b.tag) ∧ Serves t (b :: es) rt.1 es s

theorem stable_reversed (rt : TaggedPtr α × TaggedPtr α) :
    Stable (X.terms t) (Reversed t rt : State α τ O → Prop) :=
  ((Stable.pure _).and <| .exists fun es => stable_serves es rt.1 es).or <|
    .exists fun b => .exists fun es => (Stable.pure _).and <| stable_serves (b :: es) rt.1 es

variable {q cur rev : TaggedPtr α}

/-- A word without a node ends the chain of entries that have nodes. -/
theorem Reverses.todo_eq_nil {bs todo done : List (Entry α)}
    (h : Reverses t bs todo done q cur rev s) (hcur : cur.node.op? = none) :
    todo = [] ∧ cur = q := by
  have hc := h.todo
  have hn := h.nodes
  cases todo with
  | nil => exact ⟨rfl, hc⟩
  | cons e es =>
    cases he : e.node with
    | none => exact absurd he (hn e (by simp))
    | some a => rw [hc.1] at hcur; simp [Entry.word, he, Node.op?] at hcur

/-- A word with a node is the next entry's. -/
theorem Reverses.todo_eq_cons {bs todo done : List (Entry α)}
    {a : α} (hb : Bottom bs q) (h : Reverses t bs todo done q cur rev s)
    (hcur : cur.node = .op a) : ∃ e es, todo = e :: es ∧ e.node = some a := by
  have hc := h.todo
  have hn := h.nodes
  cases todo with
  | nil =>
    rw [chain_nil] at hc
    have hq : q.node.op? = none := by
      rcases hb with ⟨-, rfl⟩ | ⟨b, -, -, hq, -⟩
      · rfl
      · exact hq
    rw [← hc, hcur] at hq
    cases hq
  | cons e es =>
    refine ⟨e, es, rfl, ?_⟩
    cases he : e.node with
    | none => exact absurd he (hn e (by simp))
    | some b => rw [hc.1] at hcur; simpa [Entry.word, he] using hcur

/-- One turn of the reversal. -/
theorem Reverses.turn {bs es done : List (Entry α)} {e : Entry α}
    {a : α} (hi : Inv s) (h : Reverses t bs (e :: es) done q cur rev s) (ha : e.node = some a):
    Reverses t bs es (e :: done) q (s.mem.next a) cur
      ⟨{ s.mem with next := update s.mem.next a rev }, s.ghost⟩ := by
  have hnd := hi.nodup
  rw [h.captured, nodesOf_append] at hnd
  have hnd := (nodup_append'.mp hnd).1
  simp only [reverse_cons, nodesOf_append, nodesOf_cons, ha, nodesOf_nil, append_nil,
    Option.toList_some, nodesOf_reverse] at hnd
  have hes : a ∉ nodesOf es := by
    intro hmem
    have := (nodup_append'.mp hnd).1
    rw [← append_assoc] at this
    exact disjoint_right.mp (nodup_append'.mp this).2.2 (mem_singleton_self a)
      (by simp [hmem])
  have hdone : a ∉ nodesOf done := fun hmem =>
    (nodup_append'.mp hnd).2.2 (by simp) hmem
  obtain ⟨hcur, hrest⟩ := h.todo
  refine ⟨h.owners, by simpa using h.captured, h.busy, fun f hf => h.nodes f ?_, ?_, hcur, ?_⟩
  · simp only [mem_append, mem_cons] at hf ⊢
    tauto
  · rw [Entry.link, ha] at hrest
    exact chain_update hrest hes rev
  · rw [Entry.link, ha]
    simpa using chain_update h.done hdone rev

theorem outline_combinerReverse (hX : X.Fits) (cur : TaggedPtr α) :
    Outline (X.terms t) (Captured t cur .null) (combinerReverse t .stub (cur, .null))
      (Reversed t) := by
  refine .loop (fun cr => Captured t cr.1 cr.2) (cur, .null) ?_ stable_reversed
  rintro ⟨cur, rev⟩
  dsimp only
  split
  · next hend =>
    refine outline_ret (stable_captured cur rev) ?_
    rintro s - ⟨bs, q, hb, todo, done, h⟩
    have hop : cur.node.op? = none := by rcases hend with rfl | rfl <;> rfl
    obtain ⟨rfl, rfl⟩ := h.todo_eq_nil hop
    -- Neither word has a bit set, so there is no bottom entry to dispatch.
    have hbs : bs = [] := by
      rcases hb with ⟨rfl, -⟩ | ⟨b, -, -, -, htag, hne⟩
      · rfl
      · rcases hend with rfl | rfl <;> exact absurd htag.symm hne
    subst hbs
    refine .inl ⟨rfl, done, h.owners, by simpa using h.captured, h.busy, ⟨List.Subset.refl _, ?_⟩,
      h.done⟩
    simpa using h.nodes
  · next hend =>
    split
    · next a hop =>
      refine .bind (M := fun next => Captured t next cur) ?_ fun next =>
        .skip (stable_captured next cur)
      refine outline_instr hX (stable_captured cur rev) (fun next => stable_captured next cur) ?_
      rintro s hi ⟨bs, q, hb, todo, done, h⟩
      obtain ⟨e, es, rfl, he⟩ := h.todo_eq_cons hb hop
      simp only [Ghost.track_self]
      refine ⟨.relink s a rev h.owners ?_, bs, q, hb, es, e :: done, h.turn hi he⟩
      rw [h.captured]
      exact mem_nodesOf.mpr ⟨e, by simp, he⟩
    · next hop =>
      refine outline_ret (stable_captured cur rev) ?_
      rintro s - ⟨bs, q, hb, todo, done, h⟩
      have hop : cur.node.op? = none := by
        cases hn : cur.node with
        | op a => exact absurd hn (hop a)
        | _ => rfl
      obtain ⟨rfl, rfl⟩ := h.todo_eq_nil hop
      rcases hb with ⟨-, rfl⟩ | ⟨b, rfl, hbn, hqn, htag, -⟩
      · exact absurd (.inr rfl) hend
      · refine .inr ⟨b, done, ⟨fun h0 => hend (.inl h0), hqn.trans hbn.symm, htag⟩, h.owners,
          by simpa using h.captured, h.busy, ⟨subset_cons_self _ _, ?_⟩, h.done⟩
        simpa using h.nodes

/-- Before each turn of the drain: the list is all there is left to dispatch. -/
def Drains (t : τ) (reversed : TaggedPtr α) (s : State α τ O) : Prop :=
  ∃ es, Serves t es reversed es s

theorem stable_drains (reversed : TaggedPtr α) :
    Stable (X.terms t) (Drains t reversed : State α τ O → Prop) :=
  .exists fun es => stable_serves es reversed es

/-- The word of the list is null only at its end. -/
theorem Serves.nil_of_null {cs es : List (Entry α)} (h : Serves t cs .null es s): es = [] := by
  obtain ⟨-, -, -, ⟨-, hn⟩, hc⟩ := h
  refine hc.eq_nil fun e he heq => ?_
  cases hnode : e.node with
  | none => exact hn e he hnode
  | some a => simpa [Entry.word, hnode, TaggedPtr.null] using congrArg TaggedPtr.node heq

theorem outline_combinerDrain (hX : X.Fits) (hB : Dispatches X B t) (reversed : TaggedPtr α) :
    Outline (X.terms t) (Drains t reversed) (combinerDrain B t reversed)
      fun destroyed s => destroyed = false → Own t s := by
  refine .loop (Drains t) reversed (fun reversed => ?_) fun _ => stable_serves_of
  split
  · next hnull =>
    subst hnull
    refine outline_ret (stable_drains _) ?_
    rintro s - ⟨es, h⟩ -
    obtain rfl := h.nil_of_null
    exact h
  · next hne =>
    split
    · next a hop =>
      refine .obtain (R := fun er : { er : Entry α × List (Entry α) //
        er.1.node = some a ∧ er.1.tag = reversed.tag } =>
          Serves t (er.1.1 :: er.1.2) reversed (er.1.1 :: er.1.2)) (stable_drains _) ?_ ?_
      rotate_left
      · rintro ⟨⟨e, rest⟩, he, htag⟩
        refine .bind (M := fun next => Serves t (e :: rest) next rest) ?_ fun next => ?_
        · refine outline_instr hX (stable_serves _ _ _) (fun _ => stable_serves _ _ _) ?_
          rintro s hi ⟨ho, hcap, hbusy, ⟨hsub, hnode⟩, hc⟩
          simp only [Ghost.track_self]
          refine ⟨.same s, ho, hcap, hbusy, ⟨subset_cons_self _ _, fun f hf => ?_⟩, ?_⟩
          · exact hnode f (mem_cons_of_mem _ hf)
          · simpa [Entry.link, show e.node = some a from he] using hc.2
        · dsimp only at he htag
          rw [← he, ← htag]
          refine .bind (hB e rest next) fun destroyed => ?_
          cases destroyed with
          | true => exact outline_ret stable_serves_of fun _ _ _ h => absurd h (by simp)
          | false => exact outline_ret stable_serves_of fun _ _ h => ⟨rest, h rfl⟩
      · rintro s - ⟨es, h⟩
        have hc := h.2.2.2.2
        cases es with
        | nil => exact absurd hc hne
        | cons e rest =>
          refine ⟨⟨(e, rest), ?_, ?_⟩, h⟩
          · cases hnode : e.node with
            | none => exact absurd hnode (h.2.2.2.1.2 e (by simp))
            | some b => rw [hc.1] at hop; simpa [Entry.word, hnode] using hop
          · rw [hc.1]; rfl
    · exact outline_ret (stable_drains _) fun _ _ _ h => absurd h (by simp)

/-- The tail, where there is one. -/
theorem outline_tail (hB : Dispatches X B t) (reversed tail : TaggedPtr α) :
    Outline (X.terms t) (Reversed t (reversed, tail))
      (combinerRun B t tail)
      fun destroyed s => destroyed = false → Drains t reversed s := by
  unfold combinerRun
  split
  · next hne =>
    refine .obtain (R := fun be : { be : Entry α × List (Entry α) //
      tail.node.op? = be.1.node ∧ tail.tag = be.1.tag } =>
        Serves t (be.1.1 :: be.1.2) reversed be.1.2) (stable_reversed _) ?_ ?_
    rotate_left
    · rintro ⟨⟨b, es⟩, hnode, htag⟩
      dsimp only at hnode htag
      show Outline _ (Serves t (b :: es) reversed es) _ _
      rw [hnode, htag]
      exact (hB b es reversed).post fun _ _ _ h hd => ⟨es, h hd⟩
    · rintro s - (⟨h0, -⟩ | ⟨b, es, ⟨-, hnode, htag⟩, h⟩)
      · exact absurd h0 hne
      · exact ⟨⟨(b, es), hnode, htag⟩, h⟩
  · next h0 =>
    refine outline_ret (stable_reversed _) ?_
    rintro s - (⟨-, h⟩ | ⟨b, es, ⟨hne, -⟩, -⟩) -
    · exact h
    · exact absurd hne h0

/-- **The serving thread**, from its first dispatch to the releasing CAS. -/
theorem outline_combiner_of (hT : Supports X B t) {forRun : TaggedPtr α} (hfirst : Outline (X.terms t) P
      (combinerRun B t forRun) fun destroyed s => destroyed = false → Own t s) :
    Outline (X.terms t) P (combiner B t .stub forRun) fun _ _ => True := by
  refine .bind hfirst fun destroyed => ?_
  cases destroyed with
  | true => exact outline_ret stable_serves_of fun _ _ _ => trivial
  | false =>
    refine Outline.pre (.loop (fun _ => Own t) () (fun _ => ?_) fun _ => stable_true)
      stable_serves_of fun _ _ h => h rfl
    refine .bind (outline_combinerRelease hT.fits hT.sweeps) fun seen => ?_
    cases seen with
    | none => exact outline_ret stable_serves_of fun _ _ _ => trivial
    | some seen =>
      refine Outline.pre ?_ stable_serves_of fun _ _ h => h (by simp)
      refine .bind (outline_combinerCapture hT.fits seen) fun cur => ?_
      refine .bind (outline_combinerReverse hT.fits cur) ?_
      rintro ⟨reversed, tail⟩
      refine .bind (outline_tail hT.dispatches reversed tail) fun destroyed => ?_
      cases destroyed with
      | true =>
        exact outline_ret (fun s s' hi hi' hr h hd => stable_drains _ s s' hi hi' hr (h hd))
          fun _ _ _ => trivial
      | false =>
        refine Outline.pre (R := Drains t reversed) ?_
          (fun s s' hi hi' hr h hd => stable_drains _ s s' hi hi' hr (h hd))
          fun _ _ h => h rfl
        refine .bind (outline_combinerDrain hT.fits hT.dispatches reversed) fun destroyed => ?_
        cases destroyed with
        | true => exact outline_ret stable_serves_of fun _ _ _ => trivial
        | false => exact outline_ret stable_serves_of fun _ _ h => h rfl

/-- With nothing to run first. -/
theorem outline_combiner (hT : Supports X B t) :
    Outline (X.terms t) (Own t) (combiner B t .stub .null) fun _ _ => True := by
  refine outline_combiner_of hT ?_
  simp only [combinerRun, ne_eq, not_true_eq_false, ↓reduceIte]
  exact outline_ret stable_own fun _ _ h _ => h

/-- With a node to run first. -/
theorem outline_combiner_forRun (hT : Supports X B t) (a : α) :
    Outline (X.terms t) (Serves t [.ofPush a] .null []) (combiner B t .stub (.make a))
      fun _ _ => True := by
  refine outline_combiner_of hT ?_
  simp only [combinerRun, ne_eq, TaggedPtr.make_ne_null, not_false_eq_true, ↓reduceIte]
  exact hT.dispatches (.ofPush a) [] .null

/-! ### Runs -/

/-- Threads outlined on the terms of one extension keep both invariants. -/
theorem Ext.inv_of_run {threads : τ → Prog (State α τ O) Unit} {s₀ : State α τ O}
    {c : Config (State α τ O) τ} {P : τ → State α τ O → Prop} (h₀ : Inv s₀) (hX : X.inv s₀)
    (hP : ∀ t, P t s₀) (ho : ∀ t, Outline (X.terms t) (P t) (threads t) fun _ _ => True)
    (hrun : Run ⟨s₀, threads⟩ c) : Inv c.shared ∧ X.inv c.shared :=
  invariant_of_outlines (c := ⟨s₀, threads⟩) ⟨h₀, hX⟩ hP ho hrun

end Combiner

end Asyncio
