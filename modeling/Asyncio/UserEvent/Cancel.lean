import Asyncio.UserEvent.Timing

/-!
# Cancelling the waiter of a deleted event

Thread `w` is the coroutine `k`, which waits or sleeps on the event, one call at a time and with a
reference of its own. Another thread deletes the event. The two meet on the tag: whoever comes second,
the one to commit the waiter or the one to delete, sees the other and posts the cancellation. From then
on there is always somebody who answers for it, up to whoever puts the sentinel into the waiter word.

A thread has duties: how often it is in each of the lists of the record. Only it can change them.

## Main definitions

* `Cancellation.Inv`, `Cancellation.Guar` — the invariant, and what each thread guarantees
* `Cancellation.Duty`, `Cancellation.At` — the duties of a thread
-/

namespace Asyncio

namespace UserEvent

set_option linter.unusedSectionVars false

open Concurrent List

namespace Cancellation

variable {κ τ : Type} [DecidableEq τ]

/-! ### Duties -/

/-- How often a thread is in each of the lists, and for the waiting thread whether its waiter is
committed and not yet back. -/
structure Duty where
  busy : ℕ
  installing : ℕ
  owing : ℕ
  stored : ℕ
  cancelling : ℕ
  consumed : ℕ
  held : ℕ
  calling : ℕ
  committed : Bool
  waiting : Bool

/-- No duties. -/
def Duty.idle : Duty := ⟨0, 0, 0, 0, 0, 0, 0, 0, false, false⟩

/-- The duties of `t`, where `w` is the thread that waits. -/
def duty (w : τ) (s : State κ τ) (t : τ) : Duty where
  busy := s.ghost.deletion.busy.count t
  installing := s.ghost.deletion.installing.count t
  owing := s.ghost.deletion.owing.count t
  stored := s.ghost.deletion.stored.count t
  cancelling := s.ghost.deletion.cancelling.count t
  consumed := s.ghost.activations.consumed.count t
  held := s.ghost.life.held.count t
  calling := (s.ghost.deletion.calling.map Prod.fst).count t
  committed := decide (t = w) && s.mem.tag.committed
  waiting := decide (t = w) && s.ghost.deletion.waiting

/-- The duties of `t` are `d`. -/
def At (w t : τ) (d : Duty) (s : State κ τ) : Prop := duty w s t = d

/-! ### Invariant and guarantee -/

/-- Somebody answers for the cancellation. -/
def Pending (s : State κ τ) : Prop :=
  s.ghost.deletion.installing ≠ [] ∨ s.ghost.deletion.owing ≠ [] ∨ s.ghost.deletion.cancelling ≠ [] ∨
  s.mem.signalState ≠ 0 ∧
    (s.mem.doorbell = true ∨ s.ghost.deletion.stored ≠ [] ∨ s.ghost.activations.consumed ≠ [])

/-- The installed waiters that were taken out of the word. -/
def taken (g : Ghost τ) : List ℕ := g.deletion.calling.map Prod.snd ++ g.deletion.called

/-- The invariant, for the coroutine `k` of thread `w`, and the incarnation `first`. -/
structure Inv (w : τ) (k : κ) (first : ℕ) (s : State κ τ) : Prop where
  callback : s.mem.hasCallback = false
  refs : s.mem.tag.refs =
    s.ghost.life.held.length + if s.ghost.schedules.deleteCalled then 0 else 1
  incarnation : s.mem.tag.refs ≠ 0 → s.mem.incarnation = first
  deleted : s.mem.tag.deleted = true → s.ghost.schedules.deleteCalled = true
  deleting : s.ghost.schedules.deleting ≠ none → s.ghost.schedules.deleteCalled = true
  only : ∀ j, s.mem.waiter.low.coroutine = some j → j = k
  holds : s.ghost.deletion.waiting = true → w ∈ s.ghost.life.held
  committed : s.mem.waiter.low.coroutine ≠ none →
    w ∈ s.ghost.deletion.installing ∨ s.mem.tag.committed = true
  /-- Who answers for something is inside a call. -/
  inside : ∀ u, u ∈ s.ghost.deletion.installing ∨ u ∈ s.ghost.deletion.owing ∨
    u ∈ s.ghost.deletion.stored ∨ u ∈ s.ghost.deletion.cancelling ∨
    u ∈ s.ghost.activations.consumed → u ∈ s.ghost.deletion.busy
  pending : s.mem.tag.deleted = true → s.mem.waiter.low.coroutine ≠ none → Pending s
  /-- The waiter is in the word, or taken out, or called and not yet back, once. -/
  calls : s.mem.wakeups k + s.ghost.deletion.calling.length +
    (if s.mem.waiter.low.coroutine = none then 0 else 1) =
      if s.ghost.deletion.waiting then 1 else 0
  once : (taken s.ghost).Nodup
  installed : ∀ i ∈ taken s.ghost, i ≤ s.ghost.deletion.installs
  fresh : s.mem.waiter.low.coroutine ≠ none → s.ghost.deletion.installs ∉ taken s.ghost

/-- What thread `t` guarantees of its steps. -/
structure Guar (w t : τ) (s s' : State κ τ) : Prop where
  duty : ∀ u, u ≠ t → duty w s' u = duty w s u
  deleted : s.mem.tag.deleted = true → s'.mem.tag.deleted = true
  deleting : ∀ u, u ≠ t → s.ghost.schedules.deleting = some u →
    s'.ghost.schedules.deleting = some u ∧ s'.mem.tag.deleted = s.mem.tag.deleted
  called : s.ghost.schedules.deleteCalled = true → s'.ghost.schedules.deleteCalled = true ∧
    ∀ u, s'.ghost.schedules.deleting = some u → s.ghost.schedules.deleting = some u
  /-- The sentinel is never replaced. -/
  sentinel : s.mem.waiter.low = .deleted →
    s'.mem.waiter = s.mem.waiter ∧ s'.ghost.deletion.installs = s.ghost.deletion.installs
  zero : s.mem.tag.refs = 0 → s'.mem.tag.refs = 0

variable {w t : τ} {k : κ} {first : ℕ}

theorem Guar.refl (w t : τ) (s : State κ τ) : Guar w t s s where
  duty := fun _ _ => rfl
  deleted := id
  deleting := fun _ _ h => ⟨h, rfl⟩
  called := fun h => ⟨h, fun _ h => h⟩
  sentinel := fun _ => ⟨rfl, rfl⟩
  zero := id

/-- An outline for thread `t`. -/
def Spec {β : Type} (w : τ) (k : κ) (first : ℕ) (t : τ) (P : State κ τ → Prop)
    (p : Prog (State κ τ) β) (Q : β → State κ τ → Prop) : Prop :=
  Outline (poolTerms (Inv w k first) (Guar w) t) P p Q

/-! ### What a thread knows -/

section Stable

theorem stable_at {d : Duty} :
    Stable (poolTerms (Inv w k first) (Guar w) t) (At w t d) := by
  rintro s s' - - ⟨u, hu, hg⟩ hs
  exact (hg.duty t hu.symm).trans hs

theorem stable_sentinel :
    Stable (poolTerms (Inv w k first) (Guar w) t) fun s => s.mem.waiter.low = .deleted := by
  rintro s s' - - ⟨u, -, hg⟩ hs
  rw [(hg.sentinel hs).1]
  exact hs

theorem stable_zero :
    Stable (poolTerms (Inv w k first) (Guar w) t) fun s => s.mem.tag.refs = 0 := by
  rintro s s' - - ⟨u, -, hg⟩ hs
  exact hg.zero hs

end Stable

/-! ### Consequences -/

section Facts

variable {s : State κ τ}

/-- A waiter in the word waits, and has its reference. -/
theorem Inv.waiting (hi : Inv w k first s) (h : s.mem.waiter.low.coroutine ≠ none) :
    s.ghost.deletion.waiting = true := by
  have hcalls := hi.calls
  rw [if_neg h] at hcalls
  by_contra hnot
  rw [if_neg hnot] at hcalls
  omega

theorem Inv.refs_ne_zero (hi : Inv w k first s) (h : s.mem.waiter.low.coroutine ≠ none) :
    s.mem.tag.refs ≠ 0 := by
  have hmem := hi.holds (hi.waiting h)
  have hpos := length_pos_of_mem hmem
  have hrefs := hi.refs
  omega

end Facts

/-! ### The timer -/

section Timer

open Schedule

variable {s s' : State κ τ} {terminal : Bool}

theorem Inv.timing (hi : Inv w k first s) (h : Timing terminal s s') : Inv w k first s' := by
  obtain ⟨⟨hmem, hactivations, hdeletion, hlife⟩, -, hcalled, hsame⟩ := h
  obtain ⟨mem', ⟨schedules', activations', deletion', life'⟩⟩ := s'
  obtain ⟨mem, ⟨schedules, activations, deletion, life⟩⟩ := s
  simp only at hmem hactivations hdeletion hlife hcalled hsame
  subst hactivations hdeletion hlife
  rw [hmem]
  refine { hi with refs := ?_, deleted := ?_, deleting := ?_ }
  · simpa only [hcalled] using hi.refs
  · simpa only [hcalled] using hi.deleted
  · intro hne
    rcases hsame with hsame | ⟨-, hnone⟩
    · exact hcalled.trans (hi.deleting (hsame ▸ hne))
    · exact absurd hnone hne

theorem Guar.timing (h : Timing terminal s s')
    (hdeleting : terminal = true → ∀ u, u ≠ t → s.ghost.schedules.deleting ≠ some u) :
    Guar w t s s' := by
  obtain ⟨⟨hmem, hactivations, hdeletion, hlife⟩, -, hcalled, hsame⟩ := h
  have htag : s'.mem.tag = s.mem.tag := by rw [hmem]
  have hword : s'.mem.waiter = s.mem.waiter := by rw [hmem]
  refine ⟨fun u _ => ?_, ?_, fun u hu hd => ⟨?_, ?_⟩, fun hc => ⟨?_, fun u hd => ?_⟩,
    fun _ => ⟨hword, ?_⟩, ?_⟩
  · simp only [Cancellation.duty, hactivations, hdeletion, hlife, htag]
  · rw [htag]
    exact id
  · rcases hsame with hsame | ⟨hterminal, -⟩
    · exact hsame.trans hd
    · exact absurd hd (hdeleting hterminal u hu)
  · rw [htag]
  · exact hcalled.trans hc
  · rcases hsame with hsame | ⟨-, hnone⟩
    · exact hsame.symm.trans hd
    · exact absurd (hnone.symm.trans hd) nofun
  · rw [hdeletion]
  · rw [htag]
    exact id

/-- The functions of the timer are steps that nothing here depends on. -/
theorem spec_timing {β : Type} {p : Prog (State κ τ) β} {P : State κ τ → Prop}
    (h : Within (Timing false) p) (hP : Stable (poolTerms (Inv w k first) (Guar w) t) P)
    (hkeep : ∀ s s', Timing false s s' → P s → P s') : Spec w k first t P p fun _ => P :=
  h.outline hP fun s s' hs hi hp => ⟨hi.timing hs, .timing hs nofun, hkeep s s' hs hp⟩

theorem At.timing {d : Duty} (h : At w t d s) (hs : Timing terminal s s') : At w t d s' := by
  have htag : s'.mem.tag = s.mem.tag := by rw [hs.mem]
  rw [← h]
  simp only [At, duty, hs.activations, hs.deletion, hs.life, htag]

end Timer

/-! ### References -/

section References

variable {d : Duty} {s : State κ τ}

/-- Nobody can drop the last reference while a waiter is in the word. -/
theorem Inv.none_of_zero (hi : Inv w k first s) (h : s.mem.tag.refs = 0) :
    s.mem.waiter.low.coroutine = none := by
  by_contra hne
  exact hi.refs_ne_zero hne h

theorem spec_eventDecrementReference (hheld : d.held ≠ 0) (hwaiting : d.waiting = false) :
    Spec w k first t (At w t d) (eventDecrementReference t 1) fun _ =>
      At w t { d with held := d.held - 1 } := by
  refine .bind (M := fun old s => At w t { d with held := d.held - 1 } s ∧
    (old.refs = 1 → s.mem.tag.refs = 0)) (outline_instr stable_at
    (fun old => stable_at.and (.imp fun _ => stable_zero)) fun s hi hs => ?_) fun old => ?_
  · obtain rfl : duty w s t = d := hs
    have hmem : t ∈ s.ghost.life.held := count_pos_iff.mp (Nat.pos_of_ne_zero hheld)
    have hlength := length_erase_of_mem hmem
    have hpos := length_pos_of_mem hmem
    have hrefs := hi.refs
    refine ⟨{ hi with refs := ?_, incarnation := ?_, holds := ?_ }, { Guar.refl w t s with
      duty := fun u hu => ?_, zero := ?_ }, ?_, ?_⟩
    · show s.mem.tag.refs - 1 =
        (s.ghost.life.held.erase t).length + if s.ghost.schedules.deleteCalled then 0 else 1
      rw [hlength]
      omega
    · intro hne
      exact hi.incarnation fun hzero => hne (by simp [hzero])
    · intro hw
      replace hw : s.ghost.deletion.waiting = true := hw
      rcases eq_or_ne t w with rfl | htw
      · simp [duty, hw] at hwaiting
      · exact (mem_erase_of_ne htw.symm).mpr (hi.holds hw)
    · simp [duty, Ghost.onLife, count_erase_of_ne hu]
    · intro hzero
      simp [hzero]
    · simp [At, duty, Ghost.onLife, count_erase_self]
    · intro hone
      show s.mem.tag.refs - 1 = 0
      rw [show s.mem.tag.refs = 1 from hone]
  · have hdone {d : Duty} : Stable (poolTerms (Inv w k first) (Guar w) t) fun s : State κ τ =>
        At w t d s ∧ s.mem.tag.refs = 0 := stable_at.and stable_zero
    split
    · next hone =>
      refine .conseq (R := fun s => At w t { d with held := d.held - 1 } s ∧ s.mem.tag.refs = 0)
        (stable_at.and (.imp fun _ => stable_zero)) (fun s _ hs => ⟨hs.1, hs.2 hone⟩) ?_
        fun _ _ _ hs => hs
      refine .bind (outline_instr hdone (fun _ => hdone) fun s hi hs => ⟨{ hi with },
        { Guar.refl w t s with }, hs⟩) fun _ => .bind (outline_look hdone (fun _ => hdone)
        (Guar.refl w t) fun s hi hs => hs) fun generation => .bind (outline_instr hdone
        (fun _ => hdone) fun s hi hs => ⟨{ hi with incarnation := fun hne => absurd hs.2 hne },
        { Guar.refl w t s with }, hs⟩) fun _ => outline_instr hdone (fun _ => stable_at)
        fun s hi hs => ⟨{ hi with pending := fun _ hne => absurd (hi.none_of_zero hs.2) hne },
        { Guar.refl w t s with }, hs.1⟩
    · exact .ret (stable_at.and (.imp fun _ => stable_zero)) fun s _ hs => hs.1

theorem spec_obtainReference :
    Spec w k first t (At w t d) (obtainReference t) fun _ =>
      At w t { d with held := d.held + 1 } := by
  refine .act stable_at (fun _ => stable_at) fun s x s' heq hi hs => ?_
  obtain rfl : duty w s t = d := hs
  split at heq
  · cases heq
  · next hne =>
    cases heq
    have hrefs := hi.refs
    refine ⟨{ hi with
        refs := ?_
        incarnation := fun _ => hi.incarnation hne
        holds := fun hw => .tail _ (hi.holds hw) }, { Guar.refl w t s with
        duty := fun u hu => by simp [duty, Ghost.onLife, hu.symm]
        zero := fun hzero => absurd hzero hne },
      by simp [At, duty, Ghost.onLife]⟩
    show s.mem.tag.refs + 1 =
      s.ghost.life.held.length + 1 + if s.ghost.schedules.deleteCalled then 0 else 1
    omega

/-- `t` deletes the event and has not set the bit. -/
structure Deleting (t : τ) (s : State κ τ) : Prop where
  deleting : s.ghost.schedules.deleting = some t
  deleted : s.mem.tag.deleted = false
  called : s.ghost.schedules.deleteCalled = true

theorem stable_deleting :
    Stable (poolTerms (Inv w k first) (Guar w) t) (Deleting (κ := κ) t) := by
  rintro s s' - - ⟨u, hu, hg⟩ hs
  obtain ⟨hdeleting, hdeleted⟩ := hg.deleting t hu.symm hs.deleting
  exact ⟨hdeleting, hdeleted.trans hs.deleted, (hg.called hs.called).1⟩

theorem spec_beginDelete :
    Spec w k first t (At w t d) (beginDelete t) fun _ s =>
      At w t { d with held := d.held + 1 } s ∧ Deleting t s := by
  refine .act stable_at (fun _ => stable_at.and stable_deleting) fun s x s' heq hi hs => ?_
  obtain rfl : duty w s t = d := hs
  split at heq
  · cases heq
  · next hcalled =>
    cases heq
    have hrefs := hi.refs
    rw [if_neg hcalled] at hrefs
    refine ⟨{ hi with
        refs := by simp [hrefs]
        deleted := fun _ => rfl
        deleting := fun _ => rfl
        holds := fun hw => .tail _ (hi.holds hw) }, { Guar.refl w t s with
        duty := fun u hu => by simp [duty, hu.symm]
        deleting := fun u hu hd => absurd (hi.deleting (by simp [hd])) hcalled
        called := fun hc => absurd hc hcalled },
      by simp [At, duty], rfl, ?_, rfl⟩
    by_contra hd
    exact hcalled (hi.deleted (by simpa using hd))

/-- Who is refused a claim that allows a deleted event's waiter gives up nothing that anybody waits
for: a waiter in the word is not committed then, so that who commits it will see the deletion. -/
theorem Inv.giveUp (hi : Inv w k first s)
    (h : s.ghost.activations.consumed.count t = 0 ∨ s.mem.tag.admits true = false ∨
      s.mem.incarnation ≠ first) :
    Inv w k first ⟨s.mem, giveUp t false s.ghost⟩ := by
  refine { hi with inside := ?_, pending := ?_ }
  · rintro u (h | h | h | h | h)
    · exact hi.inside u (.inl h)
    · exact hi.inside u (.inr (.inl h))
    · exact hi.inside u (.inr (.inr (.inl h)))
    · exact hi.inside u (.inr (.inr (.inr (.inl h))))
    · exact hi.inside u (.inr (.inr (.inr (.inr (mem_of_mem_erase h)))))
  · intro hdeleted hne
    replace hdeleted : s.mem.tag.deleted = true := hdeleted
    rcases h with hcount | hrefused | hother
    · have hsame : s.ghost.activations.consumed.erase t = s.ghost.activations.consumed :=
        erase_of_not_mem (count_eq_zero.mp hcount)
      simpa [Pending, UserEvent.giveUp, Ghost.onActivations, hsame] using hi.pending hdeleted hne
    · rcases hi.committed hne with hw | hcommitted
      · exact .inl (ne_nil_of_mem hw)
      · simp [Tag.admits, hi.refs_ne_zero hne, hdeleted, hcommitted] at hrefused
    · exact absurd (hi.incarnation (hi.refs_ne_zero hne)) hother

theorem Guar.giveUp {admitted : Bool} :
    Guar w t s ⟨s.mem, giveUp t admitted s.ghost⟩ := by
  cases admitted with
  | true => exact .refl w t s
  | false =>
    exact { Guar.refl w t s with
      duty := fun u hu => by
        simp [Cancellation.duty, UserEvent.giveUp, Ghost.onActivations, count_erase_of_ne hu] }

/-- The duties after a look at the tag. -/
def Duty.giveUp (admitted : Bool) (d : Duty) : Duty :=
  if admitted then d else { d with consumed := d.consumed - 1 }

theorem At.giveUp (h : At w t d s) {admitted : Bool} :
    At w t (d.giveUp admitted) ⟨s.mem, giveUp t admitted s.ghost⟩ := by
  obtain rfl : duty w s t = d := h
  cases admitted with
  | true => rfl
  | false => simp [At, duty, Duty.giveUp, UserEvent.giveUp, Ghost.onActivations]

/-- A claim: with `allowDeletedWaiter`, of the delivery of a doorbell of this incarnation. -/
theorem spec_eventTryClaimReference {generation : ℕ} {allow : Bool}
    (h : d.consumed = 0 ∨ allow = true ∧ generation = first) :
    Spec w k first t (At w t d) (eventTryClaimReference t generation allow) fun claimed =>
      At w t (if claimed then { d with held := d.held + 1 }
        else { d with consumed := d.consumed - 1 }) := by
  have hgive {s : State κ τ} (hi : Inv w k first s) (hs : At w t d s) {admitted : Bool}
      (hadmitted : admitted = false → s.mem.tag.admits allow = false ∨
        s.mem.incarnation ≠ generation) :
      Inv w k first ⟨s.mem, giveUp t admitted s.ghost⟩ := by
    cases admitted with
    | true => exact hi
    | false =>
      refine hi.giveUp ?_
      rcases h with hzero | ⟨rfl, rfl⟩
      · exact .inl (by rw [← hzero, ← show duty w s t = d from hs]; rfl)
      · exact .inr (hadmitted rfl)
  refine .bind (M := fun low => At w t (d.giveUp (low.admits allow)))
    (outline_read stable_at (fun _ => stable_at) fun s hi hs => ⟨hgive hi hs fun h => .inl h, .giveUp,
      hs.giveUp⟩) fun low => ?_
  refine .pre (.loop (fun x : Tag × ℕ => At w t
    (d.giveUp (decide (x.2 = generation) && x.1.admits allow))) (low, generation) ?_
    fun _ => stable_at) stable_at fun s _ hs => by simpa using hs
  rintro ⟨low, high⟩
  dsimp only
  split
  · next hout =>
    refine .ret stable_at fun s _ hs => ?_
    have hfalse : (decide (high = generation) && low.admits allow) = false := by
      rw [Bool.and_eq_false_iff]
      simpa using hout
    rw [hfalse] at hs
    exact hs
  · next hin =>
    obtain ⟨rfl, hadmits⟩ : high = generation ∧ low.admits allow = true := by simpa using hin
    rw [decide_eq_true rfl, hadmits]
    refine .bind (M := fun seen : Option (Tag × ℕ) => At w t (seen.elim { d with held := d.held + 1 }
        fun x => d.giveUp (decide (x.2 = high) && x.1.admits allow)))
      (.act stable_at (fun _ => stable_at) fun s x s' heq hi hs => ?_) ?_
    · replace hs : At w t d s := hs
      split at heq
      · next hsame =>
        cases heq
        have hne : s.mem.tag.refs ≠ 0 := by
          have := hadmits
          simp only [Tag.admits, Bool.and_eq_true, decide_eq_true_eq] at this
          rw [hsame.1]
          exact this.1
        obtain ⟨rfl, rfl⟩ := hsame
        have hrefs := hi.refs
        obtain rfl : duty w s t = d := hs
        refine ⟨{ hi with
            refs := ?_
            incarnation := fun _ => hi.incarnation hne
            holds := fun hw => .tail _ (hi.holds hw) }, { Guar.refl w t s with
            duty := fun u hu => by simp [duty, Ghost.onLife, hu.symm]
            zero := fun hzero => absurd hzero hne },
          by simp [At, duty, Ghost.onLife]⟩
        show s.mem.tag.refs + 1 =
          s.ghost.life.held.length + 1 + if s.ghost.schedules.deleteCalled then 0 else 1
        omega
      · cases heq
        refine ⟨hgive hi hs fun hfalse => ?_, .giveUp, hs.giveUp⟩
        rw [Bool.and_eq_false_iff] at hfalse
        exact hfalse.symm.imp id fun h => by simpa using h
    · rintro (_ | x)
      · exact .ret stable_at fun s _ hs => hs
      · exact .ret stable_at fun s _ hs => hs

end References

/-! ### Taking the waiter out of the word -/

section Take

variable {d : Duty} {s : State κ τ} {l : List (τ × ℕ)}

theorem count_map_fst_filter_ne {u : τ} (hu : u ≠ t) :
    ((l.filter (·.1 ≠ t)).map Prod.fst).count u = (l.map Prod.fst).count u := by
  have hfilter : (l.filter (·.1 ≠ t)).map Prod.fst = (l.map Prod.fst).filter (· ≠ t) := by
    rw [filter_map]
    rfl
  rw [hfilter, count_filter (by simpa using hu)]

theorem count_map_fst_filter_self :
    ((l.filter (·.1 ≠ t)).map Prod.fst).count t = 0 := by
  rw [count_eq_zero]
  simp

theorem length_filter_ne :
    (l.filter (·.1 ≠ t)).length + (l.map Prod.fst).count t = l.length := by
  induction l with
  | nil => rfl
  | cons x l ih =>
    by_cases hx : x.1 = t
    · simp [hx] at ih ⊢
      omega
    · simp [hx] at ih ⊢
      omega

/-- Calling what `t` took out moves it from one list to the other. -/
theorem taken_perm {called : List ℕ} :
    ((l.filter (·.1 ≠ t)).map Prod.snd ++ ((l.filter (·.1 = t)).map Prod.snd ++ called)).Perm
      (l.map Prod.snd ++ called) := by
  rw [← append_assoc, ← map_append]
  refine List.Perm.append_right _ (List.Perm.map _ ?_)
  have hperm := filter_append_perm (fun x : τ × ℕ => decide (x.1 ≠ t)) l
  simpa using hperm

variable [DecidableEq κ]

theorem spec_coroutineCall (hcalling : d.calling = 1) :
    Spec w k first t (At w t d) (coroutineCall t k) fun _ => At w t { d with calling := 0 } := by
  refine outline_instr stable_at (fun _ => stable_at) fun s hi hs => ?_
  obtain rfl : duty w s t = d := hs
  have hlength := length_filter_ne (t := t) (l := s.ghost.deletion.calling)
  have hone : (s.ghost.deletion.calling.map Prod.fst).count t = 1 := hcalling
  have hcalls := hi.calls
  have hperm := @taken_perm _ _ t s.ghost.deletion.calling s.ghost.deletion.called
  refine ⟨{ hi with
      calls := ?_
      once := hperm.nodup_iff.mpr hi.once
      installed := fun i hm => hi.installed i (hperm.mem_iff.mp hm)
      fresh := fun hne hm => hi.fresh hne (hperm.mem_iff.mp hm) }, { Guar.refl w t s with
      duty := fun u hu => ?_ }, ?_⟩
  · show Function.update s.mem.wakeups k (s.mem.wakeups k + 1) k +
      (s.ghost.deletion.calling.filter (·.1 ≠ t)).length +
      (if s.mem.waiter.low.coroutine = none then 0 else 1) =
        if s.ghost.deletion.waiting then 1 else 0
    rw [Function.update_self]
    omega
  · simp only [duty, Ghost.onDeletion, count_map_fst_filter_ne hu]
  · simp only [At, duty, Ghost.onDeletion, count_map_fst_filter_self]

/-- The duties of who took out what was in the word. -/
def Duty.take (low : Waiter κ) (d : Duty) : Duty :=
  if low.coroutine = none then d else { d with calling := d.calling + 1 }

theorem spec_callTaken {low : Waiter κ} (hlow : ∀ j, low.coroutine = some j → j = k)
    (hcalling : d.calling = 0) :
    Spec w k first t (At w t (d.take low)) (callTaken t low) fun _ => At w t d := by
  unfold callTaken Duty.take
  cases hcoroutine : low.coroutine with
  | none => exact .ret stable_at fun s _ hs => hs
  | some j =>
    obtain rfl := hlow j hcoroutine
    refine (spec_coroutineCall ?_).post fun _ s _ hs => ?_
    · simp [hcalling]
    · rw [← hcalling] at hs
      exact hs

variable {word : WaiterWord κ} {activations : Activations τ}

/-- `t` takes out what is in the word, and leaves no waiter there. -/
theorem Inv.take (hi : Inv w k first s) (hword : word.low.coroutine = none)
    (hconsumed : activations.consumed = s.ghost.activations.consumed) :
    Inv w k first ⟨{ s.mem with waiter := word }, { s.ghost with
      activations := activations, deletion := s.ghost.deletion.take t s.mem.waiter.low }⟩ := by
  refine { hi with
    only := fun j hj => absurd (hword.symm.trans hj) nofun
    committed := fun hne => absurd hword hne
    inside := fun u hu => hi.inside u (hconsumed ▸ hu)
    pending := fun _ hne => absurd hword hne
    calls := ?_
    once := ?_
    installed := ?_
    fresh := fun hne => absurd hword hne }
  · have hcalls := hi.calls
    show s.mem.wakeups k + (s.ghost.deletion.take t s.mem.waiter.low).calling.length +
      (if word.low.coroutine = none then 0 else 1) = if s.ghost.deletion.waiting then 1 else 0
    rw [if_pos hword, ← hcalls]
    cases hcoroutine : s.mem.waiter.low.coroutine with
    | none => simp [Deletion.take, hcoroutine]
    | some j => simp [Deletion.take, hcoroutine, Nat.add_assoc]
  · cases hcoroutine : s.mem.waiter.low.coroutine with
    | none => simpa [taken, Deletion.take, hcoroutine] using hi.once
    | some j =>
      have hfresh := hi.fresh (by simp [hcoroutine])
      simpa [taken, Deletion.take, hcoroutine] using nodup_cons.mpr ⟨hfresh, hi.once⟩
  · cases hcoroutine : s.mem.waiter.low.coroutine with
    | none => simpa [taken, Deletion.take, hcoroutine] using hi.installed
    | some j => simpa [taken, Deletion.take, hcoroutine] using hi.installed

theorem Guar.take (hword : s.mem.waiter.low ≠ .deleted)
    (hconsumed : activations.consumed = s.ghost.activations.consumed) :
    Guar w t s ⟨{ s.mem with waiter := word }, { s.ghost with
      activations := activations, deletion := s.ghost.deletion.take t s.mem.waiter.low }⟩ :=
  { Guar.refl w t s with
    duty := fun u hu => by
      simp only [Cancellation.duty, Deletion.take, hconsumed]
      split <;> simp [hu.symm]
    sentinel := fun h => absurd h hword }

theorem At.take (h : At w t d s) (hconsumed : activations.consumed = s.ghost.activations.consumed):
    At w t (d.take s.mem.waiter.low) ⟨{ s.mem with waiter := word }, { s.ghost with
      activations := activations, deletion := s.ghost.deletion.take t s.mem.waiter.low }⟩ := by
  obtain rfl : duty w s t = d := h
  cases hcoroutine : s.mem.waiter.low.coroutine with
  | none => simp [At, duty, Deletion.take, Duty.take, hconsumed, hcoroutine]
  | some j => simp [At, duty, Deletion.take, Duty.take, hconsumed, hcoroutine]

end Take

end Cancellation

end UserEvent

end Asyncio
