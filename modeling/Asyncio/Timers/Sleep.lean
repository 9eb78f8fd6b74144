import Asyncio.Timers.Sweep
import Asyncio.Wheel.Nearest

/-!
# Going to sleep

A loop publishes that it sleeps for ever, then looks at the bitmap for what is parked, and publishes
when it has to wake. A link whose bit is set after the first publication finds the loop asleep, and
is its publisher's business. One whose bit was set before is the loop's: if no visitor has the bit
cleared while the loop reads it, the loop sees it.

Whether some visitor had a bit cleared, the loop finds out afterwards. The counters of the brackets
only grow, so two snapshots of their sum that agree, with no bracket open, say that no bracket was
open in between (`Calm`).

## Main results

* `Timers.outline_timerPreclearSnapshot` — what two equal snapshots say
* `Timers.outline_timerWheelNearestWake` — no known link is due before the answer
* `Timers.outline_timerLoopPrepareSleep`
-/

namespace Asyncio

namespace Timers

open Concurrent Wheel

variable {ℓ τ : Type} {n : ℕ} {role : τ → Option (Fin n)} {c₀ : ℕ} {t : τ} {j : Fin n}

/-! ### Snapshots -/

/-- The sum of the sequences of the loops in `is`, except the own one. -/
def sequences (own : Fin n) (sequence : Fin n → ℕ) : List (Fin n) → ℕ
  | [] => 0
  | i :: is => (if i = own then 0 else sequence i) + sequences own sequence is

/-- The version that an instantaneous snapshot would have. -/
def version (own : Fin n) (m : Mem ℓ n) : ℕ :=
  sequences own m.preclearSequence (List.finRange n) + m.overflowEpoch

theorem sequences_append (own : Fin n) (sequence : Fin n → ℕ) (is is' : List (Fin n)) :
    sequences own sequence (is ++ is') = sequences own sequence is + sequences own sequence is' := by
  induction is with
  | nil => simp [sequences]
  | cons i is ih => simp [sequences, ih, Nat.add_assoc]

theorem sequences_mono (own : Fin n) {sequence sequence' : Fin n → ℕ}
    (h : ∀ i, sequence i ≤ sequence' i) (is : List (Fin n)) :
    sequences own sequence is ≤ sequences own sequence' is := by
  induction is with
  | nil => exact le_rfl
  | cons i is ih =>
    refine Nat.add_le_add ?_ ih
    split
    · exact le_rfl
    · exact h i

variable {own : Fin n}

/-- Where the sum has not grown, no sequence has. -/
theorem eq_of_sequences_le {sequence sequence' : Fin n → ℕ}
    (h : ∀ i, sequence i ≤ sequence' i) {is : List (Fin n)}
    (hle : sequences own sequence' is ≤ sequences own sequence is) {i : Fin n} (hi : i ∈ is)
    (hne : i ≠ own) : sequence' i = sequence i := by
  induction is with
  | nil => simp at hi
  | cons k is ih =>
    have hrest := sequences_mono own h is
    have hk := h k
    simp only [sequences] at hle
    rcases List.mem_cons.mp hi with rfl | hi
    · simp only [if_neg hne] at hle
      omega
    · refine ih ?_ hi
      split at hle <;> omega

/-- The reads so far add up to `acc`, and no bracket was open at any of them. -/
def Even (own : Fin n) (done : List (Fin n)) (acc : ℕ) (s : State ℓ τ n) : Prop :=
  acc ≤ sequences own s.mem.preclearSequence done ∧
    (sequences own s.mem.preclearSequence done ≤ acc →
      ∀ i ∈ done, i ≠ own → s.mem.preclearSequence i % 2 = 0)

theorem stable_even (own : Fin n) (done : List (Fin n)) (acc : ℕ) :
    Stable (terms role c₀ t) (Even own done acc : State ℓ τ n → Prop) := by
  refine stable_of_guar fun s s' u _ _ _ hg hs => ?_
  have hmono := sequences_mono own hg.sequence done
  refine ⟨hs.1.trans hmono, fun hle i hi hne => ?_⟩
  rw [eq_of_sequences_le hg.sequence (hle.trans hs.1) hi hne]
  exact hs.2 (hmono.trans hle) i hi hne

/-- If the version is still `v`, no other thread has a bracket open. -/
def Calm (own : Fin n) (v : ℕ) (s : State ℓ τ n) : Prop :=
  v ≤ version own s.mem ∧
    (version own s.mem ≤ v →
      (∀ i, i ≠ own → s.mem.preclearSequence i % 2 = 0) ∧ s.mem.overflowActive = 0)

theorem Guar.version_le {u : τ} {s s' : State ℓ τ n} (hg : Guar role u s s') (own : Fin n) :
    version own s.mem ≤ version own s'.mem :=
  Nat.add_le_add (sequences_mono own hg.sequence _) hg.epoch

theorem stable_calm (own : Fin n) (v : ℕ) :
    Stable (terms role c₀ t) (Calm own v : State ℓ τ n → Prop) := by
  refine stable_of_guar fun s s' u _ _ _ hg hs => ?_
  refine ⟨hs.1.trans (hg.version_le own), fun hle => ?_⟩
  obtain ⟨heven, hactive⟩ := hs.2 ((hg.version_le own).trans hle)
  have hmono := sequences_mono own hg.sequence (List.finRange n)
  have hepoch := hg.epoch
  have hlow := hs.1
  unfold version at hle hlow
  refine ⟨fun i hne => ?_, ?_⟩
  · rw [eq_of_sequences_le hg.sequence (by omega) (List.mem_finRange i) hne]
    exact heven i hne
  · have := hg.active (by omega)
    omega

/-- The answer of a snapshot that started with `F`, or with a version above `low`. -/
def Shot (own : Fin n) (F : State ℓ τ n → Prop) (low : ℕ) (r : Option ℕ) (s : State ℓ τ n) : Prop :=
  ∀ v, r = some v → Calm own v s ∧ (F s ∨ low < v)

theorem stable_shot {F : State ℓ τ n → Prop} (hF : Stable (terms role c₀ t) F)
    (low : ℕ) (r : Option ℕ) : Stable (terms role c₀ t) (Shot own F low r) := by
  intro s s' hi hi' hrely hs v hv
  obtain ⟨hcalm, hor⟩ := hs v hv
  exact ⟨stable_calm own v s s' hi hi' hrely hcalm, hor.imp_left (hF s s' hi hi' hrely)⟩

/-- In the middle of a snapshot: `done` was read, `is` was not. -/
def Shooting (own : Fin n) (F : State ℓ τ n → Prop) (low : ℕ) (done is : List (Fin n)) (acc : ℕ)
    (s : State ℓ τ n) : Prop :=
  Even own done acc s ∧
    (F s ∨ low < acc + sequences own s.mem.preclearSequence is + s.mem.overflowEpoch)

theorem stable_shooting {F : State ℓ τ n → Prop} (hF : Stable (terms role c₀ t) F)
    (low : ℕ) (done is : List (Fin n)) (acc : ℕ) :
    Stable (terms role c₀ t) (Shooting own F low done is acc) := by
  refine (stable_even own done acc).and (hF.or ?_)
  refine stable_of_guar fun s s' u _ _ _ hg hs => ?_
  have := sequences_mono own hg.sequence is
  have := hg.epoch
  omega

theorem outline_snapshotFrom {P F : State ℓ τ n → Prop}
    (hP : Stable (terms role c₀ t) P) (hF : Stable (terms role c₀ t) F) (low : ℕ)
    (done is : List (Fin n)) (hsplit : List.finRange n = done ++ is) (acc : ℕ) :
    Outline (terms role c₀ t) (fun s => P s ∧ Shooting own F low done is acc s)
      (snapshotFrom own is acc) fun r s => P s ∧ Shot own F low r s := by
  have hpre : ∀ done is acc, Stable (terms role c₀ t) fun s => P s ∧ Shooting own F low done is acc s :=
    fun done is acc => hP.and (stable_shooting hF low done is acc)
  have hpost : ∀ r, Stable (terms role c₀ t) fun s => P s ∧ Shot own F low r s :=
    fun r => hP.and (stable_shot hF low r)
  induction is generalizing done acc with
  | nil =>
    refine .bind (M := fun x s => P s ∧
        Shot own F low (if x.2 = 0 then some (acc + x.1) else none) s)
      (outline_load (hpre _ _ _) (fun _ => hpost _) fun s _ hs => ⟨hs.1, fun v hv => ?_⟩) ?_
    · obtain ⟨-, ⟨hle, heven⟩, hor⟩ := hs
      rw [List.append_nil] at hsplit
      split at hv
      · next hactive =>
        obtain rfl := Option.some.inj hv
        refine ⟨⟨?_, fun hge => ⟨fun i hne => ?_, hactive⟩⟩, hor.imp_right fun hlow => by
          simpa [sequences] using hlow⟩
        · unfold version
          rw [hsplit]
          omega
        · unfold version at hge
          rw [hsplit] at hge
          exact heven (by omega) i (hsplit ▸ List.mem_finRange i) hne
      · simp at hv
    · rintro ⟨epoch, active⟩
      exact outline_ret (hpost _) fun s _ hs => hs
  | cons i is ih =>
    have hsplit' : List.finRange n = (done ++ [i]) ++ is := by simp [hsplit]
    by_cases hown : i = own
    · simp only [snapshotFrom, if_pos hown]
      refine (ih (done ++ [i]) hsplit' acc).pre (hpre _ _ _) fun s _ hs => ⟨hs.1, ?_, ?_⟩
      · have heven := hs.2.1
        refine ⟨by simp [sequences_append, sequences, hown, heven.1], fun hle k hk hne => ?_⟩
        refine heven.2 (by simpa [sequences_append, sequences, hown] using hle) k ?_ hne
        simpa [hown, hne] using hk
      · simpa [sequences, hown] using hs.2.2
    · simp only [snapshotFrom, if_neg hown]
      have hmid : ∀ x, Stable (terms role c₀ t) fun s => P s ∧
          (x % 2 = 0 → Shooting own F low (done ++ [i]) is (acc + x) s) :=
        fun x => hP.and fun s s' hi hi' hrely hs hx =>
          stable_shooting hF low _ _ _ s s' hi hi' hrely (hs hx)
      refine .bind (outline_load (hpre _ _ _) hmid fun s _ hs => ⟨hs.1, fun hx => ⟨?_, ?_⟩⟩)
        fun x => ?_
      · have heven := hs.2.1
        simp only [Even, sequences_append, sequences, if_neg hown]
        refine ⟨by have := heven.1; omega, fun hle k hk hne => ?_⟩
        rcases List.mem_append.mp hk with hk | hk
        · exact heven.2 (by omega) k hk hne
        · rw [List.mem_singleton.mp hk]
          exact hx
      · refine hs.2.2.imp_right fun hlow => ?_
        simp only [sequences, if_neg hown] at hlow
        omega
      · by_cases hx : x % 2 = 1
        · simp only [if_pos hx]
          exact outline_ret (hmid x) fun s _ hs => ⟨hs.1, fun v hv => by simp at hv⟩
        · simp only [if_neg hx]
          exact (ih (done ++ [i]) hsplit' (acc + x)).pre (hmid x) fun s _ hs =>
            ⟨hs.1, hs.2 (by omega)⟩

/-- A snapshot with no bracket open has a version at which all is calm. If it started above `low`, or
with `F`, then its version is above `low`, or `F` holds. -/
theorem outline_timerPreclearSnapshot {P F : State ℓ τ n → Prop}
    (hP : Stable (terms role c₀ t) P) (hF : Stable (terms role c₀ t) F) (low : ℕ)
    (hor : ∀ s, P s → F s ∨ low < version own s.mem) :
    Outline (terms role c₀ t) P (timerPreclearSnapshot own)
      fun r s => P s ∧ Shot own F low r s :=
  (outline_snapshotFrom hP hF low [] (List.finRange n) rfl 0).pre hP fun s _ hs =>
    ⟨hs, ⟨Nat.zero_le _, fun _ i hi => by simp at hi⟩, by
      simpa [version] using hor s hs⟩

/-! ### What a loop knows -/

/-- Thread `t`, of loop `j`, has published that it sleeps, and looks at the grid from `start` on. -/
structure Dozing (t : τ) (j : Fin n) (start : ℕ) (s : State ℓ τ n) : Prop where
  idle : Idle t [] false s
  eternal : s.mem.wakeTick j = timerSleepEternal
  registered : s.ghost.registered j = true
  reached : Reached start s

theorem stable_dozing (hrole : Distinct role) (hj : role t = some j) (start : ℕ) :
    Stable (terms role c₀ t) (Dozing t j start : State ℓ τ n → Prop) := by
  refine stable_of_guar fun s s' u hu hi hi' hg hs => ?_
  have hloop := hg.loop j fun huj => hu (hrole u t j huj hj)
  exact
    { idle := stable_idle s s' hi hi' ⟨u, hu, hg⟩ hs.idle
      eternal := hloop.1.trans hs.eternal
      registered := hloop.2.2.trans hs.registered
      reached := Nat.le_trans hs.reached hg.cursor }

/-- The link's bit was set before loop `j` published that it sleeps, or that it is awake. -/
structure Known (j : Fin n) (s : State ℓ τ n) (link : ℓ) (level index : ℕ) : Prop where
  place : s.ghost.place link = .slot level index
  stage : s.ghost.stage link ≠ .pushed
  late : s.ghost.late j link = false

/-- What holds of the links that loop `j` knows of: their deadlines and slots. -/
def OfKnown (j : Fin n) (R : ℕ → ℕ → ℕ → Prop) (s : State ℓ τ n) : Prop :=
  ∀ link level index, Known j s link level index → R (s.mem.deadlineTick link) level index

variable {R : ℕ → ℕ → ℕ → Prop}

/-- Nothing new becomes known to a loop that has published that it sleeps. -/
theorem Guar.ofKnown {u : τ} {s s' : State ℓ τ n} (hg : Guar role u s s')
    (hu : role u ≠ some j) (heternal : s.mem.wakeTick j = timerSleepEternal) (hs : OfKnown j R s) :
    OfKnown j R s' := by
  intro link level index hknown
  have hwake : s'.mem.wakeTick j ≠ awake := by
    rw [(hg.loop j hu).1, heternal]
    decide
  rcases hg.announced link level index hknown.place hknown.stage with
    ⟨hplace, hstage, hdeadline, hlate⟩ | hall
  · rw [hdeadline]
    exact hs link level index ⟨hplace, hstage, (hlate j hu).symm.trans hknown.late⟩
  · exact absurd (hknown.late.symm.trans (hall j hwake)) (by simp)

/-- `R` holds of all that the loop knows of, or did until the version passed `v`. -/
structure Surveyed (t : τ) (j : Fin n) (start v : ℕ) (R : ℕ → ℕ → ℕ → Prop) (s : State ℓ τ n) :
    Prop where
  dozing : Dozing t j start s
  calm : Calm j v s
  known : version j s.mem ≤ v → OfKnown j R s

variable {start v : ℕ}

theorem stable_surveyed (hrole : Distinct role) (hj : role t = some j)
    :
    Stable (terms role c₀ t) (Surveyed t j start v R : State ℓ τ n → Prop) := by
  refine stable_of_guar fun s s' u hu hi hi' hg hs => ?_
  have huj : role u ≠ some j := fun huj => hu (hrole u t j huj hj)
  exact
    { dozing := stable_dozing hrole hj start s s' hi hi' ⟨u, hu, hg⟩ hs.dozing
      calm := stable_calm j v s s' hi hi' ⟨u, hu, hg⟩ hs.calm
      known := fun hle => hg.ofKnown huj hs.dozing.eternal
        (hs.known ((hg.version_le j).trans hle)) }

variable {s : State ℓ τ n}

theorem Surveyed.mono {R R' : ℕ → ℕ → ℕ → Prop} (h : Surveyed t j start v R s)
    (hR : OfKnown j R s → version j s.mem ≤ v → OfKnown j R' s) : Surveyed t j start v R' s :=
  { h with known := fun hle => hR (h.known hle) hle }

/-- While all is calm no visitor has a bit cleared. -/
theorem Inv.not_clearing (hi : Inv role c₀ s) (hrole : Distinct role)
    (hj : role t = some j) (hdozing : Dozing t j start s) (hcalm : Calm j v s)
    (hle : version j s.mem ≤ v) (u : τ) : s.ghost.clearing u = none := by
  by_contra hclearing
  have hbracket := hi.clearingOpen u hclearing
  obtain ⟨heven, hactive⟩ := hcalm.2 hle
  rcases hu : role u with _ | i
  · have hmem := (hi.overflow u).mpr ⟨hu, hbracket⟩
    rw [hi.active] at hactive
    rw [List.length_eq_zero_iff.mp hactive] at hmem
    simp at hmem
  · have hparity := hi.parity u i hu
    rw [if_pos hbracket] at hparity
    by_cases hij : i = j
    · subst hij
      obtain rfl := hrole u t i hu hj
      rw [hdozing.idle.bracket] at hbracket
      simp at hbracket
    · rw [heven i hij] at hparity
      simp at hparity

variable {link : ℓ}

/-- While all is calm, the bit of a known link is set. -/
theorem Inv.occupied (hi : Inv role c₀ s) (hrole : Distinct role)
    (hj : role t = some j) (hdozing : Dozing t j start s) (hcalm : Calm j v s)
    (hle : version j s.mem ≤ v) {level index : ℕ} (h : Known j s link level index) :
    s.mem.occupancy level index = true := by
  rcases hi.bits link level index h.place h.stage with hbit | ⟨u, hu⟩
  · exact hbit
  · simp [hi.not_clearing hrole hj hdozing hcalm hle u] at hu

/-- A parked link is not due before the next start of its window. -/
theorem Inv.nextStart_le (hi : Inv role c₀ s) {start : ℕ} (hr : Reached start s)
    {level index : ℕ} (hp : s.ghost.place link = .slot level index) :
    nextStart level index start ≤ s.mem.deadlineTick link := by
  obtain ⟨hl, hindex⟩ := hi.inRange link level index hp
  calc nextStart level index start
      ≤ nextStart level index s.mem.timerCloseCursor := Window.next_mono (residue_lt hindex) hr
    _ ≤ s.mem.high level index := hi.lower level hl index hindex
    _ ≤ s.mem.deadlineTick link := hi.due link level index hp

/-! ### The scan -/

section Scan

variable {start level best v : ℕ}

/-- The slots that come before `visitTick` on this level, and those of the levels below, were looked
at: no known link in them is due before `best`. -/
def Swept (start level best visitTick : ℕ) (deadline l i : ℕ) : Prop :=
  (l < level ∨ l = level ∧ nextStart l i start < visitTick) → best ≤ deadline + 1

/-- A known link of this level is due no earlier than its window's next start. -/
theorem Surveyed.nextStart_le (hs : Surveyed t j start v R s) (hi : Inv role c₀ s) {l i : ℕ}
    (h : Known j s link l i) : nextStart l i start ≤ s.mem.deadlineTick link :=
  hi.nextStart_le hs.dozing.reached h.place

/-- What is read of a word of the bitmap, `take` bits from `index` on. -/
theorem Inv.bit_of_known (hi : Inv role c₀ s) (hrole : Distinct role)
    (hj : role t = some j) (hs : Surveyed t j start v R s)
    (hle : version j s.mem ≤ v) {index visitTick remaining take : ℕ}
    (hx : Position start level (index, visitTick, remaining)) (htake : take ≤ 64 - index % 64)
    {i : ℕ} (h : Known j s link level i) (hge : visitTick ≤ nextStart level i start)
    (hlt : nextStart level i start < visitTick + take * timerWheelWidth level) :
    ∃ k < take, nextStart level i start = visitTick + k * timerWheelWidth level ∧
      s.mem.occupancy level (index / 64 * 64 + (index % 64 + k)) = true := by
  obtain ⟨k, hk, hnext, rfl⟩ :=
    exists_bit hx.mod hx.index htake (hi.inRange link level i h.place).2 hge hlt
  refine ⟨k, hk, hnext, ?_⟩
  have hbit := hi.occupied hrole hj hs.dozing hs.calm hle h
  rwa [← Nat.add_assoc, Nat.div_add_mod']

/-- What a look at `take` bits of a word tells. -/
def Looked (start level best visitTick take : ℕ) : Option ℕ → ℕ → ℕ → ℕ → Prop
  | none => Swept start level best (visitTick + take * timerWheelWidth level)
  | some k => Swept start (level + 1) (min best (visitTick + k * timerWheelWidth level + 1)) 0

theorem Inv.looked (hi : Inv role c₀ s) (hrole : Distinct role)
    (hj : role t = some j) {index visitTick remaining take : ℕ}
    (hs : Surveyed t j start v (Swept start level best visitTick) s)
    (hx : Position start level (index, visitTick, remaining)) (htake : take ≤ 64 - index % 64) :
    Surveyed t j start v (Looked start level best visitTick take ((List.range take).find? fun k =>
      s.mem.occupancy level (index / 64 * 64 + (index % 64 + k)))) s := by
  refine hs.mono fun hknown hle link l i h => ?_
  have hdue := hs.nextStart_le hi h
  cases hfind : (List.range take).find? fun k =>
      s.mem.occupancy level (index / 64 * 64 + (index % 64 + k)) with
  | none =>
    intro hseen
    by_cases hbefore : l < level ∨ l = level ∧ nextStart l i start < visitTick
    · exact hknown link l i h hbefore
    obtain rfl : l = level := by omega
    obtain ⟨k, hk, -, hbit⟩ := hi.bit_of_known hrole hj hs hle hx htake h (by omega) (by omega)
    have := List.find?_range_eq_none.mp hfind k hk
    simp [hbit] at this
  | some first =>
    intro hl
    by_cases hbefore : l < level ∨ l = level ∧ nextStart l i start < visitTick
    · exact (Nat.min_le_left _ _).trans (hknown link l i h hbefore)
    obtain rfl : l = level := by omega
    refine (Nat.min_le_right _ _).trans (Nat.succ_le_succ (le_trans ?_ hdue))
    -- the first bit found is not after the link's own
    obtain ⟨-, hfirst, hclear⟩ := List.find?_range_eq_some.mp hfind
    have hfirst := List.mem_range.mp hfirst
    by_cases hlt : nextStart l i start < visitTick + take * timerWheelWidth l
    · obtain ⟨k, hk, hnext, hbit⟩ := hi.bit_of_known hrole hj hs hle hx htake h (by omega) hlt
      rw [hnext]
      refine Nat.add_le_add_left (Nat.mul_le_mul_right _ ?_) _
      by_contra hlater
      have := hclear k (Nat.lt_of_not_le hlater)
      simp [hbit] at this
    · refine le_trans (Nat.add_le_add_left (Nat.mul_le_mul_right _ hfirst.le) _) ?_
      omega

/-- The pass over one level. -/
theorem outline_scanLevel (hrole : Distinct role) (hj : role t = some j) (level best : ℕ)
    {x : ℕ × ℕ × ℕ} (hx : Position start level x) :
    Outline (terms role c₀ t)
      (Surveyed t j start v (Swept start level best x.2.1) : State ℓ τ n → Prop)
      (scanLevel level best x)
      fun best' => Surveyed t j start v (Swept start (level + 1) best' 0) := by
  refine (Outline.loop (fun x s => Position start level x ∧
      Surveyed t j start v (Swept start level best x.2.1) s) x ?_
    fun _ => stable_surveyed hrole hj).pre (stable_surveyed hrole hj) fun s _ hs => ⟨hx, hs⟩
  rintro ⟨index, visitTick, remaining⟩
  refine .assume (stable_surveyed hrole hj) fun hx => ?_
  by_cases hexit : remaining = 0 ∨ visitTick + 1 ≥ best
  · simp only [if_pos hexit]
    refine outline_ret (stable_surveyed hrole hj) fun s hi hs =>
      hs.mono fun hknown _ link l i h hl => ?_
    have hdue := hs.nextStart_le hi h
    by_cases hseen : l < level ∨ l = level ∧ nextStart l i start < visitTick
    · exact hknown link l i h hseen
    · obtain rfl : l = level := by omega
      have hlt : nextStart l i start < start + timerWheelPeriod l := Window.next_lt (period_pos l)
      have hrest : start + timerWheelPeriod l ≤ visitTick + remaining * timerWheelWidth l := hx.rest
      rcases hexit with rfl | hbest
      · omega
      · omega
  simp only [if_neg hexit]
  obtain ⟨take, htake⟩ : ∃ take, take = min (64 - index % 64) remaining := ⟨_, rfl⟩
  rw [← htake]
  refine .bind (M := fun bits => Surveyed t j start v (Looked start level best visitTick take
      ((List.range take).find? fun k => bits (index % 64 + k))))
    (outline_load (stable_surveyed hrole hj) (fun _ => stable_surveyed hrole hj)
      fun s hi hs => hi.looked hrole hj hs hx (by omega)) fun bits => ?_
  cases (List.range take).find? fun k => bits (index % 64 + k) with
  | none =>
    exact outline_ret (stable_surveyed hrole hj) fun s _ hs => ⟨hx.next (by omega), hs⟩
  | some k =>
    refine outline_ret (stable_surveyed hrole hj) fun s _ hs => ?_
    have hmin : (if visitTick + k * timerWheelWidth level + 1 < best then
        visitTick + k * timerWheelWidth level + 1 else best) =
        min best (visitTick + k * timerWheelWidth level + 1) := by
      split <;> omega
    simp only [Sum.elim_inr, hmin]
    exact hs

/-- No link with an earlier deadline than this wake. -/
def Good (wake deadline _l _i : ℕ) : Prop := wake ≤ deadline + 1

/-- The scan of the bitmap: no known link is due before the answer, unless a bracket was opened. -/
theorem outline_timerWheelNearestWake (hrole : Distinct role) (hj : role t = some j)
    :
    Outline (terms role c₀ t) (Surveyed t j start v R : State ℓ τ n → Prop)
      (timerWheelNearestWake start) fun wake => Surveyed t j start v (Good wake) := by
  have hstable : ∀ {R : ℕ → ℕ → ℕ → Prop},
      Stable (terms role c₀ t) (Surveyed t j start v R : State ℓ τ n → Prop) :=
    stable_surveyed hrole hj
  refine (Outline.loop (fun x => Surveyed t j start v (Swept start x.1 x.2 0)) (0, awake) ?_
    fun _ => hstable).pre hstable fun s _ hs => hs.mono fun _ _ link l i _ hl => ?_
  · rintro ⟨level, best⟩
    by_cases hexit : level ≥ levels ∨
        windowStart level (start + timerWheelWidth level - 1) + 1 ≥ best
    · simp only [if_pos hexit]
      refine outline_ret hstable fun s hi hs => hs.mono fun hknown _ link l i h => ?_
      have hdue := hs.nextStart_le hi h
      obtain ⟨hl, hindex⟩ := hi.inRange link l i h.place
      by_cases hbelow : l < level
      · exact hknown link l i h (.inl hbelow)
      · have hboundary : windowStart level (start + timerWheelWidth level - 1) ≤
            nextStart l i start := boundary_le (Nat.le_of_not_lt hbelow) hindex
        unfold Good
        omega
    · simp only [if_neg hexit]
      refine .bind ((outline_scanLevel hrole hj level best (boundary_spec level start)).pre hstable
        fun s hi hs => hs.mono fun hknown _ link l i h hl => ?_) fun best' =>
        outline_ret hstable fun s _ hs => hs
      refine hknown link l i h (hl.imp_right fun ⟨hlevel, hlt⟩ => absurd hlt ?_)
      exact Nat.not_lt_of_le (boundary_le hlevel.ge (hi.inRange link l i h.place).2)
  · omega

end Scan

/-! ### The calls -/

section Calls

variable {start wake currentTick : ℕ}

/-- The loop may sleep until `wake`. -/
def MaySleep (t : τ) (j : Fin n) (start wake : ℕ) (s : State ℓ τ n) : Prop :=
  Dozing t j start s ∧ OfKnown j (Good wake) s

theorem stable_maySleep (hrole : Distinct role) (hj : role t = some j) :
    Stable (terms role c₀ t) (MaySleep t j start wake : State ℓ τ n → Prop) :=
  stable_of_guar fun s s' u hu hi hi' hg hs =>
    ⟨stable_dozing hrole hj start s s' hi hi' ⟨u, hu, hg⟩ hs.1,
      hg.ofKnown (fun huj => hu (hrole u t j huj hj)) hs.1.eternal hs.2⟩

theorem MaySleep.mono {wake' : ℕ} (h : MaySleep t j start wake s)
    (hle : wake' ≤ wake) : MaySleep t j start wake' s :=
  ⟨h.1, fun link l i hknown => hle.trans (h.2 link l i hknown)⟩

/-- No link is due before the position. -/
theorem Dozing.maySleep (hs : Dozing t j start s) (hi : Inv role c₀ s)
    (hle : wake ≤ start + 1) : MaySleep t j start wake s := by
  refine ⟨hs, fun link l i h => hle.trans (Nat.succ_le_succ ?_)⟩
  exact (Window.le_next _ _ _).trans (hi.nextStart_le hs.reached h.place)

theorem outline_validatedScan (hrole : Distinct role) (hj : role t = some j) (attempt before : ℕ) :
    Outline (terms role c₀ t)
      (fun s : State ℓ τ n => Dozing t j start s ∧ Calm j before s)
      (validatedScan j start (attempt, before)) (MaySleep t j start) := by
  have hpost : ∀ wake, Stable (terms role c₀ t) (MaySleep t j start wake : State ℓ τ n → Prop) :=
    fun _ => stable_maySleep hrole hj
  refine .loop (fun x s => Dozing t j start s ∧ Calm j x.2 s) (attempt, before) ?_ hpost
  rintro ⟨attempt, before⟩
  have hcalm : ∀ v, Stable (terms role c₀ t) fun s : State ℓ τ n =>
      Dozing t j start s ∧ Calm j v s :=
    fun v => (stable_dozing hrole hj start).and (stable_calm j v)
  refine .bind ((outline_timerWheelNearestWake (R := fun _ _ _ => True) hrole hj).pre (hcalm before)
    fun s _ hs => ⟨hs.1, hs.2, fun _ _ _ _ _ => trivial⟩) fun wake => ?_
  have hsurvey : Stable (terms role c₀ t)
      (Surveyed t j start before (Good wake) : State ℓ τ n → Prop) := stable_surveyed hrole hj
  by_cases hmin : wake = start + 1
  · simp only [if_pos hmin]
    exact outline_ret hsurvey fun s hi hs => hs.dozing.maySleep hi hmin.le
  simp only [if_neg hmin]
  -- at the second snapshot the version is still the first one's, or is above it for good
  refine .bind (outline_timerPreclearSnapshot hsurvey (hpost wake) before fun s hs => ?_)
    fun after => ?_
  · rcases Nat.lt_or_ge before (version j s.mem) with hlt | hge
    · exact .inr hlt
    · exact .inl ⟨hs.dozing, hs.known hge⟩
  have hcap : (if wake > start + 1 then start + 1 else wake) ≤ start + 1 := by
    split <;> omega
  have hshot : ∀ r, Stable (terms role c₀ t) fun s : State ℓ τ n =>
      Surveyed t j start before (Good wake) s ∧ Shot j (MaySleep t j start wake) before r s :=
    fun r => hsurvey.and (stable_shot (hpost wake) before r)
  rcases after with _ | version
  · exact outline_ret (hshot none) fun s hi hs => hs.1.dozing.maySleep hi hcap
  by_cases heq : version = before
  · simp only [if_pos heq]
    refine outline_ret (hshot _) fun s _ hs => ?_
    exact (hs.2 version rfl).2.resolve_right (by omega)
  simp only [if_neg heq]
  by_cases hattempt : attempt + 1 = 2
  · simp only [if_pos hattempt]
    exact outline_ret (hshot _) fun s hi hs => hs.1.dozing.maySleep hi hcap
  · simp only [if_neg hattempt]
    exact outline_ret (hshot _) fun s _ hs => ⟨hs.1.dozing, (hs.2 version rfl).1⟩

/-- Thread `t`, of loop `j`, is registered and has nothing to do with the grid. -/
def Present (t : τ) (j : Fin n) (s : State ℓ τ n) : Prop :=
  Idle t [] false s ∧ s.ghost.registered j = true

theorem stable_present (hrole : Distinct role) (hj : role t = some j) :
    Stable (terms role c₀ t) (Present t j : State ℓ τ n → Prop) :=
  stable_of_guar fun s s' u hu hi hi' hg hs =>
    ⟨stable_idle s s' hi hi' ⟨u, hu, hg⟩ hs.1,
      (hg.loop j fun huj => hu (hrole u t j huj hj)).2.2.trans hs.2⟩

/-- A loop falls asleep. -/
theorem MaySleep.fallAsleep (hs : MaySleep t j start wake s)
    (hi : Inv role c₀ s) (hj : role t = some j) (hwake : wake ≠ awake) :
    (Keeps role c₀ t s ⟨s.mem.setWake j wake, s.ghost.fallAsleep j⟩) ∧
      Present t j ⟨s.mem.setWake j wake, s.ghost.fallAsleep j⟩ :=
  ⟨hi.fallAsleep hj hs.1.eternal hwake fun link l i hplace hstage hlate =>
      hs.2 link l i ⟨hplace, hstage, hlate⟩, { hs.1.idle with }, hs.1.registered⟩

/-- With nothing parked that it knows of, a loop sleeps for ever. -/
theorem MaySleep.eternal (hs : MaySleep t j start awake s) :
    MaySleep t j start timerSleepEternal s :=
  hs.mono (by decide)

/-- A tick of the clock and the longest sleep do not reach the end of a word. -/
theorem Clocked.add_lt (h : Clocked currentTick s) (hi : Inv role c₀ s) :
    currentTick + sleepTicksLimit < awake := by
  have hnow : getMonotonicTicks s.mem.now ≤ getMonotonicTicks word :=
    Nat.div_le_div_right hi.clock.le
  exact lt_of_le_of_lt (Nat.add_le_add_right (h.trans hnow) _) (by decide)

theorem outline_timerLoopPrepareSleep (hrole : Distinct role) (hj : role t = some j) :
    Outline (terms role c₀ t)
      (fun s : State ℓ τ n => Present t j s ∧ Clocked currentTick s)
      (timerLoopPrepareSleep j currentTick) fun _ => Present t j := by
  have hdozing : ∀ start, Stable (terms role c₀ t) fun s : State ℓ τ n =>
      Dozing t j start s ∧ Clocked currentTick s :=
    fun start => (stable_dozing hrole hj start).and (stable_clocked _)
  have hpresent : Stable (terms role c₀ t) (Present t j : State ℓ τ n → Prop) :=
    stable_present hrole hj
  refine .bind (M := fun _ s => Dozing t j 0 s ∧ Clocked currentTick s)
    (outline_store (hpresent.and (stable_clocked _)) (fun _ => hdozing 0) fun s hi hs => ?_)
    fun _ => .bind (M := fun cursor s => Dozing t j cursor s ∧ Clocked currentTick s)
      (outline_load (hdozing 0) hdozing fun s _ hs =>
        ⟨{ hs.1 with reached := le_rfl }, hs.2⟩) fun cursor => ?_
  · refine ⟨hi.renew hj fun _ => hs.1.2, ⟨{ hs.1.1 with }, ?_, hs.1.2, Nat.zero_le _⟩, hs.2⟩
    exact Function.update_self ..
  obtain ⟨start, hstart⟩ : ∃ start, start = if cursor < currentTick then cursor else currentTick :=
    ⟨_, rfl⟩
  simp only [← hstart]
  have hle : start ≤ cursor := by
    rw [hstart]
    split <;> omega
  refine .bind ((outline_timerPreclearSnapshot (hdozing start) (Stable.pure True) 0
      fun _ _ => .inl trivial).pre (hdozing cursor) fun s _ hs =>
        ⟨{ hs.1 with reached := Nat.le_trans hle hs.1.reached }, hs.2⟩) fun before =>
    .bind (M := fun wake s => MaySleep t j start wake s ∧ Clocked currentTick s) ?_ fun wake => ?_
  · have hshot : Stable (terms role c₀ t) fun s : State ℓ τ n =>
        (Dozing t j start s ∧ Clocked currentTick s) ∧ Shot j (fun _ => True) 0 before s :=
      (hdozing start).and (stable_shot (Stable.pure True) 0 before)
    rcases before with _ | v
    · exact outline_ret hshot fun s hi hs => ⟨hs.1.1.maySleep hi le_rfl, hs.1.2⟩
    · refine ((outline_validatedScan hrole hj 0 v).frame (stable_clocked currentTick)
        fun _ _ _ _ hg h => h.mono hg).pre hshot fun s _ hs => ?_
      exact ⟨⟨hs.1.1, (hs.2 v rfl).1⟩, hs.1.2⟩
  have hsleep : ∀ wake, Stable (terms role c₀ t) fun s : State ℓ τ n =>
      MaySleep t j start wake s ∧ Clocked currentTick s :=
    fun wake => (stable_maySleep hrole hj).and (stable_clocked _)
  by_cases hawake : wake = awake
  · simp only [if_pos hawake]
    refine .bind (M := fun _ => Present t j) (outline_store (hsleep wake) (fun _ => hpresent)
      fun s hi hs => ?_) fun _ => outline_ret hpresent fun s _ hs => hs
    have hsame : s.mem.setWake j timerSleepEternal = s.mem := by
      rw [Mem.setWake, ← hs.1.1.eternal, Function.update_eq_self]
    have := MaySleep.fallAsleep ((hawake ▸ hs.1 : MaySleep t j start awake s).eternal) hi hj (by decide)
    rw [hsame] at this
    exact this
  · simp only [if_neg hawake]
    refine .bind (M := fun _ => Present t j) (outline_store (hsleep wake) (fun _ => hpresent)
      fun s hi hs => ?_) fun _ => outline_ret hpresent fun s _ hs => hs
    have hlimit := hs.2.add_lt hi
    split
    · exact MaySleep.fallAsleep (hs.1.mono (by omega)) hi hj (by omega)
    · exact hs.1.fallAsleep hi hj hawake

theorem outline_timerLoopCancelSleep (hrole : Distinct role) (hj : role t = some j) :
    Outline (terms role c₀ t) (Present t j : State ℓ τ n → Prop)
      (timerLoopCancelSleep j) fun _ => Present t j := by
  unfold timerLoopCancelSleep
  exact outline_store (stable_present hrole hj) (fun _ => stable_present hrole hj) fun s hi hs =>
    ⟨hi.renew hj fun h => absurd rfl h, { hs.1 with }, hs.2⟩

theorem outline_kernelWait (hrole : Distinct role) (hj : role t = some j) :
    Outline (terms role c₀ t) (Present t j : State ℓ τ n → Prop)
      (kernelWait j) fun _ => Present t j := by
  refine .pick (stable_present hrole hj) (fun _ => stable_present hrole hj) ?_
  rintro s _ s' (rfl | ⟨-, rfl⟩) hi hs
  · exact ⟨hi, Guar.refl s', hs⟩
  · obtain ⟨hi', hg⟩ := hi.answer hs.2 (t := t)
    exact ⟨hi', hg, { hs.1 with }, hs.2⟩

end Calls

end Timers

end Asyncio
