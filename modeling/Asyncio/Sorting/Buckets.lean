import Mathlib.Data.List.Range

/-!
# Bucketing by prefix sums

Items `0, …, n - 1` are put into one array, ordered by their group and, in a group, by their number. A
first pass counts the items of each group, a second one turns the counts into the places where the groups
start, and a third one puts each item at the place of its group and moves that place on. What were the
starts are then the ends, so they are shifted back by one group.

## Main results

* `segment_eq` — the segment of a group holds its items
-/

namespace Buckets

open List

/-- An element of an array; beyond the end there is `0`. -/
def get (a : List ℕ) (i : ℕ) : ℕ := a[i]?.getD 0

theorem get_set_self {a : List ℕ} {i : ℕ} (h : i < a.length) (v : ℕ) : get (a.set i v) i = v := by
  rw [get, getElem?_set_self h]
  rfl

theorem get_set_of_ne {a : List ℕ} {i j : ℕ} (h : i ≠ j) (v : ℕ) : get (a.set i v) j = get a j := by
  rw [get, getElem?_set_ne h, get]

theorem get_replicate (n i : ℕ) : get (List.replicate n 0) i = 0 := by
  rw [get, getElem?_replicate]
  split <;> rfl

variable (group : ℕ → ℕ)

/-- The number of items in each of `m` groups. -/
def sizes (m n : ℕ) : List ℕ :=
  (List.range n).foldl (fun size i => size.set (group i) (get size (group i) + 1))
    (List.replicate m 0)

/-- The place where each of `m` groups starts, and where the last one ends. -/
def starts (size : List ℕ) (m : ℕ) : List ℕ :=
  (List.range m).foldl (fun start i => start.set (i + 1) (get start i + get size i))
    (List.replicate (m + 1) 0)

/-- Put each item at the place of its group; the places after that, and the array. -/
def distribute (start : List ℕ) (n : ℕ) : List ℕ × List ℕ :=
  (List.range n).foldl
    (fun s i => (s.1.set (group i) (get s.1 (group i) + 1), s.2.set (get s.1 (group i)) i))
    (start, List.replicate n 0)

/-- Shift the places back by one group. -/
def restore (m : ℕ) (start : List ℕ) : List ℕ :=
  ((List.range m).reverse.foldl (fun start i => start.set (i + 1) (get start i)) start).set 0 0

/-- The items of a group, in order. -/
def members (n g : ℕ) : List ℕ := (List.range n).filter fun i => group i = g

variable {group}

theorem members_succ (n g : ℕ) :
    members group (n + 1) g = members group n g ++ if group n = g then [n] else [] := by
  rw [members, range_succ, filter_append, members, filter_singleton]
  by_cases hg : group n = g <;> simp [hg]

/-- A loop that sets elements keeps the length. -/
theorem length_foldl_set {α : Type} (place value : List ℕ → α → ℕ) (items : List α) (a : List ℕ) :
    (items.foldl (fun a i => a.set (place a i) (value a i)) a).length = a.length := by
  induction items generalizing a with
  | nil => rfl
  | cons i items ih => rw [foldl_cons, ih, length_set]

theorem length_sizes (m n : ℕ) : (sizes group m n).length = m := by
  rw [sizes, length_foldl_set (fun _ i => group i), length_replicate]

theorem get_sizes {m n : ℕ} (hgroup : ∀ i < n, group i < m) (g : ℕ) :
    get (sizes group m n) g = (members group n g).length := by
  induction n generalizing g with
  | zero => exact get_replicate m g
  | succ n ih =>
    have ih := ih fun i hi => hgroup i (Nat.lt_succ_of_lt hi)
    have hstep : sizes group m (n + 1) =
        (sizes group m n).set (group n) (get (sizes group m n) (group n) + 1) := by
      rw [sizes, range_succ, foldl_append]
      rfl
    rw [hstep, members_succ, length_append]
    by_cases hg : group n = g
    · subst hg
      rw [get_set_self (by rw [length_sizes]; exact hgroup n (Nat.lt_succ_self n)), ih, if_pos rfl]
      rfl
    · rw [get_set_of_ne hg, ih, if_neg hg]
      rfl

section Starts

variable (size : List ℕ)

/-- The loop of `starts`, over the first `k` groups. -/
def startsTo (m k : ℕ) : List ℕ :=
  (List.range k).foldl (fun start i => start.set (i + 1) (get start i + get size i))
    (List.replicate (m + 1) 0)

theorem startsTo_succ (m k : ℕ) : startsTo size m (k + 1) =
    (startsTo size m k).set (k + 1) (get (startsTo size m k) k + get size k) := by
  rw [startsTo, range_succ, foldl_append]
  rfl

theorem length_startsTo (m k : ℕ) : (startsTo size m k).length = m + 1 := by
  rw [startsTo, length_foldl_set (fun _ i => i + 1), length_replicate]

/-- What was set is not set again. -/
theorem get_startsTo_of_le {m i k : ℕ} (h : i ≤ k) :
    get (startsTo size m k) i = get (startsTo size m i) i := by
  induction k, h using Nat.le_induction with
  | base => rfl
  | succ k hi ih => rw [startsTo_succ, get_set_of_ne (by omega), ih]

variable {size}

theorem length_starts (m : ℕ) : (starts size m).length = m + 1 := length_startsTo size m m

theorem starts_zero (m : ℕ) : get (starts size m) 0 = 0 := by
  refine (get_startsTo_of_le size (Nat.zero_le m)).trans ?_
  exact get_replicate (m + 1) 0

theorem starts_add {i m : ℕ} (h : i < m) :
    get (starts size m) (i + 1) = get (starts size m) i + get size i := by
  show get (startsTo size m m) (i + 1) = get (startsTo size m m) i + get size i
  rw [get_startsTo_of_le size h, startsTo_succ, get_set_self (by rw [length_startsTo]; omega),
    get_startsTo_of_le size h.le]

theorem starts_mono (size : List ℕ) {i j m : ℕ} (hij : i ≤ j) (hj : j ≤ m) :
    get (starts size m) i ≤ get (starts size m) j := by
  induction j, hij using Nat.le_induction with
  | base => exact le_refl _
  | succ j hi ih =>
    rw [starts_add hj]
    exact (ih (by omega)).trans (Nat.le_add_right _ _)

end Starts

theorem length_filter_lt_succ (items : List ℕ) (k : ℕ) :
    (items.filter fun i => group i < k + 1).length =
      (items.filter fun i => group i < k).length + (items.filter fun i => group i = k).length := by
  induction items with
  | nil => rfl
  | cons i items ih =>
    rw [filter_cons, filter_cons, filter_cons]
    rcases Nat.lt_trichotomy (group i) k with h | h | h
    · rw [if_pos (by simpa using Nat.lt_succ_of_lt h), if_pos (by simpa using h),
        if_neg (by simpa using h.ne), length_cons, length_cons, ih]
      omega
    · rw [if_pos (by simp [h]), if_neg (by simp [h]), if_pos (by simp [h]), length_cons,
        length_cons, ih]
      omega
    · rw [if_neg (by simp; omega), if_neg (by simp; omega), if_neg (by simp; omega), ih]

/-- The groups before one hold the items of lower groups. -/
theorem starts_eq {m n k : ℕ} (hgroup : ∀ i < n, group i < m) (hk : k ≤ m) :
    get (starts (sizes group m n) m) k = ((List.range n).filter fun i => group i < k).length := by
  induction k with
  | zero =>
    rw [starts_zero]
    simp
  | succ k ih =>
    rw [starts_add hk, ih (Nat.le_of_succ_le hk), get_sizes hgroup, length_filter_lt_succ]
    rfl

/-- The array is filled. -/
theorem starts_last {m n : ℕ} (hgroup : ∀ i < n, group i < m) :
    get (starts (sizes group m n) m) m = n := by
  rw [starts_eq hgroup (le_refl m), filter_eq_self.mpr, length_range]
  intro i hi
  rw [decide_eq_true_eq]
  exact hgroup i (mem_range.mp hi)

section Distribute

/-- The loop of `distribute`, over the first `k` items. -/
def distributeTo (group : ℕ → ℕ) (start : List ℕ) (n k : ℕ) : List ℕ × List ℕ :=
  (List.range k).foldl
    (fun s i => (s.1.set (group i) (get s.1 (group i) + 1), s.2.set (get s.1 (group i)) i))
    (start, List.replicate n 0)

theorem distributeTo_succ (start : List ℕ) (n k : ℕ) :
    distributeTo group start n (k + 1) =
      ((distributeTo group start n k).1.set (group k) (get (distributeTo group start n k).1 (group k) + 1),
        (distributeTo group start n k).2.set (get (distributeTo group start n k).1 (group k)) k) := by
  rw [distributeTo, range_succ, foldl_append]
  rfl

theorem length_distributeTo (start : List ℕ) (n k : ℕ) :
    (distributeTo group start n k).1.length = start.length ∧
      (distributeTo group start n k).2.length = n := by
  induction k with
  | zero => exact ⟨rfl, length_replicate⟩
  | succ k ih =>
    rw [distributeTo_succ, length_set, length_set]
    exact ih

/-- The place of a group after some of the items. -/
theorem get_distributeTo_fst {start : List ℕ} {n k : ℕ} (hgroup : ∀ i < k, group i < start.length)
    (g : ℕ) : get (distributeTo group start n k).1 g = get start g + (members group k g).length := by
  induction k generalizing g with
  | zero => rfl
  | succ k ih =>
    have ih := ih fun i hi => hgroup i (Nat.lt_succ_of_lt hi)
    rw [distributeTo_succ, members_succ, length_append]
    dsimp only
    by_cases hg : group k = g
    · subst hg
      have hlt : group k < (distributeTo group start n k).1.length := by
        rw [(length_distributeTo start n k).1]
        exact hgroup k (Nat.lt_succ_self k)
      rw [get_set_self hlt, ih, if_pos rfl]
      rfl
    · rw [get_set_of_ne hg, ih, if_neg hg]
      rfl

/-- The items of a group do not leave the segment of the group. -/
theorem length_members_le {n k : ℕ} (h : k ≤ n) (g : ℕ) :
    (members group k g).length ≤ (members group n g).length := by
  refine List.Sublist.length_le (List.Sublist.filter _ ?_)
  exact range_sublist.mpr h

variable {n m : ℕ} (hgroup : ∀ i < n, group i < m)

include hgroup

/-- A place of a group is before the end of the group. -/
theorem place_lt {g j : ℕ} (hg : g < m) (hj : j < (members group n g).length) :
    get (starts (sizes group m n) m) g + j < get (starts (sizes group m n) m) (g + 1) := by
  rw [starts_add hg, get_sizes hgroup]
  omega

/-- Two groups have no place in common. -/
theorem place_ne {g g' j j' : ℕ} (hg : g < m) (hg' : g' < m) (hne : g ≠ g')
    (hj : j < (members group n g).length) (hj' : j' < (members group n g').length) :
    get (starts (sizes group m n) m) g + j ≠ get (starts (sizes group m n) m) g' + j' := by
  have hend := place_lt hgroup hg hj
  have hend' := place_lt hgroup hg' hj'
  rcases Nat.lt_or_gt_of_ne hne with hlt | hlt
  · have hle := starts_mono (sizes group m n) (i := g + 1) hlt hg'.le
    omega
  · have hle := starts_mono (sizes group m n) (i := g' + 1) hlt hg.le
    omega

/-- The segment of a group after the first `k` items. -/
theorem segment_of_le {k g : ℕ} (hk : k ≤ n) (hg : g < m) :
    (List.range (members group k g).length).map (fun j =>
      get (distributeTo group (starts (sizes group m n) m) n k).2
        (get (starts (sizes group m n) m) g + j)) = members group k g := by
  induction k with
  | zero => rfl
  | succ k ih =>
    have hplace : get (distributeTo group (starts (sizes group m n) m) n k).1 (group k) =
        get (starts (sizes group m n) m) (group k) + (members group k (group k)).length := by
      refine get_distributeTo_fst (fun i hi => ?_) _
      rw [length_starts]
      exact Nat.lt_succ_of_lt (hgroup i (by omega))
    have hroom : (members group k (group k)).length < (members group n (group k)).length := by
      refine Nat.lt_of_lt_of_le ?_ (length_members_le hk (group k))
      rw [members_succ, if_pos rfl, length_append]
      exact Nat.lt_succ_self _
    -- what is there already is not overwritten
    have hkeep : ∀ j ∈ List.range (members group k g).length,
        get (distributeTo group (starts (sizes group m n) m) n (k + 1)).2
            (get (starts (sizes group m n) m) g + j) =
          get (distributeTo group (starts (sizes group m n) m) n k).2
            (get (starts (sizes group m n) m) g + j) := by
      intro j hj
      rw [mem_range] at hj
      rw [distributeTo_succ]
      refine get_set_of_ne ?_ _
      rw [hplace]
      by_cases hsame : group k = g
      · rw [hsame]
        omega
      · exact place_ne hgroup (hgroup k hk) hg hsame hroom
          (hj.trans_le (length_members_le (Nat.le_of_succ_le hk) g))
    rw [members_succ]
    by_cases hsame : group k = g
    · have hin : get (starts (sizes group m n) m) g + (members group k g).length <
          (distributeTo group (starts (sizes group m n) m) n k).2.length := by
        have hlt := place_lt hgroup (hgroup k hk) hroom
        have hle := starts_mono (sizes group m n) (hgroup k hk) (le_refl m)
        rw [starts_last hgroup] at hle
        rw [(length_distributeTo _ n k).2, ← hsame]
        exact hlt.trans_le hle
      rw [if_pos hsame, length_append, length_singleton, range_succ, map_append,
        map_congr_left hkeep, ih (Nat.le_of_succ_le hk), map_singleton, distributeTo_succ]
      dsimp only
      rw [hplace, hsame, get_set_self hin]
    · rw [if_neg hsame, append_nil, map_congr_left hkeep, ih (Nat.le_of_succ_le hk)]

omit hgroup

theorem get_restore_foldl {start : List ℕ} {m : ℕ} (hm : m < start.length) (j : ℕ) :
    get ((List.range m).reverse.foldl (fun start i => start.set (i + 1) (get start i)) start) j =
      if 0 < j ∧ j ≤ m then get start (j - 1) else get start j := by
  induction m generalizing start with
  | zero => rw [if_neg (by omega)]; rfl
  | succ m ih =>
    rw [range_succ, reverse_append, reverse_singleton, singleton_append,
      foldl_cons, ih (by rw [length_set]; omega)]
    by_cases hj : 0 < j ∧ j ≤ m
    · rw [if_pos hj, if_pos ⟨hj.1, by omega⟩, get_set_of_ne (by omega)]
    · rw [if_neg hj]
      by_cases hlast : j = m + 1
      · subst hlast
        rw [if_pos ⟨by omega, le_refl _⟩, get_set_self hm]
        rfl
      · rw [if_neg (by omega), get_set_of_ne (Ne.symm hlast)]

include hgroup

/-- Shifted back, the places are the starts again. -/
theorem get_restore {g : ℕ} (hg : g < m) :
    get (restore m (distribute group (starts (sizes group m n) m) n).1) g =
      get (starts (sizes group m n) m) g := by
  have hlength : (distribute group (starts (sizes group m n) m) n).1.length = m + 1 :=
    (length_distributeTo _ n n).1.trans (length_starts m)
  rw [restore]
  cases g with
  | zero =>
    rw [get_set_self, starts_zero]
    rw [length_foldl_set (fun _ i => i + 1), hlength]
    exact Nat.succ_pos m
  | succ g =>
    rw [get_set_of_ne (Nat.succ_ne_zero g).symm, get_restore_foldl (by omega),
      if_pos ⟨by omega, by omega⟩, starts_add (by omega), get_sizes hgroup]
    refine get_distributeTo_fst (fun i hi => ?_) g
    rw [length_starts]
    exact Nat.lt_succ_of_lt (hgroup i hi)

/-- **The segment of a group holds its items.** -/
theorem segment_eq {g : ℕ} (hg : g < m) :
    (List.range (get (sizes group m n) g)).map (fun j =>
      get (distribute group (starts (sizes group m n) m) n).2
        (get (restore m (distribute group (starts (sizes group m n) m) n).1) g + j)) =
      members group n g := by
  rw [get_restore hgroup hg, get_sizes hgroup]
  exact segment_of_le hgroup (le_refl n) hg

end Distribute

end Buckets
