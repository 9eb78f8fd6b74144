import Mathlib.Data.Nat.Notation

/-!
# Scanners that may need more

A scanner looks at what is there and succeeds, fails, or needs more. It is `Stable` if a decision it made
stands, whatever follows what it has seen. Not every part of a stable scanner is stable: one that skips
blanks stops where the input stops. Such a part is `StableBefore` the end, and if what comes next needs
more at the end, the whole is stable (`StableBefore.bind`).
-/

namespace Incremental

open List

variable {α β γ : Type}

/-- What a scanner finds, and what follows. -/
inductive Scan (α β : Type)
  | ok (value : β) (rest : List α)
  | needMoreData
  | error
  deriving DecidableEq

namespace Scan

def bind : Scan α β → (β → List α → Scan α γ) → Scan α γ
  | ok value rest, g => g value rest
  | needMoreData, _ => needMoreData
  | error, _ => error

/-- The same, with more behind. -/
def extend (y : List α) : Scan α β → Scan α β
  | ok value rest => ok value (rest ++ y)
  | needMoreData => needMoreData
  | error => error

end Scan

/-- A decision stands. -/
def Stable (f : List α → Scan α β) : Prop :=
  ∀ x y, f x ≠ .needMoreData → f (x ++ y) = (f x).extend y

/-- A decision stands, unless it was made at the end. -/
def StableBefore (f : List α → Scan α β) : Prop :=
  ∀ x y, f x ≠ .needMoreData → (∀ value, f x ≠ .ok value []) → f (x ++ y) = (f x).extend y

/-- What a scanner leaves is the end of what it was given. -/
def Leaves (f : List α → Scan α β) : Prop := ∀ x value rest, f x = .ok value rest → rest <:+ x

variable {g : β → List α → Scan α γ}

theorem Scan.bind_eq_ok {s : Scan α β} {value : γ} {rest : List α} (h : s.bind g = .ok value rest):
    ∃ value' rest', s = .ok value' rest' ∧ g value' rest' = .ok value rest := by
  cases s with
  | ok value' rest' => exact ⟨value', rest', rfl, h⟩
  | needMoreData => cases h
  | error => cases h

variable {f : List α → Scan α β}

theorem Stable.bind (hf : Stable f) (hg : ∀ value, Stable (g value)): Stable fun x => (f x).bind g := by
  intro x y hneed
  have hx := hf x y
  dsimp only at hneed ⊢
  cases hfx : f x with
  | ok value rest =>
    rw [hfx] at hneed hx
    rw [hx nofun]
    exact hg value rest y hneed
  | needMoreData =>
    rw [hfx] at hneed
    exact absurd rfl hneed
  | error =>
    rw [hfx] at hx
    rw [hx nofun]
    rfl

/-- What comes next needs more at the end. -/
theorem StableBefore.bind (hf : StableBefore f) (hg : ∀ value, Stable (g value))
    (hnil : ∀ value, g value [] = .needMoreData) : Stable fun x => (f x).bind g := by
  intro x y hneed
  have hx := hf x y
  dsimp only at hneed ⊢
  cases hfx : f x with
  | ok value rest =>
    rw [hfx] at hneed hx
    have hrest : rest ≠ [] := by
      rintro rfl
      exact hneed (hnil value)
    rw [hx nofun fun value' heq => hrest (Scan.ok.inj heq).2]
    exact hg value rest y hneed
  | needMoreData =>
    rw [hfx] at hneed
    exact absurd rfl hneed
  | error =>
    rw [hfx] at hx
    rw [hx nofun nofun]
    rfl

theorem stable_ok (value : β) : Stable fun x : List α => Scan.ok value x := fun _ _ _ => rfl

theorem stable_error : Stable fun _ : List α => (Scan.error : Scan α β) := fun _ _ _ => rfl

theorem Stable.ite {c : Prop} [Decidable c] {f g : List α → Scan α β} (hf : Stable f)
    (hg : Stable g) : Stable fun x => if c then f x else g x := by
  split
  · exact hf
  · exact hg

/-- Take `n` elements. -/
def take (n : ℕ) (x : List α) : Scan α (List α) :=
  if x.length < n then .needMoreData else .ok (x.take n) (x.drop n)

theorem stable_take (n : ℕ) : Stable (take n : List α → _) := by
  intro x y hneed
  unfold take at hneed ⊢
  split at hneed
  · exact absurd rfl hneed
  next hlength =>
  have hle : n ≤ x.length := Nat.le_of_not_lt hlength
  have hle' : ¬ (x ++ y).length < n := by
    rw [length_append]
    omega
  rw [if_neg hlength, if_neg hle', take_append_of_le_length hle, drop_append_of_le_length hle]
  rfl

/-- Skip the elements with a property. -/
def skip (p : α → Bool) (x : List α) : Scan α Unit := .ok () (x.dropWhile p)

/-- A run that ended goes no further. -/
theorem dropWhile_append {p : α → Bool} {x : List α} (h : x.dropWhile p ≠ []) (y : List α) :
    (x ++ y).dropWhile p = x.dropWhile p ++ y := by
  induction x with
  | nil => exact absurd rfl h
  | cons c x ih =>
    rw [cons_append]
    by_cases hc : p c = true
    · rw [dropWhile_cons_of_pos hc] at h ⊢
      rw [dropWhile_cons_of_pos hc, ih h]
    · rw [dropWhile_cons_of_neg hc, dropWhile_cons_of_neg hc]
      rfl

theorem takeWhile_append {p : α → Bool} {x : List α} (h : x.dropWhile p ≠ []) (y : List α) :
    (x ++ y).takeWhile p = x.takeWhile p := by
  induction x with
  | nil => exact absurd rfl h
  | cons c x ih =>
    rw [cons_append]
    by_cases hc : p c = true
    · rw [dropWhile_cons_of_pos hc] at h
      rw [takeWhile_cons_of_pos hc, takeWhile_cons_of_pos hc, ih h]
    · rw [takeWhile_cons_of_neg hc, takeWhile_cons_of_neg hc]

theorem stableBefore_skip (p : α → Bool) : StableBefore (skip p) := by
  intro x y _ hend
  unfold skip at hend ⊢
  rw [dropWhile_append fun h => hend () (congrArg (Scan.ok ()) h)]
  rfl

/-- What a scanner consumed, beside what it found. -/
def withText (f : List α → Scan α β) (x : List α) : Scan α (β × List α) :=
  (f x).bind fun value rest => .ok (value, x.take (x.length - rest.length)) rest

theorem Stable.withText (hf : Stable f) (hleaves : Leaves f) :
    Stable (withText f) := by
  intro x y hneed
  unfold Incremental.withText at hneed ⊢
  have hx := hf x y
  cases hfx : f x with
  | ok value rest =>
    rw [hfx] at hx
    obtain ⟨front, hfront⟩ := hleaves x value rest hfx
    rw [hx nofun, ← hfront]
    simp [Scan.bind, Scan.extend, Nat.add_sub_cancel]
  | needMoreData =>
    rw [hfx] at hneed
    exact absurd rfl hneed
  | error =>
    rw [hfx] at hx
    rw [hx nofun]
    rfl

theorem leaves_ok (value : β) : Leaves fun x : List α => Scan.ok value x := by
  intro x value' rest h
  cases h
  exact suffix_refl _

theorem leaves_error : Leaves fun _ : List α => (Scan.error : Scan α β) := nofun

theorem Leaves.ite {c : Prop} [Decidable c] {f g : List α → Scan α β} (hf : Leaves f)
    (hg : Leaves g) : Leaves fun x => if c then f x else g x := by
  split
  · exact hf
  · exact hg

theorem Leaves.bind (hf : Leaves f) (hg : ∀ value, Leaves (g value)): Leaves fun x => (f x).bind g := by
  intro x value rest h
  dsimp only at h
  cases hfx : f x with
  | ok value' rest' =>
    rw [hfx] at h
    exact (hg value' rest' value rest h).trans (hf x value' rest' hfx)
  | needMoreData =>
    rw [hfx] at h
    cases h
  | error =>
    rw [hfx] at h
    cases h

theorem leaves_take (n : ℕ) : Leaves (take n : List α → _) := by
  intro x value rest h
  unfold take at h
  split at h
  · cases h
  · cases h
    exact drop_suffix n x

theorem leaves_skip (p : α → Bool) : Leaves (skip p) := by
  intro x value rest h
  cases h
  exact dropWhile_suffix p

theorem Leaves.withText (hf : Leaves f) : Leaves (withText f) := by
  intro x value rest h
  unfold Incremental.withText at h
  cases hfx : f x with
  | ok value' rest' =>
    rw [hfx] at h
    cases h
    exact hf x value' rest hfx
  | needMoreData =>
    rw [hfx] at h
    cases h
  | error =>
    rw [hfx] at h
    cases h

/-- A scanner that succeeds consumes something. -/
def Shortens (f : List α → Scan α β) : Prop :=
  ∀ x value rest, f x = .ok value rest → rest <:+ x ∧ rest.length < x.length

theorem Leaves.bind_shortens (hf : Leaves f)
    (hg : ∀ value, Shortens (g value)) : Shortens fun x => (f x).bind g := by
  intro x value rest h
  dsimp only at h
  cases hfx : f x with
  | ok value' rest' =>
    rw [hfx] at h
    obtain ⟨hsuffix, hlt⟩ := hg value' rest' value rest h
    have hrest := hf x value' rest' hfx
    exact ⟨hsuffix.trans hrest, Nat.lt_of_lt_of_le hlt hrest.length_le⟩
  | needMoreData =>
    rw [hfx] at h
    cases h
  | error =>
    rw [hfx] at h
    cases h

theorem Shortens.bind (hf : Shortens f)
    (hg : ∀ value, Leaves (g value)) : Shortens fun x => (f x).bind g := by
  intro x value rest h
  dsimp only at h
  cases hfx : f x with
  | ok value' rest' =>
    rw [hfx] at h
    obtain ⟨hsuffix, hlt⟩ := hf x value' rest' hfx
    have hrest := hg value' rest' value rest h
    exact ⟨hrest.trans hsuffix, Nat.lt_of_le_of_lt hrest.length_le hlt⟩
  | needMoreData =>
    rw [hfx] at h
    cases h
  | error =>
    rw [hfx] at h
    cases h

theorem shortens_take {n : ℕ} (hn : 0 < n) : Shortens (take n : List α → _) := by
  intro x value rest h
  unfold take at h
  split at h
  · cases h
  · cases h
    refine ⟨drop_suffix n x, ?_⟩
    rw [length_drop]
    omega

end Incremental
