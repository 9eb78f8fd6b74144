import Asyncio.Http.Tokens
import Mathlib.Data.List.TakeWhile

/-!
# Header tables are exact

The placement gives every key the slot that `lookupToken` computes for its hash (`placed_of_some`). What
the lookup finds there is compared byte by byte, so a name is recognised if and only if it is equal to a
key up to the case of letters. As the keys have different hashes, there is at most one.

## Main results

* `header_table_exact` — what `httpHeaderTableLookup` finds in a table that `httpHeaderTablePrepare` built
-/

namespace Asyncio

namespace Http

open List Option

/-! ### Placement -/

section Place

variable {keys : List TokenEntry} {tableSize groupCount : ℕ} {slots : List (Option ℕ)}

theorem slotAt_set_self {pos : ℕ} (h : pos < slots.length) (v : Option ℕ) :
    slotAt (slots.set pos v) pos = v := by
  rw [slotAt, getElem?_set_self h]
  rfl

theorem slotAt_set_of_ne {pos pos' : ℕ} (h : pos ≠ pos') (v : Option ℕ) :
    slotAt (slots.set pos v) pos' = slotAt slots pos' := by
  rw [slotAt, getElem?_set_ne h, slotAt]

theorem and_pred_lt (a : ℕ) {n : ℕ} (h : 0 < n) : a &&& (n - 1) < n :=
  (Nat.and_le_right.trans_lt (Nat.sub_lt h Nat.one_pos))

/-- The slots that were found are the ones of the keys, free and different. -/
theorem positions_eq_some {d : ℕ} {found group result : List ℕ}
    (h : positions keys tableSize slots d found group = some result) (hfound : found.Nodup) :
    result = found ++ group.map (keySlot keys tableSize d) ∧ result.Nodup ∧
      ∀ i ∈ group, slotAt slots (keySlot keys tableSize d i) = none := by
  induction group generalizing found with
  | nil =>
    obtain rfl := Option.some.inj h
    exact ⟨(append_nil _).symm, hfound, nofun⟩
  | cons i group ih =>
    unfold positions at h
    split at h
    · cases h
    split at h
    · cases h
    next hfree hnew =>
    have hnodup : (found ++ [keySlot keys tableSize d i]).Nodup := by
      rw [nodup_append]
      refine ⟨hfound, nodup_singleton _, ?_⟩
      rintro p hp q hq rfl
      rw [mem_singleton] at hq
      exact hnew (hq ▸ hp)
    obtain ⟨hresult, hresultNodup, hgroup⟩ := ih h hnodup
    refine ⟨?_, hresultNodup, ?_⟩
    · rw [hresult, append_assoc]
      rfl
    · intro j hj
      rcases mem_cons.mp hj with rfl | hj
      · exact not_isSome_iff_eq_none.mp hfree
      · exact hgroup j hj

theorem searchDisplacement_eq_some {group found : List ℕ} {d : ℕ}
    (h : searchDisplacement keys tableSize slots group = some (d, found)) :
    d < tableSize ∧ found = group.map (keySlot keys tableSize d) ∧ found.Nodup ∧
      ∀ i ∈ group, slotAt slots (keySlot keys tableSize d i) = none := by
  obtain ⟨d', hd', hmap⟩ := exists_of_findSome?_eq_some h
  obtain ⟨found', hfound', heq⟩ := map_eq_some_iff.mp hmap
  obtain ⟨rfl, rfl⟩ := Prod.mk.inj heq
  obtain ⟨hresult, hnodup, hfree⟩ := positions_eq_some hfound' nodup_nil
  exact ⟨mem_range.mp hd', hresult, hnodup, hfree⟩

theorem length_fillSlots (slots : List (Option ℕ)) (found group : List ℕ) :
    (fillSlots slots found group).length = slots.length := by
  unfold fillSlots
  induction found.zip group generalizing slots with
  | nil => rfl
  | cons p ps ih => rw [foldl_cons, ih, length_set]

/-- A slot that was not found keeps what it has. -/
theorem slotAt_fillSlots_of_notMem {found group : List ℕ} {pos : ℕ}
    (h : pos ∉ found) : slotAt (fillSlots slots found group) pos = slotAt slots pos := by
  induction found generalizing slots group with
  | nil => rfl
  | cons p found ih =>
    cases group with
    | nil => rfl
    | cons i group =>
      have hne : p ≠ pos := fun heq => h (heq ▸ mem_cons_self)
      show slotAt (fillSlots (slots.set p (some i)) found group) pos = _
      rw [ih fun hmem => h (mem_cons_of_mem _ hmem), slotAt_set_of_ne hne]

/-- A slot that was found gets its key. -/
theorem slotAt_fillSlots {f : ℕ → ℕ} {group : List ℕ}
    (hnodup : (group.map f).Nodup) (hf : ∀ i ∈ group, f i < slots.length) {i : ℕ} (hi : i ∈ group) :
    slotAt (fillSlots slots (group.map f) group) (f i) = some i := by
  induction group generalizing slots with
  | nil => cases hi
  | cons j group ih =>
    rw [map_cons, nodup_cons] at hnodup
    show slotAt (fillSlots (slots.set (f j) (some j)) (group.map f) group) (f i) = _
    rcases mem_cons.mp hi with rfl | hi
    · rw [slotAt_fillSlots_of_notMem hnodup.1, slotAt_set_self (hf i mem_cons_self)]
    · refine ih hnodup.2 (fun k hk => ?_) hi
      rw [length_set]
      exact hf k (mem_cons_of_mem _ hk)

/-- What is in the slots after a group was placed: what was there, and its keys. -/
theorem mem_of_slotAt_fillSlots {found group : List ℕ} {pos i : ℕ}
    (h : slotAt (fillSlots slots found group) pos = some i) :
    slotAt slots pos = some i ∨ i ∈ group := by
  induction found generalizing slots group with
  | nil => exact .inl h
  | cons p found ih =>
    cases group with
    | nil => exact .inl h
    | cons j group =>
      replace h : slotAt (fillSlots (slots.set p (some j)) found group) pos = some i := h
      rcases ih h with hold | hmem
      · by_cases hp : p = pos
        · subst hp
          by_cases hlt : p < slots.length
          · rw [slotAt_set_self hlt] at hold
            exact .inr (Option.some.inj hold ▸ mem_cons_self)
          · rw [set_eq_of_length_le (Nat.le_of_not_lt hlt)] at hold
            exact .inl hold
        · rw [slotAt_set_of_ne hp] at hold
          exact .inl hold
      · exact .inr (mem_cons_of_mem _ hmem)

/-- The group of a key. -/
def keyGroup (keys : List TokenEntry) (groupCount i : ℕ) : ℕ := groupOf groupCount (keyHash keys i)

/-- The displacement of a group. -/
def displacementAt (displacement : List UInt16) (g : ℕ) : UInt16 := displacement[g]?.getD 0

/-- The keys of the groups in `done` are where their displacements put them. -/
structure Placed (keys : List TokenEntry) (tableSize groupCount : ℕ) (done : List ℕ)
    (p : Placement) : Prop where
  slots : p.slots.length = tableSize
  displacement : p.displacement.length = groupCount
  /-- Only keys are in the slots. -/
  key : ∀ pos i, slotAt p.slots pos = some i → i < keys.length
  found : ∀ i < keys.length, keyGroup keys groupCount i ∈ done →
    slotAt p.slots (keySlot keys tableSize
      (displacementAt p.displacement (keyGroup keys groupCount i)).toNat i) = some i

/-- One group is placed. -/
theorem Placed.step {done : List ℕ} {p : Placement} (hp : Placed keys tableSize groupCount done p)
    (hsize : 0 < tableSize) (hmax : tableSize ≤ httpHeaderTableMaxSize) {g d : ℕ} {found : List ℕ}
    (hg : g < groupCount) (h : searchDisplacement keys tableSize p.slots
      (Buckets.members (keyGroup keys groupCount) keys.length g) = some (d, found)) :
    Placed keys tableSize groupCount (g :: done)
      ⟨fillSlots p.slots found (Buckets.members (keyGroup keys groupCount) keys.length g),
        p.displacement.set g (.ofNat d)⟩ := by
  obtain ⟨hd, rfl, hnodup, hfree⟩ := searchDisplacement_eq_some h
  have hmem {i : ℕ} (hi : i ∈ Buckets.members (keyGroup keys groupCount) keys.length g) :
      i < keys.length ∧ keyGroup keys groupCount i = g := by
    simpa [Buckets.members] using hi
  have hdisp : (UInt16.ofNat d).toNat = d := by
    refine UInt16.toNat_ofNat_of_lt' ?_
    unfold httpHeaderTableMaxSize at hmax
    unfold UInt16.size
    omega
  refine ⟨(length_fillSlots _ _ _).trans hp.slots, length_set.trans hp.displacement, ?_, ?_⟩
  · intro pos i hi
    rcases mem_of_slotAt_fillSlots hi with hold | hnew
    · exact hp.key pos i hold
    · exact (hmem hnew).1
  · intro i hi hdone
    dsimp only
    by_cases hig : keyGroup keys groupCount i = g
    · -- a key of the new group
      have himem : i ∈ Buckets.members (keyGroup keys groupCount) keys.length g := by
        simpa [Buckets.members] using ⟨hi, hig⟩
      have hset : displacementAt (p.displacement.set g (.ofNat d)) g = .ofNat d := by
        rw [displacementAt, getElem?_set_self (by rw [hp.displacement]; exact hg)]
        rfl
      rw [hig, hset, hdisp]
      refine slotAt_fillSlots hnodup (fun j _ => ?_) himem
      rw [hp.slots]
      exact and_pred_lt _ hsize
    · -- a key that was placed before: its slot was not free
      have hold := hp.found i hi ((mem_cons.mp hdone).resolve_left hig)
      have hset : displacementAt (p.displacement.set g (.ofNat d)) (keyGroup keys groupCount i) =
          displacementAt p.displacement (keyGroup keys groupCount i) := by
        rw [displacementAt, getElem?_set_ne (Ne.symm hig), displacementAt]
      rw [hset, slotAt_fillSlots_of_notMem, hold]
      intro hpos
      obtain ⟨j, hj, hjpos⟩ := mem_map.mp hpos
      have hnone := hfree j hj
      rw [hjpos, hold] at hnone
      cases hnone

theorem compareGroups_le {l r : Group} : compareGroups l r ≤ 0 ↔
    r.size < l.size ∨ (l.size = r.size ∧ l.index ≤ r.index) := by
  unfold compareGroups
  split
  · split
    · simp only [Int.reduceNeg, Int.reduceLE, true_iff]
      omega
    · simp only [Int.reduceLE, false_iff]
      omega
  · split
    · simp only [Int.reduceNeg, Int.reduceLE, true_iff]
      omega
    · split
      · simp only [Int.reduceLE, false_iff]
        omega
      · simp only [le_refl, true_iff]
        omega

instance : Std.Total fun l r : Group => compareGroups l r ≤ 0 where
  total l r := by
    rw [compareGroups_le, compareGroups_le]
    omega

instance : IsTrans Group fun l r => compareGroups l r ≤ 0 where
  trans l m r := by
    rw [compareGroups_le, compareGroups_le, compareGroups_le]
    omega

/-- The loop over the groups. Where it stops, only empty groups are left. -/
theorem Placed.placeGroups {groups : List Group} {segment : Group → List ℕ} {done : List ℕ}
    {p p' : Placement} (hp : Placed keys tableSize groupCount done p)
    (hsize : 0 < tableSize) (hmax : tableSize ≤ httpHeaderTableMaxSize)
    (hsorted : groups.Pairwise fun l r => compareGroups l r ≤ 0)
    (hsegment : ∀ g ∈ groups, g.index < groupCount ∧
      segment g = Buckets.members (keyGroup keys groupCount) keys.length g.index ∧
      g.size = (segment g).length) (h : placeGroups keys tableSize segment groups p = some p'):
    Placed keys tableSize groupCount (groups.map Group.index ++ done) p' := by
  induction groups generalizing done p with
  | nil =>
    obtain rfl := Option.some.inj h
    exact hp
  | cons g groups ih =>
    rw [pairwise_cons] at hsorted
    unfold Http.placeGroups at h
    split at h
    · next hzero =>
      obtain rfl := Option.some.inj h
      refine ⟨hp.slots, hp.displacement, hp.key, fun i hi hmem => ?_⟩
      rcases mem_append.mp hmem with hmem | hmem
      · -- no key is in an empty group
        obtain ⟨g', hg', hindex⟩ := mem_map.mp hmem
        obtain ⟨-, hseg, hlength⟩ := hsegment g' hg'
        have hempty : g'.size = 0 := by
          rcases mem_cons.mp hg' with rfl | hg'
          · exact hzero
          · rcases compareGroups_le.mp (hsorted.1 g' hg') with hlt | ⟨heq, -⟩
            · omega
            · omega
        have himem : i ∈ segment g' := by
          rw [hseg]
          simpa [Buckets.members] using ⟨hi, hindex.symm⟩
        rw [length_eq_zero_iff.mp (hlength.symm.trans hempty)] at himem
        cases himem
      · exact hp.found i hi hmem
    · split at h
      · cases h
      · next d found hsearch =>
        obtain ⟨hindex, hseg, -⟩ := hsegment g mem_cons_self
        rw [hseg] at hsearch h
        have hrest := ih (hp.step hsize hmax hindex hsearch) hsorted.2
          (fun g' hg' => hsegment g' (mem_cons_of_mem _ hg')) h
        refine ⟨hrest.slots, hrest.displacement, hrest.key, fun i hi hmem => hrest.found i hi ?_⟩
        simp only [map_cons, cons_append, mem_cons, mem_append] at hmem ⊢
        tauto

/-- **Placement.** If `placeHeaderKeys` succeeds, every key is in the slot for its hash. -/
theorem placed_of_some (hsize : 0 < tableSize) (hmax : tableSize ≤ httpHeaderTableMaxSize)
    (hcount : 0 < groupCount) {p : Placement} (h : placeHeaderKeys keys tableSize groupCount = some p):
    Placed keys tableSize groupCount (List.range groupCount) p := by
  have hgroup : ∀ i < keys.length, keyGroup keys groupCount i < groupCount := fun i _ =>
    and_pred_lt _ hcount
  let groups := (List.range groupCount).map fun i =>
    (⟨i, Buckets.get (Buckets.sizes (keyGroup keys groupCount) groupCount keys.length) i⟩ : Group)
  have hstart : Placed keys tableSize groupCount []
      ⟨List.replicate tableSize none, List.replicate groupCount 0⟩ := by
    refine ⟨length_replicate, length_replicate, fun pos i hi => ?_, fun i _ hmem => ?_⟩
    · rw [slotAt, getElem?_replicate] at hi
      split at hi <;> cases hi
    · cases hmem
  have hmem {g : Group} (hg : g ∈ groups.insertionSort fun l r => compareGroups l r ≤ 0) :
      g.index < groupCount ∧ g.size = Buckets.get
        (Buckets.sizes (keyGroup keys groupCount) groupCount keys.length) g.index := by
    rw [mem_insertionSort] at hg
    obtain ⟨i, hi, rfl⟩ := mem_map.mp hg
    exact ⟨mem_range.mp hi, rfl⟩
  have hplaced : Placed keys tableSize groupCount
      ((groups.insertionSort fun l r => compareGroups l r ≤ 0).map Group.index ++ []) p := by
    refine hstart.placeGroups hsize hmax (pairwise_insertionSort _ _) (fun g hg => ?_) h
    obtain ⟨hindex, hgsize⟩ := hmem hg
    have hsegment := Buckets.segment_eq hgroup hindex
    rw [← hgsize] at hsegment
    exact ⟨hindex, hsegment, by simp⟩
  refine ⟨hplaced.slots, hplaced.displacement, hplaced.key, fun i hi hrange => hplaced.found i hi ?_⟩
  rw [append_nil]
  have hperm := (perm_insertionSort (fun l r => compareGroups l r ≤ 0) groups).map Group.index
  refine hperm.mem_iff.mpr (mem_map.mpr ⟨⟨_, _⟩, mem_map.mpr ⟨_, hrange, rfl⟩, rfl⟩)

end Place

/-! ### The table -/

theorem firstSize_pos (keyCount fuel : ℕ) {tableSize : ℕ} (h : 0 < tableSize) :
    0 < firstSize keyCount fuel tableSize := by
  induction fuel generalizing tableSize with
  | zero => exact h
  | succ fuel ih =>
    unfold firstSize
    split
    · exact ih (Nat.mul_pos h Nat.two_pos)
    · exact h

theorem mem_tableSizes {keyCount tableSize : ℕ} (h : tableSize ∈ tableSizes keyCount) :
    0 < tableSize ∧ tableSize ≤ httpHeaderTableMaxSize := by
  refine ⟨?_, by simpa using mem_takeWhile_imp h⟩
  obtain ⟨i, -, rfl⟩ := mem_map.mp ((List.takeWhile_prefix _).subset h)
  exact Nat.mul_pos (firstSize_pos _ _ Nat.one_pos) (Nat.two_pow_pos i)

theorem mem_groupCounts {tableSize groupCount : ℕ} (h : groupCount ∈ groupCounts tableSize) :
    0 < groupCount := by
  have hle := mem_takeWhile_imp h
  rw [decide_eq_true_eq] at hle
  split at hle
  · omega
  · omega

variable {keys : List TokenEntry}

theorem searchShape_eq_some {alloc : Allocator} {sizes : List ℕ}
    {tableSize groupCount : ℕ} {p : Placement}
    (h : searchShape alloc keys sizes = some (tableSize, groupCount, p)) :
    tableSize ∈ sizes ∧ groupCount ∈ groupCounts tableSize ∧
      placeHeaderKeys keys tableSize groupCount = some p := by
  induction sizes with
  | nil => cases h
  | cons size sizes ih =>
    unfold searchShape at h
    split at h
    · cases h
    split at h
    · next shape hshape =>
      obtain rfl := Option.some.inj h
      obtain ⟨g, hg, hmap⟩ := exists_of_findSome?_eq_some hshape
      obtain ⟨p', hp', heq⟩ := map_eq_some_iff.mp hmap
      cases heq
      exact ⟨mem_cons_self, hg, hp'⟩
    · obtain ⟨hmem, hrest⟩ := ih h
      exact ⟨mem_cons_of_mem _ hmem, hrest⟩

/-- A mask does not see what is above it. -/
theorem mod_and {a w mask : ℕ} (h : mask < 2 ^ w) : a % 2 ^ w &&& mask = a &&& mask := by
  refine Nat.eq_of_testBit_eq fun i => ?_
  rw [Nat.testBit_and, Nat.testBit_and, Nat.testBit_mod_two_pow]
  by_cases hi : i < w
  · rw [decide_eq_true hi, Bool.true_and]
  · rw [Nat.testBit_lt_two_pow (h.trans_le (Nat.pow_le_pow_right Nat.two_pos (Nat.le_of_not_lt hi))),
      Bool.and_false, Bool.and_false]

/-- What a table has to do with its keys. -/
structure Holds (keys : List TokenEntry) (table : HeaderTable) : Prop where
  /-- Every key is in the slot for its hash. -/
  found : ∀ i < keys.length,
    table.entries[slotOf table (keyHash keys i)]? = some (slotEntry keys (some i))
  /-- Nothing else is in the slots. -/
  entry : ∀ entry ∈ table.entries, entry = emptyEntry ∨
    ∃ i < keys.length, entry = slotEntry keys (some i)

variable {table : HeaderTable}

theorem holds_of_some {alloc : Allocator}
    (h : buildHeaderTable alloc keys = some table) : Holds keys table := by
  unfold buildHeaderTable at h
  split at h
  · cases h
  next tableSize groupCount p hshape =>
  split at h
  · cases h
  obtain rfl := Option.some.inj h
  obtain ⟨hsize, hcount, hplace⟩ := searchShape_eq_some hshape
  obtain ⟨hpos, hmax⟩ := mem_tableSizes hsize
  have hplaced := placed_of_some hpos hmax (mem_groupCounts hcount) hplace
  refine ⟨fun i hi => ?_, fun entry hentry => ?_⟩
  · have hfound := hplaced.found i hi (mem_range.mpr (and_pred_lt _ (mem_groupCounts hcount)))
    -- the lookup adds in 32 bits, the placement did not
    have hslot : slotOf ⟨p.slots.map (slotEntry keys), p.displacement, tableSize, groupCount, true⟩
        (keyHash keys i) = keySlot keys tableSize
          (displacementAt p.displacement (keyGroup keys groupCount i)).toNat i := by
      have hmask : tableSize - 1 < 2 ^ 32 := by
        unfold httpHeaderTableMaxSize at hmax
        omega
      rw [slotOf, keySlot, UInt32.toNat_add, UInt16.toNat_toUInt32, mod_and hmask]
      rfl
    rw [hslot]
    unfold slotAt at hfound
    match hget : p.slots[keySlot keys tableSize
        (displacementAt p.displacement (keyGroup keys groupCount i)).toNat i]? with
    | none =>
      rw [hget] at hfound
      cases hfound
    | some slot =>
      rw [hget] at hfound
      rw [getElem?_map, hget, ← hfound]
      rfl
  · obtain ⟨slot, hslot, rfl⟩ := mem_map.mp hentry
    cases slot with
    | none => exact .inl rfl
    | some i =>
      obtain ⟨pos, hpos, hget⟩ := getElem_of_mem hslot
      refine .inr ⟨i, hplaced.key pos i ?_, rfl⟩
      rw [slotAt, getElem?_eq_getElem hpos, hget]
      rfl

/-! ### Names -/

/-- The bytes of a token of RFC 9110: letters, digits and some marks. -/
def isTchar (c : UInt8) : Bool :=
  (48 ≤ c && c ≤ 57) || (65 ≤ c && c ≤ 90) || (97 ≤ c && c ≤ 122) || c ∈ bytes "!#$%&'*+-.^_`|~"

/-- A letter in lower case. -/
def lower (c : UInt8) : UInt8 := if 65 ≤ c ∧ c ≤ 90 then c + 32 else c

/-- `httpTokenFoldTable` gives tokens in lower case, and `0` for what is not allowed in one. -/
theorem httpTokenFoldTable_eq (c : UInt8) :
    httpTokenFoldTable c = if isTchar c then lower c else 0 := by
  have hall : ∀ n : Fin 256, httpTokenFoldTable (.ofNat n) =
      if isTchar (.ofNat n) then lower (.ofNat n) else 0 := by decide +kernel
  have hc := hall ⟨c.toNat, c.toNat_lt⟩
  rwa [UInt8.ofNat_toNat] at hc

theorem isTchar_iff (c : UInt8) : isTchar c = true ↔ httpTokenFoldTable c ≠ 0 := by
  have hall : ∀ n : Fin 256, isTchar (.ofNat n) = true ↔ httpTokenFoldTable (.ofNat n) ≠ 0 := by
    decide +kernel
  have hc := hall ⟨c.toNat, c.toNat_lt⟩
  rwa [UInt8.ofNat_toNat] at hc

/-- A token. -/
def IsToken (name : List UInt8) : Prop := name ≠ [] ∧ ∀ c ∈ name, isTchar c = true

/-- Equal up to the case of letters. -/
def EqualFold (name name' : List UInt8) : Prop := name.map lower = name'.map lower

instance (name name' : List UInt8) : Decidable (EqualFold name name') :=
  inferInstanceAs (Decidable (_ = _))

variable {name : List UInt8}

theorem map_fold_eq (h : IsToken name) :
    name.map httpTokenFoldTable = name.map lower := by
  refine map_congr_left fun c hc => ?_
  rw [httpTokenFoldTable_eq, if_pos (h.2 c hc)]

/-- The hash of a name. -/
def nameHash (name : List UInt8) : UInt64 := (name.map httpTokenFoldTable).foldl fnv fnvBasis

theorem scanToken_append (h : ∀ c ∈ name, isTchar c = true) (hash : UInt64) (before rest : List UInt8):
    scanToken 58 httpTokenFoldTable hash before (name ++ 58 :: rest) =
      .ok ((name.map httpTokenFoldTable).foldl fnv hash, before ++ name) (58 :: rest) := by
  induction name generalizing hash before with
  | nil =>
    rw [nil_append, scanToken, if_pos rfl, append_nil]
    rfl
  | cons c name ih =>
    have hc := h c mem_cons_self
    have hcolon : c ≠ 58 := by
      rintro rfl
      exact absurd hc (by decide)
    rw [cons_append, scanToken, if_neg hcolon, if_neg ((isTchar_iff c).mp hc),
      ih fun c hc => h c (mem_cons_of_mem _ hc), append_assoc]
    rfl

/-! ### Keys -/

/-- A C string ends before its first NUL. -/
def cstring (name : List UInt8) : List UInt8 := name.takeWhile (· ≠ 0)

/-- The name of a key. -/
def TokenEntry.text (key : TokenEntry) : List UInt8 := (key.name.getD []).take key.length.toNat

/-- The length and the hash of a key are those of its name. -/
structure TokenEntry.Valid (key : TokenEntry) : Prop where
  name : key.name.isSome
  token : IsToken key.text
  length : key.length.toNat = key.text.length
  hash : key.hash = nameHash key.text

theorem hashName_eq_some {hash hash' : UInt64} {length length' : ℕ}
    (h : hashName hash length name = some (hash', length')) :
    (∀ c ∈ cstring name, isTchar c = true) ∧ length' = length + (cstring name).length ∧
      hash' = ((cstring name).map httpTokenFoldTable).foldl fnv hash := by
  induction name generalizing hash length with
  | nil =>
    cases h
    exact ⟨nofun, rfl, rfl⟩
  | cons c name ih =>
    unfold hashName at h
    unfold cstring at ih ⊢
    by_cases hc : c = 0
    · rw [if_pos hc] at h
      cases h
      rw [takeWhile_cons_of_neg (by simpa using hc)]
      exact ⟨nofun, rfl, rfl⟩
    · rw [if_neg hc] at h
      split at h
      · cases h
      next hfold =>
      obtain ⟨htoken, hlength, hhash⟩ := ih h
      rw [takeWhile_cons_of_pos (by simpa using hc)]
      refine ⟨?_, ?_, hhash⟩
      · intro d hd
        rcases mem_cons.mp hd with rfl | hd
        · exact (isTchar_iff d).mpr hfold
        · exact htoken d hd
      · rw [hlength, length_cons]
        omega

/-- The name of an entry. -/
def HeaderTableEntry.text (entry : HeaderTableEntry) : List UInt8 := cstring (entry.name.getD [])

variable {key : TokenEntry}

theorem entryKey_eq_some {entry : HeaderTableEntry} (h : entryKey entry = some key):
    key.Valid ∧ key.text = entry.text ∧ key.value = entry.id := by
  unfold entryKey at h
  split at h
  · cases h
  next name hname =>
  split at h
  swap
  · cases h
  split at h
  · cases h
  next hash length hhash =>
  obtain rfl := Option.some.inj h
  unfold hashHeaderName at hhash
  split at hhash
  · cases hhash
  next hash' length' hloop =>
  split at hhash
  · cases hhash
  next hbound =>
  obtain ⟨rfl, rfl⟩ := Prod.mk.inj (Option.some.inj hhash)
  obtain ⟨htoken, hlength, hhash⟩ := hashName_eq_some hloop
  rw [Nat.zero_add] at hlength
  have hnat : (UInt32.ofNat length').toNat = length' :=
    UInt32.toNat_ofNat_of_lt' (by unfold UInt32.size; omega)
  have htext : name.take (UInt32.ofNat length').toNat = cstring name := by
    rw [hnat, hlength]
    exact (prefix_iff_eq_take.mp (List.takeWhile_prefix _)).symm
  have hentry : entry.text = cstring name := by rw [HeaderTableEntry.text, hname]; rfl
  refine ⟨⟨rfl, ⟨?_, ?_⟩, ?_, ?_⟩, ?_, rfl⟩
  · intro hnil
    rw [TokenEntry.text, getD_some, htext] at hnil
    rw [hnil, length_nil] at hlength
    omega
  · rw [TokenEntry.text, getD_some, htext]
    exact htoken
  · rw [TokenEntry.text, getD_some, htext, hnat, hlength]
  · rw [TokenEntry.text, getD_some, htext]
    exact hhash
  · rw [TokenEntry.text, getD_some, htext, hentry]

/-- A check that can be run on the keys of a fixed table. -/
theorem valid_of_check {keys : List TokenEntry} (hkeys : ∀ key ∈ keys, key.name.isSome ∧
      (key.text ≠ [] ∧ key.text.all isTchar = true) ∧
      key.length.toNat = key.text.length ∧ key.hash = nameHash key.text) : ∀ key ∈ keys, key.Valid := by
  intro key hkey
  obtain ⟨hname, ⟨hne, hall⟩, hlength, hhash⟩ := hkeys key hkey
  exact ⟨hname, ⟨hne, all_eq_true.mp hall⟩, hlength, hhash⟩

theorem valid_of_mem_reservedKeys : ∀ key ∈ reservedKeys, key.Valid :=
  valid_of_check (by decide +kernel)

/-- If no two neighbours of a sorted list are equal, no two elements are. -/
theorem nodup_of_distinctNeighbours {hashes : List UInt64} (hsorted : hashes.Pairwise (· ≤ ·))
    (h : distinctNeighbours hashes = true) : hashes.Nodup := by
  suffices hlt : hashes.Pairwise (· < ·) from hlt.imp UInt64.ne_of_lt
  induction hashes with
  | nil => exact .nil
  | cons a hashes ih =>
    rw [pairwise_cons] at hsorted
    cases hashes with
    | nil => exact pairwise_singleton _ _
    | cons b hashes =>
      rw [distinctNeighbours, Bool.and_eq_true, bne_iff_ne] at h
      have hrest := ih hsorted.2 h.2
      refine pairwise_cons.mpr ⟨fun c hc => ?_, hrest⟩
      have hab : a < b := UInt64.lt_of_le_of_ne (hsorted.1 b mem_cons_self) h.1
      rcases mem_cons.mp hc with rfl | hc
      · exact hab
      · exact UInt64.lt_trans hab ((pairwise_cons.mp hrest).1 c hc)

/-! ### Lookup -/

/-- What a table says about a name. -/
def valueOf (keys : List TokenEntry) (name : List UInt8) : Int :=
  match keys.find? fun key => EqualFold key.text name with
  | some key => key.value
  | none => 0

theorem slotEntry_some {i : ℕ} (h : keys[i]? = some key) (hname : key.name.isSome):
    slotEntry keys (some i) = ⟨some key.text, key.length, key.value, key.hash⟩ := by
  obtain ⟨name, hname⟩ := isSome_iff_exists.mp hname
  rw [slotEntry, h, TokenEntry.text, getD_some, hname]
  rfl

theorem map_fold_eq_iff {name name' : List UInt8} (h : IsToken name) (h' : IsToken name') :
    name.map httpTokenFoldTable = name'.map httpTokenFoldTable ↔ EqualFold name name' := by
  rw [map_fold_eq h, map_fold_eq h', EqualFold]

/-- A lookup compares with what is in the slot. -/
theorem lookup_of_slot (hname : IsToken name) (rest : List UInt8):
    httpHeaderTableLookup table (name ++ 58 :: rest) =
      match table.entries[slotOf table (nameHash name)]?.getD emptyEntry with
      | ⟨none, _, _, _⟩ => .ok (0, name) (58 :: rest)
      | ⟨some entryName, length, value, hash⟩ =>
        if hash = nameHash name ∧ length.toNat = name.length ∧
            (entryName.take name.length).map httpTokenFoldTable = name.map httpTokenFoldTable then
          .ok (value, name) (58 :: rest)
        else .ok (0, name) (58 :: rest) := by
  rw [httpHeaderTableLookup, lookupToken, scanToken_append hname.2]
  have hhash : (name.map httpTokenFoldTable).foldl fnv fnvBasis = nameHash name := rfl
  dsimp only
  rw [nil_append, if_neg (by simpa using hname.1), hhash]
  generalize table.entries[slotOf table (nameHash name)]?.getD emptyEntry = entry
  obtain ⟨entryName, length, value, hash⟩ := entry
  cases entryName <;> rfl

/-- **The lookup is exact.** -/
theorem Holds.lookup (h : Holds keys table) (hvalid : ∀ key ∈ keys, key.Valid) (hname : IsToken name)
    (rest : List UInt8) :
    httpHeaderTableLookup table (name ++ 58 :: rest) = .ok (valueOf keys name, name) (58 :: rest) := by
  rw [lookup_of_slot hname, valueOf]
  cases hfind : keys.find? fun key => EqualFold key.text name with
  | some key =>
    have hkey := hvalid key (mem_of_find?_eq_some hfind)
    have hequal : EqualFold key.text name := by simpa using find?_some hfind
    have hfold := (map_fold_eq_iff hkey.token hname).mpr hequal
    have hlength : key.text.length = name.length := by simpa using congrArg List.length hfold
    have hhash : key.hash = nameHash name := by rw [hkey.hash, nameHash, hfold, nameHash]
    obtain ⟨i, hi, hget⟩ := getElem_of_mem (mem_of_find?_eq_some hfind)
    have hget? : keys[i]? = some key := by rw [getElem?_eq_getElem hi, hget]
    have hfound := h.found i hi
    rw [keyHash, hget?, getD_some, hhash, slotEntry_some hget? hkey.name] at hfound
    rw [hfound, getD_some]
    dsimp only
    rw [if_pos ⟨hhash, hkey.length.trans hlength, by rw [← hlength, take_length, hfold]⟩]
  | none =>
    have hnone := find?_eq_none.mp hfind
    cases hget : table.entries[slotOf table (nameHash name)]? with
    | none => rfl
    | some entry =>
      rw [getD_some]
      obtain rfl | ⟨i, hi, rfl⟩ := h.entry entry (mem_of_getElem? hget)
      · rfl
      · -- the name is not the one of the key in its slot
        have hkey := hvalid keys[i] (getElem_mem hi)
        rw [slotEntry_some (getElem?_eq_getElem hi) hkey.name]
        dsimp only
        refine if_neg fun hmatch => hnone keys[i] (getElem_mem hi) ?_
        obtain ⟨-, hlength, hfold⟩ := hmatch
        rw [← hlength, hkey.length, take_length, map_fold_eq_iff hkey.token hname] at hfold
        exact decide_eq_true hfold

/-! ### Tables that were prepared -/

/-- The id for a name: the one of the user, or the reserved one. -/
def idOf (entries : List HeaderTableEntry) (name : List UInt8) : Int :=
  match entries.find? fun entry => EqualFold entry.text name with
  | some entry => entry.id
  | none => valueOf reservedKeys name

variable {entries : List HeaderTableEntry}

/-- The keys of the entries, one by one. -/
theorem forall_of_mapM (h : entries.mapM entryKey = some keys):
    List.Forall₂ (fun entry key => entryKey entry = some key) entries keys := by
  induction entries generalizing keys with
  | nil =>
    cases h
    exact .nil
  | cons entry entries ih =>
    rw [mapM_cons] at h
    obtain ⟨key, hkey, h⟩ := bind_eq_some_iff.mp h
    obtain ⟨rest, hrest, h⟩ := bind_eq_some_iff.mp h
    cases h
    exact .cons hkey (ih hrest)

theorem valueOf_append (h : List.Forall₂ (fun entry key => entryKey entry = some key) entries keys)
    (name : List UInt8) : valueOf (keys ++ reservedKeys) name = idOf entries name := by
  induction h with
  | nil => rfl
  | @cons entry key entries keys hkey hrest ih =>
    obtain ⟨-, htext, hvalue⟩ := entryKey_eq_some hkey
    unfold valueOf idOf at ih ⊢
    rw [cons_append, find?_cons, find?_cons, htext]
    by_cases hequal : EqualFold entry.text name
    · rw [decide_eq_true hequal]
      exact hvalue
    · rw [decide_eq_false hequal]
      exact ih

theorem map_hash_eq (h : List.Forall₂ (fun entry key => entryKey entry = some key) entries keys):
    keys.map TokenEntry.hash = entries.map fun entry => nameHash entry.text := by
  induction h with
  | nil => rfl
  | cons hkey hrest ih =>
    obtain ⟨hvalid, htext, -⟩ := entryKey_eq_some hkey
    rw [map_cons, map_cons, ih, hvalid.hash, htext]

theorem valid_of_forall (h : List.Forall₂ (fun entry key => entryKey entry = some key) entries keys):
    (∀ key ∈ keys, key.Valid) ∧ ∀ entry ∈ entries, IsToken entry.text := by
  induction h with
  | nil => exact ⟨nofun, nofun⟩
  | cons hkey hrest ih =>
    obtain ⟨hvalid, htext, -⟩ := entryKey_eq_some hkey
    exact ⟨forall_mem_cons.mpr ⟨hvalid, ih.1⟩, forall_mem_cons.mpr ⟨htext ▸ hvalid.token, ih.2⟩⟩

/-- How `httpHeaderTablePrepare` ends. -/
theorem prepare_cases (alloc : Allocator) (entries : List HeaderTableEntry) :
    httpHeaderTablePrepare alloc entries = (false, .zero) ∨
    ∃ keys table, httpHeaderTablePrepare alloc entries = (true, table) ∧
      List.Forall₂ (fun entry key => entryKey entry = some key) entries keys ∧
      ((keys ++ reservedKeys).map TokenEntry.hash).Nodup ∧ Holds (keys ++ reservedKeys) table := by
  unfold httpHeaderTablePrepare
  split
  · exact .inl rfl
  split
  · exact .inl rfl
  split
  · exact .inl rfl
  next keys hkeys =>
  dsimp only
  split
  swap
  · exact .inl rfl
  next hdistinct =>
  split
  swap
  · exact .inl rfl
  next table htable =>
  refine .inr ⟨keys, table, rfl, forall_of_mapM hkeys, ?_, holds_of_some htable⟩
  have hnodup := nodup_of_distinctNeighbours (pairwise_insertionSort _ _) hdistinct
  exact (perm_insertionSort _ _).nodup_iff.mp hnodup

theorem nameHash_eq_of_equalFold {name name' : List UInt8} (h : IsToken name) (h' : IsToken name')
    (hequal : EqualFold name name') : nameHash name = nameHash name' := by
  rw [nameHash, (map_fold_eq_iff h h').mpr hequal, nameHash]

/-- If the hashes of the names are different, every entry is found. -/
theorem idOf_text (htoken : ∀ entry ∈ entries, IsToken entry.text)
    (hnodup : (entries.map fun entry => nameHash entry.text).Nodup) {entry : HeaderTableEntry}
    (hentry : entry ∈ entries) : idOf entries entry.text = entry.id := by
  unfold idOf
  cases hfind : entries.find? fun entry' => EqualFold entry'.text entry.text with
  | none => exact absurd (decide_eq_true rfl) (find?_eq_none.mp hfind entry hentry)
  | some entry' =>
    have hmem := mem_of_find?_eq_some hfind
    have hequal : EqualFold entry'.text entry.text := by simpa using find?_some hfind
    have hhash := nameHash_eq_of_equalFold (htoken _ hmem) (htoken _ hentry) hequal
    rw [inj_on_of_nodup_map hnodup hmem hentry hhash]

/-- If no entry has the hash of a reserved name, the reserved name is found. -/
theorem idOf_reserved (htoken : ∀ entry ∈ entries, IsToken entry.text) (hkey : key ∈ reservedKeys)
    (hdisjoint : ∀ entry ∈ entries, nameHash entry.text ≠ key.hash) :
    idOf entries key.text = key.value := by
  have hvalid := valid_of_mem_reservedKeys key hkey
  have hreserved : ∀ key ∈ reservedKeys, valueOf reservedKeys key.text = key.value := by decide +kernel
  have hfind : (entries.find? fun entry => EqualFold entry.text key.text) = none := by
    refine find?_eq_none.mpr fun entry hentry hequal => hdisjoint entry hentry ?_
    rw [decide_eq_true_eq] at hequal
    rw [hvalid.hash, nameHash_eq_of_equalFold (htoken _ hentry) hvalid.token hequal]
  rw [idOf, hfind]
  exact hreserved key hkey

/-- **Header tables are exact.** Whatever allocations fail, a table that was not prepared is zero. In one
that was prepared, no two entries have the same name, up to the case of letters, and the lookup of a
token finds the id of the entry with that name, or the reserved id, or `0`; in particular it finds every
entry and every reserved name. -/
theorem header_table_exact (alloc : Allocator) (entries : List HeaderTableEntry) :
    ((httpHeaderTablePrepare alloc entries).1 = false →
      (httpHeaderTablePrepare alloc entries).2 = .zero) ∧
    ((httpHeaderTablePrepare alloc entries).1 = true →
      (entries.Pairwise fun entry entry' => ¬ EqualFold entry.text entry'.text) ∧
      (∀ name, IsToken name → ∀ rest,
        httpHeaderTableLookup (httpHeaderTablePrepare alloc entries).2 (name ++ 58 :: rest) =
          .ok (idOf entries name, name) (58 :: rest)) ∧
      (∀ entry ∈ entries, ∀ rest,
        httpHeaderTableLookup (httpHeaderTablePrepare alloc entries).2 (entry.text ++ 58 :: rest) =
          .ok (entry.id, entry.text) (58 :: rest)) ∧
      ∀ key ∈ reservedKeys, ∀ rest,
        httpHeaderTableLookup (httpHeaderTablePrepare alloc entries).2 (key.text ++ 58 :: rest) =
          .ok (key.value, key.text) (58 :: rest)) := by
  obtain hzero | ⟨keys, table, htrue, hkeys, hnodup, hholds⟩ := prepare_cases alloc entries
  · rw [hzero]
    exact ⟨fun _ => rfl, nofun⟩
  rw [htrue]
  refine ⟨nofun, fun _ => ?_⟩
  obtain ⟨hvalid, htoken⟩ := valid_of_forall hkeys
  have hlookup : ∀ name, IsToken name → ∀ rest, httpHeaderTableLookup table (name ++ 58 :: rest) =
      .ok (idOf entries name, name) (58 :: rest) := by
    intro name hname rest
    rw [← valueOf_append hkeys]
    refine hholds.lookup (fun key hkey => ?_) hname rest
    rcases mem_append.mp hkey with hkey | hkey
    · exact hvalid key hkey
    · exact valid_of_mem_reservedKeys key hkey
  rw [map_append, map_hash_eq hkeys, nodup_append] at hnodup
  obtain ⟨hentries, -, hdisjoint⟩ := hnodup
  refine ⟨?_, hlookup, fun entry hentry rest => ?_, fun key hkey rest => ?_⟩
  · refine (pairwise_map.mp hentries).imp_of_mem fun hmem hmem' hne hequal => hne ?_
    exact nameHash_eq_of_equalFold (htoken _ hmem) (htoken _ hmem') hequal
  · rw [hlookup _ (htoken entry hentry), idOf_text htoken hentries hentry]
  · rw [hlookup _ (valid_of_mem_reservedKeys key hkey).token, idOf_reserved htoken hkey]
    intro entry hentry
    exact hdisjoint _ (mem_map_of_mem hentry) _ (mem_map_of_mem hkey)

/-- A user entry is found in another spelling, next to the reserved names. -/
theorem header_table_exact_accept :
    httpHeaderTableLookup
        (httpHeaderTablePrepare ⟨true, fun _ => true, true⟩ [⟨some (bytes "Accept"), 7⟩]).2
        (bytes "aCCEPT" ++ 58 :: [32]) = .ok (7, bytes "aCCEPT") (58 :: [32]) :=
  ((header_table_exact ⟨true, fun _ => true, true⟩ [⟨some (bytes "Accept"), 7⟩]).2
    (by decide +kernel)).2.1 (bytes "aCCEPT") ⟨by decide, all_eq_true.mp (by decide)⟩ [32]

end Http

end Asyncio
