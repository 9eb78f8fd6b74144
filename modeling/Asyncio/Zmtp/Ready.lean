import Asyncio.Wire.Machine
import Asyncio.Xmstream.Scalars

/-!
# The READY command

Before they exchange messages, two ZMTP peers tell each other what they are in a command READY. It is the
name of the command after its length, and a list of properties, each with its key after its length in one
byte and its value after its length in four.

A pointer into the command is its offset from the start of the command. `cmdData` is a stream of its own over
the properties, so what it finds is moved by where the properties begin. A string of the caller is what may
be read of it, its NUL included.

## Main results

* `yields_readReady` — what the loop over the properties comes to
* `ready_codec` — what is written is read back, and what is accepted is well formed
-/

namespace Asyncio

namespace Zmtp

open Wire Xmstream List Option

/-! ### Code -/

/-- `RawData` -/
structure RawData where
  data : Option ℕ
  size : UInt64

/-- The bytes it points to. -/
def RawData.bytes (d : RawData) (m : Memory) : List UInt8 :=
  match d.data with
  | none => []
  | some p => slice m p d.size.toNat

/-- `rawDataCmp` -/
def rawDataCmp (memory : Memory) (data : RawData) (m : List UInt8) : Bool :=
  data.size.toNat == m.length && data.bytes memory == m

/-- `asciiLower` -/
def asciiLower (c : UInt8) : UInt8 := if c ≥ 65 ∧ c ≤ 90 then c + 32 else c

/-- `metadataKeyCmp` -/
def metadataKeyCmp (memory : Memory) (key : RawData) (m : List UInt8) : Bool :=
  key.size.toNat == m.length &&
    ((key.bytes memory).zip m).all fun (c, c') => asciiLower c == asciiLower c'

/-- `readKeyValue`; nothing is done with a part of a property. -/
def readKeyValue (order : ByteOrder) (s : Stream) : Option (RawData × RawData × Stream) :=
  if s.remaining < 1 then none
  else
    let (keySize, s) := s.read8
    if keySize.toNat > s.remaining then none
    else
      let (keyData, s) := s.seek 1 keySize.toUInt64.toInt64
      if s.remaining < 4 then none
      else
        let (valueSize, s) := s.read32be order
        if valueSize.toNat > s.remaining then none
        else
          let (valueData, s) := s.seek 1 valueSize.toUInt64.toInt64
          some (⟨keyData, keySize.toUInt64⟩, ⟨valueData, valueSize.toUInt64⟩, s)

/-- `readCommand` -/
def readCommand (s : Stream) : Option (RawData × RawData × Stream) :=
  let (nameSize, s) := s.read8
  match s.seek 1 nameSize.toUInt64.toInt64 with
  | (none, _) => none
  | (some name, s) =>
    let dataSize : UInt64 := .ofNat s.remaining
    let (data, s) := s.seek 1 dataSize.toInt64
    some (⟨some name, nameSize.toUInt64⟩, ⟨data, dataSize⟩, s)

def sSocketType : List UInt8 := ascii "Socket-Type"

def sIdentity : List UInt8 := ascii "Identity"

/-- Between two turns of the loop of `readReadyCmd`. -/
structure ReadyState where
  cmdData : Stream
  socketType : RawData
  identity : RawData

/-- What `readReadyCmd` answers, and what it leaves in its arguments. -/
structure ReadyResult where
  ok : Bool
  socketType : RawData
  identity : RawData

/-- A pointer of `cmdData`, in the command. -/
def RawData.moved (d : RawData) (base : ℕ) : RawData := { d with data := d.data.map (base + ·) }

/-- What a pointer of `s` points into. -/
def memoryIn (s : Stream) : Memory := s.m.getD fun _ => 0

/-- One turn of the loop of `readReadyCmd`; the properties begin at `base`. -/
def readReadyTurn (order : ByteOrder) (base : ℕ) (l : ReadyState) : Turn ReadyState ReadyResult :=
  if l.cmdData.remaining = 0 then .done ⟨l.socketType.data.isSome, l.socketType, l.identity⟩
  else
    match readKeyValue order l.cmdData with
    | none => .done ⟨false, l.socketType, l.identity⟩
    | some (key, value, cmdData) =>
      let m := memoryIn l.cmdData
      .next ⟨cmdData, if metadataKeyCmp m key sSocketType then value.moved base else l.socketType,
        if metadataKeyCmp m key sIdentity then value.moved base else l.identity⟩

/-- `readReadyCmd`, as far as `fuel` turns of its loop go. -/
def readReadyCmd (order : ByteOrder) (fuel : ℕ) (s : Stream) (socketType identity : RawData) :
    Option ReadyResult :=
  match readCommand s with
  | none => some ⟨false, socketType, identity⟩
  | some (key, value, _) =>
    if rawDataCmp (memoryIn s) key (ascii "READY") then
      let base := value.data.getD 0
      let properties : Memory := fun i => memoryIn s (base + i)
      run (readReadyTurn order base) fuel
        ⟨ofData (value.data.map fun _ => properties) value.size, { socketType with data := none },
          { identity with data := none }⟩
    else some ⟨false, socketType, identity⟩

/-- `readReadyCmd` ends with `r`. -/
def ReadsReady (order : ByteOrder) (s : Stream) (socketType identity : RawData) (r : ReadyResult) : Prop :=
  ∃ fuel, readReadyCmd order fuel s socketType identity = some r

/-- `strlen` -/
def strlen (text : List UInt8) : ℕ := (text.takeWhile (· ≠ 0)).length

/-- The memory at the start of `text`. -/
def memoryOf (text : List UInt8) : Memory := fill (fun _ => 0) 0 text

/-- `&&` of two calls on a stream. -/
def andThen (r : Bool × Stream) (next : Stream → Bool × Stream) : Bool × Stream :=
  if r.1 then next r.2 else r

/-- `writeKeyValue`; every call that writes has an allocator of its own. -/
def writeKeyValue (order : ByteOrder) (s : Stream) (key value : List UInt8) (alloc : ℕ → Alloc) :
    Bool × Stream :=
  let keyLength := strlen key
  let valueLength := strlen value
  andThen (s.write8 (.ofNat keyLength) (alloc 0)) fun s =>
    andThen (s.write (memoryOf key) (.ofNat keyLength) (alloc 1)) fun s =>
      andThen (s.write32be order (.ofNat valueLength) (alloc 2)) fun s =>
        s.write (memoryOf value) (.ofNat valueLength) (alloc 3)

/-- `writeCommandName` -/
def writeCommandName (s : Stream) (name : List UInt8) (alloc : ℕ → Alloc) : Bool × Stream :=
  let length := strlen name
  andThen (s.write8 (.ofNat length) (alloc 0)) fun s => s.write (memoryOf name) (.ofNat length) (alloc 1)

/-- `writeReadyCmd` -/
def writeReadyCmd (order : ByteOrder) (s : Stream) (socketType : List UInt8)
    (identity : Option (List UInt8)) (alloc : ℕ → Alloc) : Bool × Stream :=
  andThen (writeCommandName s (ascii "READY" ++ [0]) alloc) fun s =>
    andThen (writeKeyValue order s (sSocketType ++ [0]) socketType fun k => alloc (k + 2)) fun s =>
      match identity with
      | none => (true, s)
      | some identity => writeKeyValue order s (sIdentity ++ [0]) identity fun k => alloc (k + 6)

/-! ### Properties -/

/-- A property that has room in its lengths. -/
@[ext]
structure Property where
  key : List UInt8
  value : List UInt8
  key_lt : key.length < 2 ^ 8
  value_lt : value.length < 2 ^ 32

/-- A property, as it is in a command. -/
def Property.encode (p : Property) : List UInt8 :=
  [.ofNat p.key.length] ++ (p.key ++ (toBE 4 p.value.length ++ p.value))

/-- Properties, one after the other. -/
def encodeAll (ps : List Property) : List UInt8 := ps.flatMap Property.encode

/-- A whole command READY. -/
def readyCommand (ps : List Property) : List UInt8 := 5 :: (ascii "READY" ++ encodeAll ps)

/-- Its key is `name`, in letters of either case. -/
def Property.Named (name : List UInt8) (p : Property) : Prop :=
  p.key.map asciiLower = name.map asciiLower

instance (name : List UInt8) : DecidablePred (Property.Named name) := fun p =>
  inferInstanceAs (Decidable (p.key.map asciiLower = name.map asciiLower))

/-- The value of the last property with a key. -/
def lastValue (name : List UInt8) (ps : List Property) : Option (List UInt8) :=
  (ps.reverse.find? fun p => p.Named name).map Property.value

variable {m : Memory} {offset n : ℕ} {p q : Property}

@[simp] theorem Property.length_encode (p : Property) :
    p.encode.length = 1 + p.key.length + 4 + p.value.length := by
  rw [Property.encode, length_append, length_append, length_append, length_toBE, length_singleton]
  omega

theorem Property.length_encode_lt (p : Property) : p.encode.length < 2 ^ 33 := by
  have hkey := p.key_lt
  have hvalue := p.value_lt
  rw [Property.length_encode]
  omega

/-- Where a property is, it can be read in its four parts. -/
theorem Property.slice_eq_encode_iff : slice m offset p.encode.length = p.encode ↔
    (m offset).toNat = p.key.length ∧ slice m (offset + 1) p.key.length = p.key ∧
      ofBE (slice m (offset + 1 + p.key.length) 4) = p.value.length ∧
      slice m (offset + 1 + p.key.length + 4) p.value.length = p.value := by
  have hkey : m offset = .ofNat p.key.length ↔ (m offset).toNat = p.key.length := by
    rw [← UInt8.toNat_inj, UInt8.toNat_ofNat_of_lt' p.key_lt]
  have hvalue (bytes : List UInt8) (hbytes : bytes.length = 4) :
      bytes = toBE 4 p.value.length ↔ ofBE bytes = p.value.length := by
    constructor
    · rintro rfl
      exact ofBE_toBE_of_lt p.value_lt
    · intro heq
      rw [← heq, ← hbytes, toBE_ofBE]
  have hone (b : UInt8) : slice m offset 1 = [b] ↔ m offset = b := by
    rw [slice, range_one, map_singleton, singleton_inj, Nat.add_zero]
  rw [Property.encode, slice_append_iff, slice_append_iff, slice_append_iff, length_singleton,
    length_toBE, hone, hkey, hvalue _ (length_slice _ _ _)]

/-- Only one property begins at a place. -/
theorem Property.eq_of_slice (hp : slice m offset p.encode.length = p.encode)
    (hq : slice m offset q.encode.length = q.encode) : p = q := by
  obtain ⟨hkeyLength, hkey, hvalueLength, hvalue⟩ := slice_eq_encode_iff.mp hp
  obtain ⟨hkeyLength', hkey', hvalueLength', hvalue'⟩ := slice_eq_encode_iff.mp hq
  have hkeys : p.key.length = q.key.length := hkeyLength.symm.trans hkeyLength'
  rw [hkeys] at hkey hvalueLength hvalue
  have hvalues : p.value.length = q.value.length := hvalueLength.symm.trans hvalueLength'
  rw [hvalues] at hvalue
  exact Property.ext (hkey.symm.trans hkey') (hvalue.symm.trans hvalue')

theorem Property.encode_ne_nil (p : Property) : p.encode ≠ [] := cons_ne_nil _ _

@[simp] theorem encodeAll_nil : encodeAll [] = [] := rfl

@[simp] theorem encodeAll_cons (p : Property) (ps : List Property) :
    encodeAll (p :: ps) = p.encode ++ encodeAll ps :=
  flatMap_cons

/-! ### Reading a property -/

/-- What `readKeyValue` makes of the key of a property at `offset`. -/
def Property.keyAt (p : Property) (offset : ℕ) : RawData := ⟨some (offset + 1), .ofNat p.key.length⟩

/-- What `readKeyValue` makes of the value of a property at `offset`. -/
def Property.valueAt (p : Property) (offset : ℕ) : RawData :=
  ⟨some (offset + 1 + p.key.length + 4), .ofNat p.value.length⟩

variable {s : Stream} (order : ByteOrder)

/-- The length of the key of a property at `offset`. -/
def keySize (m : Memory) (offset : ℕ) : ℕ := (m offset).toNat

/-- The length of the value of a property at `offset`. -/
def valueSize (m : Memory) (offset : ℕ) : ℕ := ofBE (slice m (offset + 1 + keySize m offset) 4)

theorem keySize_lt (m : Memory) (offset : ℕ) : keySize m offset < 2 ^ 8 := UInt8.toNat_lt _

theorem valueSize_lt (m : Memory) (offset : ℕ) : valueSize m offset < 2 ^ 32 := by
  have hlt := ofBE_lt (slice m (offset + 1 + keySize m offset) 4)
  rwa [length_slice] at hlt

/-- `readKeyValue` reads both parts if so much is left. -/
theorem readKeyValue_eq (hs : Readable s m) : readKeyValue order s =
    if s.remaining < 1 + keySize m s.offset + 4 + valueSize m s.offset then none
    else some (⟨some (s.offset + 1), .ofNat (keySize m s.offset)⟩,
      ⟨some (s.offset + 1 + keySize m s.offset + 4), .ofNat (valueSize m s.offset)⟩,
      s.advance (1 + keySize m s.offset + 4 + valueSize m s.offset)) := by
  have hkeySize : keySize m s.offset = (m s.offset).toNat := rfl
  have hvalueSize : valueSize m s.offset =
      ofBE (slice m (s.advance (1 + keySize m s.offset)).offset 4) := by
    rw [Stream.advance, ← Nat.add_assoc]
    rfl
  have hlt := valueSize_lt m s.offset
  rw [readKeyValue]
  by_cases hone : s.remaining < 1
  · rw [if_pos hone, if_pos (by omega)]
  rw [if_neg hone, hs.read8 (by omega)]
  dsimp only
  rw [← hkeySize, Stream.remaining_advance]
  by_cases hkey : keySize m s.offset > s.remaining - 1
  · rw [if_pos hkey, if_pos (by omega)]
  have hseek := (hs.advance (n := 1) (by omega)).seek_bytes (n := (m s.offset).toUInt64)
  rw [UInt8.toNat_toUInt64, Stream.remaining_advance, ← hkeySize] at hseek
  rw [if_neg hkey, hseek (by omega), Stream.advance_advance]
  dsimp only
  rw [Stream.remaining_advance]
  by_cases hfour : s.remaining - (1 + keySize m s.offset) < 4
  · rw [if_pos hfour, if_pos (by omega)]
  have hread := (hs.advance (n := 1 + keySize m s.offset) (by omega)).read32be order
  rw [Stream.remaining_advance, ← hvalueSize] at hread
  rw [if_neg hfour, hread (by omega), Stream.advance_advance]
  dsimp only
  rw [Stream.remaining_advance, UInt32.toNat_ofNat_of_lt' hlt]
  by_cases hvalue : valueSize m s.offset > s.remaining - (1 + keySize m s.offset + 4)
  · rw [if_pos hvalue, if_pos (by omega)]
  have hseek := (hs.advance (n := 1 + keySize m s.offset + 4) (by omega)).seek_bytes
    (n := (UInt32.ofNat (valueSize m s.offset)).toUInt64)
  rw [UInt32.toNat_toUInt64, UInt32.toNat_ofNat_of_lt' hlt, Stream.remaining_advance] at hseek
  have hoffset : (s.advance (1 + keySize m s.offset + 4)).offset = s.offset + 1 + keySize m s.offset + 4 :=
    show s.offset + (1 + keySize m s.offset + 4) = _ by omega
  rw [if_neg hvalue, hseek (by omega), if_neg (by omega), Stream.advance_advance, hoffset, hkeySize,
    UInt64.ofNat_uInt8ToNat, UInt32.toUInt64_ofNat' hlt]
  rfl

/-- `readKeyValue` reads a property if there is one. -/
theorem readKeyValue_cases (hs : Readable s m) :
    (readKeyValue order s = none ∧ ∀ p : Property, ¬p.encode <+: s.rest m) ∨
      ∃ p : Property, p.encode <+: s.rest m ∧
        readKeyValue order s = some (p.keyAt s.offset, p.valueAt s.offset, s.advance p.encode.length) := by
  rw [readKeyValue_eq order hs, Stream.rest]
  by_cases hshort : s.remaining < 1 + keySize m s.offset + 4 + valueSize m s.offset
  · rw [if_pos hshort]
    refine .inl ⟨rfl, fun p hprefix => ?_⟩
    rw [prefix_slice_iff, Property.slice_eq_encode_iff, Property.length_encode] at hprefix
    obtain ⟨hle, hkey, -, hvalue, -⟩ := hprefix
    rw [valueSize, keySize, hkey, hvalue] at hshort
    omega
  · rw [if_neg hshort]
    let p : Property :=
      ⟨slice m (s.offset + 1) (keySize m s.offset),
        slice m (s.offset + 1 + keySize m s.offset + 4) (valueSize m s.offset),
        (length_slice _ _ _).trans_lt (keySize_lt m s.offset),
        (length_slice _ _ _).trans_lt (valueSize_lt m s.offset)⟩
    have hkey : p.key.length = keySize m s.offset := length_slice _ _ _
    have hvalue : p.value.length = valueSize m s.offset := length_slice _ _ _
    refine .inr ⟨p, ?_, ?_⟩
    · rw [prefix_slice_iff, Property.slice_eq_encode_iff, Property.length_encode, hkey, hvalue]
      exact ⟨by omega, rfl, rfl, rfl, rfl⟩
    · rw [Property.keyAt, Property.valueAt, Property.length_encode, hkey, hvalue]

/-! ### The loop -/

/-- Two lists agree under `f` if they do so place by place. -/
theorem map_eq_map_iff_zip {α β : Type} [DecidableEq β] (f : α → β) (xs ys : List α) :
    xs.map f = ys.map f ↔ xs.length = ys.length ∧ (xs.zip ys).all fun (x, y) => f x == f y := by
  induction xs generalizing ys with
  | nil =>
    cases ys with
    | nil => simp
    | cons y ys => simp
  | cons x xs ih =>
    cases ys with
    | nil => simp
    | cons y ys =>
      rw [map_cons, map_cons, List.cons.injEq, ih, zip_cons_cons, all_cons]
      simp only [length_cons, Nat.add_right_cancel_iff, Bool.and_eq_true, beq_iff_eq]
      exact and_left_comm

/-- What a comparison of keys finds. -/
theorem metadataKeyCmp_keyAt (hp : slice m offset p.encode.length = p.encode) (name : List UInt8) :
    metadataKeyCmp m (p.keyAt offset) name = decide (p.Named name) := by
  have hlength : (UInt64.ofNat p.key.length).toNat = p.key.length :=
    UInt64.toNat_ofNat_of_lt' (p.key_lt.trans (by decide))
  have hkey : (p.keyAt offset).bytes m = p.key := by
    rw [RawData.bytes, Property.keyAt]
    dsimp only
    rw [hlength]
    exact (Property.slice_eq_encode_iff.mp hp).2.1
  rw [metadataKeyCmp, hkey, Property.keyAt, hlength, Bool.eq_iff_iff, Bool.and_eq_true, beq_iff_eq,
    decide_eq_true_iff]
  exact (map_eq_map_iff_zip asciiLower p.key name).symm

/-- `d` points to `v` within the first `n` bytes of `m`, or is null if there is none. -/
def RawData.Is (d : RawData) (m : Memory) (n : ℕ) : Option (List UInt8) → Prop
  | none => d.data = none
  | some v => ∃ pos, d.data = some pos ∧ pos + d.size.toNat ≤ n ∧ slice m pos d.size.toNat = v

theorem RawData.Is.isSome {d : RawData} {v : Option (List UInt8)} (h : d.Is m n v) :
    d.data.isSome = v.isSome := by
  cases v with
  | none =>
    rw [show d.data = none from h]
    rfl
  | some v =>
    obtain ⟨pos, hpos, -⟩ := h
    rw [hpos]
    rfl

/-- A property is taken for its value if it has the name. -/
def update (name : List UInt8) (v : Option (List UInt8)) (p : Property) : Option (List UInt8) :=
  if p.Named name then some p.value else v

/-- The value of a property of `cmdData` is where it is in the command. -/
theorem RawData.Is.update {base : ℕ} (hp : slice (fun i => m (base + i)) offset p.encode.length = p.encode)
    (hn : base + offset + p.encode.length ≤ n) {d : RawData} {v : Option (List UInt8)} (h : d.Is m n v)
    (name : List UInt8) :
    RawData.Is (if metadataKeyCmp (fun i => m (base + i)) (p.keyAt offset) name then
      (p.valueAt offset).moved base else d) m n (update name v p) := by
  rw [metadataKeyCmp_keyAt hp, Zmtp.update]
  by_cases hnamed : p.Named name
  · have hlength : (UInt64.ofNat p.value.length).toNat = p.value.length :=
      UInt64.toNat_ofNat_of_lt' (p.value_lt.trans (by decide))
    rw [decide_eq_true hnamed, if_pos rfl, if_pos hnamed]
    refine ⟨_, rfl, ?_, ?_⟩
    · rw [Property.length_encode] at hn
      show base + (offset + 1 + p.key.length + 4) + (UInt64.ofNat p.value.length).toNat ≤ n
      omega
    · show slice m (base + (offset + 1 + p.key.length + 4)) (UInt64.ofNat p.value.length).toNat = p.value
      rw [hlength, ← slice_shift]
      exact (Property.slice_eq_encode_iff.mp hp).2.2.2
  · rw [decide_eq_false hnamed, if_neg Bool.false_ne_true, if_neg hnamed]
    exact h

/-- **What the loop comes to**: if properties are left and nothing else, the last ones with the two names
are taken; if not, the command is refused. -/
theorem yields_readReady (base : ℕ) (l : ReadyState) (hs : Readable l.cmdData fun i => m (base + i))
    (hn : base + l.cmdData.size ≤ n) {v w : Option (List UInt8)} (hv : l.socketType.Is m n v)
    (hw : l.identity.Is m n w) :
    ∃ r, Yields (readReadyTurn order base) l r ∧
      (∀ ps, l.cmdData.rest (fun i => m (base + i)) = encodeAll ps →
        r.ok = (ps.foldl (update sSocketType) v).isSome ∧
          r.socketType.Is m n (ps.foldl (update sSocketType) v) ∧
          r.identity.Is m n (ps.foldl (update sIdentity) w)) ∧
      ((∀ ps, l.cmdData.rest (fun i => m (base + i)) ≠ encodeAll ps) → r.ok = false) := by
  induction hk : l.cmdData.remaining using Nat.strong_induction_on generalizing l v w with
  | _ k ih =>
  subst hk
  by_cases hempty : l.cmdData.remaining = 0
  · have hrest : l.cmdData.rest (fun i => m (base + i)) = [] :=
      length_eq_zero_iff.mp ((Stream.length_rest _ _).trans hempty)
    rw [hrest]
    refine ⟨_, .done (by rw [readReadyTurn, if_pos hempty]), fun ps hps => ?_, fun h => absurd rfl (h [])⟩
    cases ps with
    | nil => exact ⟨hv.isSome, hv, hw⟩
    | cons p ps => exact absurd (append_eq_nil_iff.mp hps.symm).1 p.encode_ne_nil
  obtain ⟨hread, hno⟩ | ⟨p, hprefix, hread⟩ := readKeyValue_cases order hs
  · refine ⟨_, .done (by rw [readReadyTurn, if_neg hempty, hread]), fun ps hps => ?_, fun _ => rfl⟩
    cases ps with
    | nil =>
      have hlength := congrArg List.length hps
      rw [Stream.length_rest] at hlength
      exact absurd hlength hempty
    | cons p ps => exact absurd ⟨_, hps.symm⟩ (hno p)
  -- a property is read, and the rest is left
  have hp := (prefix_slice_iff.mp hprefix).2
  have hle := hprefix.length_le
  rw [Stream.length_rest] at hle
  have hinside : base + l.cmdData.offset + p.encode.length ≤ n := by
    have := hs.offset_le
    rw [Stream.remaining] at hle
    omega
  have hshorter : l.cmdData.remaining - p.encode.length < l.cmdData.remaining := by
    rw [Property.length_encode]
    omega
  obtain ⟨r, hyields, hall, hnone⟩ := ih _ hshorter ⟨l.cmdData.advance p.encode.length, _, _⟩
    (hs.advance hle) hn (hv.update hp hinside sSocketType) (hw.update hp hinside sIdentity)
    (Stream.remaining_advance _ _)
  obtain ⟨rest, hrest⟩ := hprefix
  have hadvance : (l.cmdData.advance p.encode.length).rest (fun i => m (base + i)) = rest := by
    rw [Stream.rest_advance, ← hrest, drop_left]
  rw [hadvance] at hall hnone
  rw [← hrest]
  refine ⟨r, .step (.inl ?_) hyields, fun ps hps => ?_, fun h => hnone fun ps hps => ?_⟩
  · rw [readReadyTurn, if_neg hempty, hread, memoryIn, hs.memory]
    rfl
  · cases ps with
    | nil => exact absurd (append_eq_nil_iff.mp hps).1 p.encode_ne_nil
    | cons q ps =>
      rw [encodeAll_cons] at hps
      have hq := (prefix_slice_iff.mp ⟨_, (hrest.symm.trans hps).symm⟩).2
      obtain rfl := Property.eq_of_slice hp hq
      exact hall ps (append_cancel_left hps)
  · exact h (p :: ps) (by rw [encodeAll_cons, hps])

theorem foldl_update (name : List UInt8) (ps : List Property) (v : Option (List UInt8)) :
    ps.foldl (update name) v = (lastValue name ps).or v := by
  induction ps generalizing v with
  | nil => rfl
  | cons p ps ih =>
    rw [foldl_cons, ih, lastValue, lastValue, reverse_cons, find?_append, update]
    cases ps.reverse.find? fun p => p.Named name with
    | some q => rfl
    | none =>
      by_cases hnamed : p.Named name
      · simp [hnamed]
      · simp [hnamed]

/-! ### The command -/

variable {size : UInt64} (socketType identity : RawData)

/-- `readCommand` on a name that is there. -/
theorem readCommand_eq (hsize : size.toNat < 2 ^ 63) (hone : 1 ≤ size.toNat)
    (hname : (m 0).toNat ≤ size.toNat - 1) :
    ∃ s', readCommand (ofData (some m) size) = some (⟨some 1, (m 0).toUInt64⟩,
      ⟨some (1 + (m 0).toNat), .ofNat (size.toNat - (1 + (m 0).toNat))⟩, s') := by
  have hs := readable_ofData m hsize
  have hremaining : (ofData (some m) size).remaining = size.toNat := rfl
  have hseek := (hs.advance (n := 1) hone).seek_bytes (n := (m 0).toUInt64)
  rw [UInt8.toNat_toUInt64, Stream.remaining_advance, hremaining] at hseek
  have hlt : size.toNat - (1 + (m 0).toNat) < 2 ^ 64 := by omega
  have hdata := (hs.advance (n := 1 + (m 0).toNat) (by rw [hremaining]; omega)).seek_bytes
    (n := .ofNat (size.toNat - (1 + (m 0).toNat)))
  rw [UInt64.toNat_ofNat_of_lt' hlt, Stream.remaining_advance, hremaining] at hdata
  refine ⟨((ofData (some m) size).advance (1 + (m 0).toNat)).advance (size.toNat - (1 + (m 0).toNat)), ?_⟩
  rw [readCommand, hs.read8 hone]
  dsimp only
  rw [show m (ofData (some m) size).offset = m 0 from rfl, hseek hname, Stream.advance_advance]
  dsimp only
  have hoffset (k : ℕ) : ((ofData (some m) size).advance k).offset = k := Nat.zero_add k
  rw [Stream.remaining_advance, hremaining, hdata le_rfl, hoffset, hoffset]

theorem readReadyCmd_of_ready (hsize : size.toNat < 2 ^ 63)
    (hready : 5 :: ascii "READY" <+: slice m 0 size.toNat) (fuel : ℕ) :
    readReadyCmd order fuel (ofData (some m) size) socketType identity =
      run (readReadyTurn order 6) fuel ⟨ofData (some fun i => m (6 + i)) (.ofNat (size.toNat - 6)),
        { socketType with data := none }, { identity with data := none }⟩ := by
  obtain ⟨hle, heq⟩ := prefix_slice_iff.mp hready
  have hsix : 6 ≤ size.toNat := hle
  obtain ⟨hfive, hname⟩ := List.cons.inj (show m 0 :: slice m 1 5 = 5 :: ascii "READY" from heq)
  have hfive' : (m 0).toNat = 5 := by rw [hfive]; rfl
  obtain ⟨s', hread⟩ := readCommand_eq (m := m) hsize (by omega) (by omega)
  have hcmp : rawDataCmp m ⟨some 1, (m 0).toUInt64⟩ (ascii "READY") = true := by
    rw [rawDataCmp, RawData.bytes, UInt8.toNat_toUInt64, hfive']
    dsimp only
    rw [hname]
    rfl
  rw [readReadyCmd, hread]
  dsimp only
  rw [show memoryIn (ofData (some m) size) = m from rfl, hcmp, if_pos rfl, hfive']
  rfl

theorem readReadyCmd_of_other (hsize : size.toNat < 2 ^ 63)
    (hready : ¬5 :: ascii "READY" <+: slice m 0 size.toNat) (fuel : ℕ) :
    readReadyCmd order fuel (ofData (some m) size) socketType identity =
      some ⟨false, socketType, identity⟩ := by
  have hs := readable_ofData m hsize
  by_cases hzero : size.toNat = 0
  · obtain rfl : size = 0 := UInt64.toNat_inj.mp hzero
    rfl
  by_cases hname : (m 0).toNat ≤ size.toNat - 1
  · obtain ⟨s', hread⟩ := readCommand_eq (m := m) hsize (by omega) hname
    rw [readReadyCmd, hread]
    dsimp only
    rw [if_neg]
    intro hcmp
    rw [rawDataCmp, RawData.bytes, UInt8.toNat_toUInt64, Bool.and_eq_true, beq_iff_eq, beq_iff_eq] at hcmp
    obtain ⟨hfive, hbytes⟩ := hcmp
    have hfive' : (m 0).toNat = 5 := hfive
    refine hready (prefix_slice_iff.mpr ⟨show 6 ≤ size.toNat by omega, ?_⟩)
    show m 0 :: slice m 1 5 = 5 :: ascii "READY"
    rw [hfive'] at hbytes
    exact congrArg₂ List.cons (UInt8.toNat_inj.mp hfive') hbytes
  · have hseek : (((ofData (some m) size).advance 1).seek 1 (m 0).toUInt64.toInt64).1 = none := by
      refine Stream.seek_of_lt (one_mul_toInt64 _) ?_ ?_
      · rw [Stream.remaining_advance, UInt8.toNat_toUInt64]
        exact Nat.lt_of_not_le hname
      · rw [UInt8.toNat_toUInt64]
        exact Nat.lt_trans (Nat.add_lt_add_left (UInt8.toNat_lt _) 1) (by decide)
    rw [readReadyCmd, readCommand, hs.read8 (Nat.pos_of_ne_zero hzero)]
    dsimp only
    rw [show m (ofData (some m) size).offset = m 0 from rfl]
    generalize ((ofData (some m) size).advance 1).seek 1 (m 0).toUInt64.toInt64 = sought at hseek ⊢
    obtain ⟨pointer, s'⟩ := sought
    obtain rfl : pointer = none := hseek
    rfl

/-- What `readReadyCmd` comes to, on any bytes. -/
theorem readsReady (hsize : size.toNat < 2 ^ 63) :
    ∃ r, ReadsReady order (ofData (some m) size) socketType identity r ∧
      (∀ ps, slice m 0 size.toNat = readyCommand ps →
        r.ok = (lastValue sSocketType ps).isSome ∧
          r.socketType.Is m size.toNat (lastValue sSocketType ps) ∧
          r.identity.Is m size.toNat (lastValue sIdentity ps)) ∧
      ((∀ ps, slice m 0 size.toNat ≠ readyCommand ps) → r.ok = false) := by
  by_cases hready : 5 :: ascii "READY" <+: slice m 0 size.toNat
  · have hsix : 6 ≤ size.toNat := (prefix_slice_iff.mp hready).1
    have hlt : size.toNat - 6 < 2 ^ 64 := by omega
    have hrest : (ofData (some fun i => m (6 + i)) (.ofNat (size.toNat - 6))).size = size.toNat - 6 :=
      UInt64.toNat_ofNat_of_lt' hlt
    have hcommand (ps : List Property) : slice m 0 size.toNat = readyCommand ps ↔
        (ofData (some fun i => m (6 + i)) (.ofNat (size.toNat - 6))).rest (fun i => m (6 + i)) =
          encodeAll ps := by
      have hsplit := slice_add m 0 6 (size.toNat - 6)
      rw [Nat.add_sub_cancel' hsix, show slice m 0 6 = 5 :: ascii "READY" from (prefix_slice_iff.mp hready).2]
        at hsplit
      rw [Stream.rest, Stream.remaining, hrest, slice_shift, hsplit, readyCommand, ← cons_append]
      exact append_right_inj _
    obtain ⟨r, ⟨fuel, hfuel⟩, hall, hnone⟩ := yields_readReady order (m := m) (n := size.toNat) 6
      ⟨ofData (some fun i => m (6 + i)) (.ofNat (size.toNat - 6)),
        { socketType with data := none }, { identity with data := none }⟩
      (readable_ofData _ (by rw [UInt64.toNat_ofNat_of_lt' hlt]; omega))
      (by dsimp only; rw [hrest]; omega) (v := none) (w := none) rfl rfl
    refine ⟨r, ⟨fuel, ?_⟩, fun ps hps => ?_, fun h => hnone fun ps hps => h ps ((hcommand ps).mpr hps)⟩
    · rw [readReadyCmd_of_ready order socketType identity hsize hready]
      exact hfuel
    · have hresult := hall ps ((hcommand ps).mp hps)
      rwa [foldl_update, foldl_update, or_none, or_none] at hresult
  · refine ⟨_, ⟨0, readReadyCmd_of_other order socketType identity hsize hready 0⟩, fun ps hps => ?_,
      fun _ => rfl⟩
    rw [hps, readyCommand, ← cons_append] at hready
    exact absurd (prefix_append _ _) hready

variable {order socketType identity} in
theorem ReadsReady.unique (hsize : size.toNat < 2 ^ 63) {r r' : ReadyResult}
    (hr : ReadsReady order (ofData (some m) size) socketType identity r)
    (hr' : ReadsReady order (ofData (some m) size) socketType identity r') : r = r' := by
  obtain ⟨fuel, hfuel⟩ := hr
  obtain ⟨fuel', hfuel'⟩ := hr'
  by_cases hready : 5 :: ascii "READY" <+: slice m 0 size.toNat
  · rw [readReadyCmd_of_ready order socketType identity hsize hready] at hfuel hfuel'
    exact Yields.unique ⟨fuel, hfuel⟩ ⟨fuel', hfuel'⟩
  · rw [readReadyCmd_of_other order socketType identity hsize hready] at hfuel hfuel'
    exact (Option.some.inj hfuel).symm.trans (Option.some.inj hfuel')

/-! ### Writing -/

theorem strlen_append_zero {text : List UInt8} (h : 0 ∉ text) : strlen (text ++ [0]) = text.length := by
  have hall : ∀ c ∈ text, decide (c ≠ 0) = true := by
    intro c hc
    exact decide_eq_true (ne_of_mem_of_not_mem hc h)
  rw [strlen, takeWhile_append_of_pos hall]
  simp

/-- What is read of a string. -/
theorem slice_memoryOf (text tail : List UInt8) : slice (memoryOf (text ++ tail)) 0 text.length = text := by
  have hslice := slice_fill (fun _ => 0) 0 (text ++ tail)
  exact (slice_append_iff.mp hslice).1

variable {bytes : List UInt8} {alloc : ℕ → Alloc}

@[simp] theorem andThen_true (s : Stream) (next : Stream → Bool × Stream) :
    andThen (true, s) next = next s :=
  rfl

/-- Writing a string without its NUL. -/
theorem holds_write_text (hs : Holds s bytes) (halloc : ∀ k n, (alloc k n).isSome) (k : ℕ)
    (text : List UInt8) (hroom : bytes.length + text.length ≤ ptrdiffMax) (hm : s.m.isSome) :
    ∃ s', s.write (memoryOf (text ++ [0])) (.ofNat text.length) (alloc k) = (true, s') ∧
      Holds s' (bytes ++ text) ∧ s'.m.isSome := by
  have hlt : text.length < 2 ^ 64 := by
    rw [ptrdiffMax] at hroom
    omega
  refine hs.write ?_ (halloc k) hroom (.inl hm)
  rw [UInt64.toNat_ofNat_of_lt' hlt, slice_memoryOf]

theorem writeCommandName_eq (hs : Holds s bytes) (halloc : ∀ k n, (alloc k n).isSome) {name : List UInt8}
    (hname : 0 ∉ name) (hroom : bytes.length + 1 + name.length ≤ ptrdiffMax) :
    ∃ s', writeCommandName s (name ++ [0]) alloc = (true, s') ∧
      Holds s' (bytes ++ [.ofNat name.length] ++ name) ∧ s'.m.isSome := by
  obtain ⟨s₁, hwrite₁, hs₁, hm₁⟩ := hs.write8 (.ofNat name.length) (halloc 0) (by omega)
  obtain ⟨s₂, hwrite₂, hs₂, hm₂⟩ := holds_write_text hs₁ halloc 1 name (by simp; omega) hm₁
  refine ⟨s₂, ?_, hs₂, hm₂⟩
  rw [writeCommandName, strlen_append_zero hname, hwrite₁, andThen_true, hwrite₂]

theorem writeKeyValue_eq (hs : Holds s bytes) (halloc : ∀ k n, (alloc k n).isSome) (p : Property)
    (hkey : 0 ∉ p.key) (hvalue : 0 ∉ p.value) (hroom : bytes.length + p.encode.length ≤ ptrdiffMax):
    ∃ s', writeKeyValue order s (p.key ++ [0]) (p.value ++ [0]) alloc = (true, s') ∧
      Holds s' (bytes ++ p.encode) ∧ s'.m.isSome := by
  rw [Property.length_encode] at hroom
  obtain ⟨s₁, hwrite₁, hs₁, hm₁⟩ := hs.write8 (.ofNat p.key.length) (halloc 0) (by omega)
  obtain ⟨s₂, hwrite₂, hs₂, hm₂⟩ := holds_write_text hs₁ halloc 1 p.key (by simp; omega) hm₁
  obtain ⟨s₃, hwrite₃, hs₃, hm₃⟩ := hs₂.write32be order (.ofNat p.value.length) (halloc 2)
    (by simp; omega)
  obtain ⟨s₄, hwrite₄, hs₄, hm₄⟩ := holds_write_text hs₃ halloc 3 p.value (by simp; omega) hm₃
  refine ⟨s₄, ?_, ?_, hm₄⟩
  · rw [writeKeyValue, strlen_append_zero hkey, strlen_append_zero hvalue, hwrite₁, andThen_true, hwrite₂,
      andThen_true, hwrite₃, andThen_true, hwrite₄]
  · rw [UInt32.toNat_ofNat_of_lt' p.value_lt] at hs₄
    rw [Property.encode, ← append_assoc, ← append_assoc, ← append_assoc]
    exact hs₄

/-- The properties that `writeReadyCmd` writes. -/
def written (t : List UInt8) (ht : t.length < 2 ^ 32) :
    (i : Option (List UInt8)) → (∀ x ∈ i, x.length < 2 ^ 32) → List Property
  | none, _ => [⟨sSocketType, t, by decide, ht⟩]
  | some x, hx => [⟨sSocketType, t, by decide, ht⟩, ⟨sIdentity, x, by decide, hx x rfl⟩]

variable {i : Option (List UInt8)}

theorem writeReadyCmd_eq (hs : Holds s []) (halloc : ∀ k n, (alloc k n).isSome) {t : List UInt8}
    (ht : t.length < 2 ^ 32) (hi : ∀ x ∈ i, x.length < 2 ^ 32) (htz : 0 ∉ t) (hiz : ∀ x ∈ i, 0 ∉ x):
    ∃ s', writeReadyCmd order s (t ++ [0]) (i.map (· ++ [0])) alloc = (true, s') ∧
      Holds s' (readyCommand (written t ht i hi)) ∧ s'.m.isSome := by
  have hname : (0 : UInt8) ∉ ascii "READY" := by decide
  have htype : (0 : UInt8) ∉ sSocketType := by decide
  have hident : (0 : UInt8) ∉ sIdentity := by decide
  obtain ⟨s₁, hwrite₁, hs₁, hm₁⟩ := writeCommandName_eq hs halloc hname (by decide)
  rw [show [] ++ [.ofNat (ascii "READY").length] ++ ascii "READY" = 5 :: ascii "READY" from rfl] at hs₁
  let p : Property := ⟨sSocketType, t, by decide, ht⟩
  have hp := p.length_encode_lt
  have hsix : (5 :: ascii "READY").length = 6 := rfl
  have hmax : 2 ^ 35 < ptrdiffMax := by decide
  obtain ⟨s₂, hwrite₂, hs₂, hm₂⟩ := writeKeyValue_eq order hs₁ (fun k => halloc (k + 2)) p htype
    htz (by omega)
  rw [writeReadyCmd, hwrite₁, andThen_true, hwrite₂, andThen_true]
  cases i with
  | none =>
    refine ⟨s₂, rfl, ?_, hm₂⟩
    rw [readyCommand, written, encodeAll_cons, encodeAll_nil, append_nil]
    exact hs₂
  | some x =>
    let q : Property := ⟨sIdentity, x, by decide, hi x rfl⟩
    have hq := q.length_encode_lt
    obtain ⟨s₃, hwrite₃, hs₃, hm₃⟩ := writeKeyValue_eq order hs₂ (fun k => halloc (k + 6)) q hident
      (hiz x rfl) (by rw [length_append]; omega)
    refine ⟨s₃, hwrite₃, ?_, hm₃⟩
    rw [readyCommand, written, encodeAll_cons, encodeAll_cons, encodeAll_nil, append_nil,
      ← append_assoc, ← cons_append, ← cons_append]
    exact hs₃

theorem length_written_lt {t : List UInt8} (ht : t.length < 2 ^ 32)
    (hi : ∀ x ∈ i, x.length < 2 ^ 32) : (readyCommand (written t ht i hi)).length < 2 ^ 35 := by
  have hsix : (ascii "READY").length = 5 := rfl
  cases i with
  | none =>
    have hp := Property.length_encode_lt ⟨sSocketType, t, by decide, ht⟩
    rw [readyCommand, written, encodeAll_cons, encodeAll_nil, append_nil, length_cons,
      length_append]
    omega
  | some x =>
    have hp := Property.length_encode_lt ⟨sSocketType, t, by decide, ht⟩
    have hq := Property.length_encode_lt ⟨sIdentity, x, by decide, hi x rfl⟩
    rw [readyCommand, written, encodeAll_cons, encodeAll_cons, encodeAll_nil, append_nil,
      length_cons, length_append, length_append]
    omega

theorem lastValue_written {t : List UInt8} (ht : t.length < 2 ^ 32) (hi : ∀ x ∈ i, x.length < 2 ^ 32):
    lastValue sSocketType (written t ht i hi) = some t ∧ lastValue sIdentity (written t ht i hi) = i := by
  have hself : sSocketType.map asciiLower = sSocketType.map asciiLower := rfl
  have hother : sIdentity.map asciiLower ≠ sSocketType.map asciiLower := by decide
  cases i with
  | none => simp [lastValue, written, Property.Named, hother.symm]
  | some x => simp [lastValue, written, Property.Named, hother]

/-- There is a value for a name if and only if there is a property with it. -/
theorem isSome_lastValue_iff (name : List UInt8) (ps : List Property) :
    (lastValue name ps).isSome ↔ ∃ p ∈ ps, p.Named name := by
  rw [lastValue, isSome_map, find?_isSome]
  simp

/-! ### The codec -/

/-- **The codec of READY.** What `writeReadyCmd` writes to an empty stream, `readReadyCmd` reads back, on a
host of any order. On any bytes, `readReadyCmd` ends; it accepts exactly the commands READY that are
complete and have a socket type, and then finds the value of the last property with each of its two
names, in the command. -/
theorem ready_codec :
    (∀ (order order' : ByteOrder) (s : Stream) (alloc : ℕ → Alloc) (t : List UInt8)
      (i : Option (List UInt8)), s.Valid → s.size = 0 → (∀ k n, (alloc k n).isSome) →
      0 ∉ t → t.length < 2 ^ 32 → (∀ x ∈ i, 0 ∉ x ∧ x.length < 2 ^ 32) →
      ∃ s' m, writeReadyCmd order s (t ++ [0]) (i.map (· ++ [0])) alloc = (true, s') ∧ s'.m = some m ∧
        ∀ socketType identity, ∃ r,
          ReadsReady order' (ofData s'.m (.ofNat s'.offset)) socketType identity r ∧ r.ok = true ∧
            r.socketType.Is m s'.offset (some t) ∧ r.identity.Is m s'.offset i) ∧
    (∀ (order : ByteOrder) (m : Memory) (size : UInt64) (socketType identity : RawData),
      size.toNat < 2 ^ 63 →
      (∃ r, ReadsReady order (ofData (some m) size) socketType identity r) ∧
      ∀ r, ReadsReady order (ofData (some m) size) socketType identity r →
        (r.ok = true ↔ ∃ ps, slice m 0 size.toNat = readyCommand ps ∧ ∃ p ∈ ps, p.Named sSocketType) ∧
          (r.ok = true → ∀ ps, slice m 0 size.toNat = readyCommand ps →
            r.socketType.Is m size.toNat (lastValue sSocketType ps) ∧
              r.identity.Is m size.toNat (lastValue sIdentity ps))) := by
  constructor
  · intro order order' s alloc t i hvalid hempty halloc htz ht hi
    have hoffset : s.offset = 0 := Nat.le_zero.mp (hempty ▸ hvalid.offset_le)
    have hs : Holds s [] := by
      refine ⟨hvalid, hoffset.trans hempty.symm, ?_⟩
      rw [hempty]
      cases s.m with
      | none => rfl
      | some m => rfl
    obtain ⟨s', hwrite, hs', hm'⟩ := writeReadyCmd_eq order hs halloc ht (fun x hx => (hi x hx).2)
      htz fun x hx => (hi x hx).1
    obtain ⟨m, hm⟩ := isSome_iff_exists.mp hm'
    refine ⟨s', m, hwrite, hm, fun socketType identity => ?_⟩
    have hbytes := hs'.contents
    rw [hm, map_some, getD_some] at hbytes
    have hlt : s'.size < 2 ^ 63 := by
      rw [← hs'.length_eq]
      exact (length_written_lt ht fun x hx => (hi x hx).2).trans (by decide)
    have hsize : (UInt64.ofNat s'.offset).toNat = s'.size := by
      rw [hs'.end_eq]
      exact UInt64.toNat_ofNat_of_lt' (Nat.lt_trans hlt (by decide))
    obtain ⟨r, hr, hall, -⟩ := readsReady order' socketType identity (m := m) (show
      (UInt64.ofNat s'.offset).toNat < 2 ^ 63 by rw [hsize]; exact hlt)
    obtain ⟨htype, hident⟩ := lastValue_written ht fun x hx => (hi x hx).2
    obtain ⟨hok, hsocketType, hidentity⟩ := hall _ (by rw [hsize]; exact hbytes)
    rw [hsize, ← hs'.end_eq] at hsocketType hidentity
    rw [htype] at hok hsocketType
    rw [hident] at hidentity
    exact ⟨r, hm ▸ hr, hok, hsocketType, hidentity⟩
  · intro order m size socketType identity hsize
    obtain ⟨r, hr, hall, hnone⟩ := readsReady order socketType identity (m := m) hsize
    refine ⟨⟨r, hr⟩, fun r' hr' => ?_⟩
    obtain rfl := hr.unique hsize hr'
    refine ⟨⟨fun hok => ?_, ?_⟩, fun _ ps hps => (hall ps hps).2⟩
    · by_contra hno
      by_cases hcommand : ∃ ps, slice m 0 size.toNat = readyCommand ps
      · obtain ⟨ps, hps⟩ := hcommand
        rw [(hall ps hps).1, isSome_lastValue_iff] at hok
        exact hno ⟨ps, hps, hok⟩
      · rw [hnone fun ps hps => hcommand ⟨ps, hps⟩] at hok
        exact Bool.false_ne_true hok
    · rintro ⟨ps, hps, hnamed⟩
      rw [(hall ps hps).1, isSome_lastValue_iff]
      exact hnamed

/-- A PUSH socket with an identity, between two hosts of different order; and a command that is its name. -/
theorem ready_codec_push :
    (∃ s' m, writeReadyCmd .little (ofSize 64 fun _ => some fun _ => 0) (ascii "PUSH" ++ [0])
        (some (ascii "peer" ++ [0])) (fun _ _ => some fun _ => 0) = (true, s') ∧ s'.m = some m ∧
      ∃ r, ReadsReady .big (ofData s'.m (.ofNat s'.offset)) ⟨none, 0⟩ ⟨none, 0⟩ r ∧ r.ok = true ∧
        r.socketType.Is m s'.offset (some (ascii "PUSH")) ∧
        r.identity.Is m s'.offset (some (ascii "peer"))) ∧
    ∃ r, ReadsReady .little (ofData (some (memoryOf (readyCommand []))) 6) ⟨none, 0⟩ ⟨none, 0⟩ r ∧
      (r.ok = true ↔ ∃ ps, slice (memoryOf (readyCommand [])) 0 (6 : UInt64).toNat = readyCommand ps ∧
        ∃ p ∈ ps, p.Named sSocketType) := by
  obtain ⟨hback, hany⟩ := ready_codec
  constructor
  · obtain ⟨s', m, hwrite, hm, hread⟩ := hback .little .big (ofSize 64 fun _ => some fun _ => 0)
      (fun _ _ => some fun _ => 0) (ascii "PUSH") (some (ascii "peer"))
      (valid_stream (.owned 64 fun _ => some fun _ => 0)) rfl (fun _ _ => rfl) (by decide) (by decide)
      (by decide)
    exact ⟨s', m, hwrite, hm, hread ⟨none, 0⟩ ⟨none, 0⟩⟩
  · obtain ⟨⟨r, hr⟩, hall⟩ := hany .little (memoryOf (readyCommand [])) 6 ⟨none, 0⟩ ⟨none, 0⟩ (by decide)
    exact ⟨r, hr, (hall r hr).1⟩

end Zmtp

end Asyncio
