import Asyncio.Incremental.Scanner
import Asyncio.Sorting.Buckets
import Mathlib.Algebra.Group.Nat.Defs
import Mathlib.Data.List.Sort

/-!
# Recognition of header names

Names are recognised with a perfect hash table. The high bits of the hash of a name choose a group, and
the displacement of the group moves the low bits to the only slot where the name can be. The hash is
taken over the bytes of the name in lower case; the table that folds them maps the bytes that are not
allowed in a token to `0`.

`httpHeaderTablePrepare` builds such a table at run time, for the names of a user and the reserved ones.

An array is a list. A string is the list of its bytes, without the NUL. The names of a table are values,
so the one block that holds them is only there or not. Allocations may fail.
-/

namespace Asyncio

namespace Http

open Incremental

/-- The bytes of a text. -/
def bytes (text : String) : List UInt8 := text.toList.map fun c => .ofNat c.toNat

/-! ### Tables -/

/-- `HttpTokenEntry`; an empty slot has no name. -/
structure TokenEntry where
  name : Option (List UInt8)
  length : UInt32
  value : Int
  hash : UInt64
  deriving DecidableEq

def emptyEntry : TokenEntry := ⟨none, 0, 0, 0⟩

/-- `HttpHeaderTable` -/
structure HeaderTable where
  entries : List TokenEntry
  displacement : List UInt16
  tableSize : ℕ
  groupCount : ℕ
  block : Bool
  deriving DecidableEq

/-- The values of `httpTokenFoldTable`. -/
def foldTable : List UInt8 := [
  0x00, 0x00, 0x00, 0x00, 0x00, 0x00, 0x00, 0x00, 0x00, 0x00, 0x00, 0x00, 0x00, 0x00, 0x00, 0x00,
  0x00, 0x00, 0x00, 0x00, 0x00, 0x00, 0x00, 0x00, 0x00, 0x00, 0x00, 0x00, 0x00, 0x00, 0x00, 0x00,
  0x00, 0x21, 0x00, 0x23, 0x24, 0x25, 0x26, 0x27, 0x00, 0x00, 0x2a, 0x2b, 0x00, 0x2d, 0x2e, 0x00,
  0x30, 0x31, 0x32, 0x33, 0x34, 0x35, 0x36, 0x37, 0x38, 0x39, 0x00, 0x00, 0x00, 0x00, 0x00, 0x00,
  0x00, 0x61, 0x62, 0x63, 0x64, 0x65, 0x66, 0x67, 0x68, 0x69, 0x6a, 0x6b, 0x6c, 0x6d, 0x6e, 0x6f,
  0x70, 0x71, 0x72, 0x73, 0x74, 0x75, 0x76, 0x77, 0x78, 0x79, 0x7a, 0x00, 0x00, 0x00, 0x5e, 0x5f,
  0x60, 0x61, 0x62, 0x63, 0x64, 0x65, 0x66, 0x67, 0x68, 0x69, 0x6a, 0x6b, 0x6c, 0x6d, 0x6e, 0x6f,
  0x70, 0x71, 0x72, 0x73, 0x74, 0x75, 0x76, 0x77, 0x78, 0x79, 0x7a, 0x00, 0x7c, 0x00, 0x7e, 0x00,
  0x00, 0x00, 0x00, 0x00, 0x00, 0x00, 0x00, 0x00, 0x00, 0x00, 0x00, 0x00, 0x00, 0x00, 0x00, 0x00,
  0x00, 0x00, 0x00, 0x00, 0x00, 0x00, 0x00, 0x00, 0x00, 0x00, 0x00, 0x00, 0x00, 0x00, 0x00, 0x00,
  0x00, 0x00, 0x00, 0x00, 0x00, 0x00, 0x00, 0x00, 0x00, 0x00, 0x00, 0x00, 0x00, 0x00, 0x00, 0x00,
  0x00, 0x00, 0x00, 0x00, 0x00, 0x00, 0x00, 0x00, 0x00, 0x00, 0x00, 0x00, 0x00, 0x00, 0x00, 0x00,
  0x00, 0x00, 0x00, 0x00, 0x00, 0x00, 0x00, 0x00, 0x00, 0x00, 0x00, 0x00, 0x00, 0x00, 0x00, 0x00,
  0x00, 0x00, 0x00, 0x00, 0x00, 0x00, 0x00, 0x00, 0x00, 0x00, 0x00, 0x00, 0x00, 0x00, 0x00, 0x00,
  0x00, 0x00, 0x00, 0x00, 0x00, 0x00, 0x00, 0x00, 0x00, 0x00, 0x00, 0x00, 0x00, 0x00, 0x00, 0x00,
  0x00, 0x00, 0x00, 0x00, 0x00, 0x00, 0x00, 0x00, 0x00, 0x00, 0x00, 0x00, 0x00, 0x00, 0x00, 0x00]

/-- `httpTokenFoldTable` -/
def httpTokenFoldTable (c : UInt8) : UInt8 := foldTable[c.toNat]?.getD 0

def hhReservedBase : Int := 0x40000000
def hhContentLength : Int := hhReservedBase + 1
def hhTransferEncoding : Int := hhReservedBase + 2
def hhContentEncoding : Int := hhReservedBase + 3
def hhConnection : Int := hhReservedBase + 4
def hhKeepAlive : Int := hhReservedBase + 5
def hhHost : Int := hhReservedBase + 6
def hhExpect : Int := hhReservedBase + 7
def hhUpgrade : Int := hhReservedBase + 8
def hhLocation : Int := hhReservedBase + 9

/-- `HttpHeaderReservedTable` -/
def httpHeaderReservedTable : List TokenEntry := [
  ⟨some (bytes "Host"), 4, hhHost, 0x4077f8cc7eaf4d6f⟩,
  ⟨some (bytes "Keep-Alive"), 10, hhKeepAlive, 0x9b912fcf8da69be0⟩,
  emptyEntry,
  emptyEntry,
  emptyEntry,
  emptyEntry,
  ⟨some (bytes "Location"), 8, hhLocation, 0x8f90406e9a94abe6⟩,
  ⟨some (bytes "Upgrade"), 7, hhUpgrade, 0x7f7d77d7c2a03db7⟩,
  ⟨some (bytes "Expect"), 6, hhExpect, 0x208ad7977190aad8⟩,
  ⟨some (bytes "Content-Encoding"), 16, hhContentEncoding, 0x8baea7ccb2afa2c8⟩,
  ⟨some (bytes "Connection"), 10, hhConnection, 0xc7f597ea639b1b59⟩,
  emptyEntry,
  ⟨some (bytes "Transfer-Encoding"), 17, hhTransferEncoding, 0x8640bd735e9d802c⟩,
  ⟨some (bytes "Content-Length"), 14, hhContentLength, 0x2d69a1e6ee916e7d⟩,
  emptyEntry,
  emptyEntry]

/-- `httpHeaderDefaultTable` -/
def httpHeaderDefaultTable : HeaderTable where
  entries := httpHeaderReservedTable
  displacement := [0, 0, 0, 0, 0, 0, 0, 0, 0, 0, 1, 0, 1, 0, 0, 1]
  tableSize := 16
  groupCount := 16
  block := false

/-! ### Lookup -/

/-- One step of FNV-1a. -/
def fnv (hash : UInt64) (folded : UInt8) : UInt64 := (hash ^^^ folded.toUInt64) * 0x100000001b3

def fnvBasis : UInt64 := 0xcbf29ce484222325

/-- The first loop of `lookupToken`: the hash and the bytes before `eos`. -/
def scanToken (eos : UInt8) (byteTable : UInt8 → UInt8) (hash : UInt64) (name : List UInt8) :
    List UInt8 → Scan UInt8 (UInt64 × List UInt8)
  | [] => .needMoreData
  | c :: s =>
    if c = eos then .ok (hash, name) (c :: s)
    else if byteTable c = 0 then .error
    else scanToken eos byteTable (fnv hash (byteTable c)) (name ++ [c]) s

/-- The group of a hash. -/
def groupOf (groupCount : ℕ) (hash : UInt64) : ℕ := (hash >>> 32).toNat &&& (groupCount - 1)

/-- The only slot for a hash. -/
def slotOf (table : HeaderTable) (hash : UInt64) : ℕ :=
  (hash.toUInt32 + (table.displacement[groupOf table.groupCount hash]?.getD 0).toUInt32).toNat &&&
    (table.tableSize - 1)

/-- `lookupToken`: the value for a name, and the name. -/
def lookupToken (eos : UInt8) (byteTable : UInt8 → UInt8) (table : HeaderTable)
    (input : List UInt8) : Scan UInt8 (Int × List UInt8) :=
  match scanToken eos byteTable fnvBasis [] input with
  | .needMoreData => .needMoreData
  | .error => .error
  | .ok (hash, name) rest =>
    if name.length = 0 then .error
    else
      let entry := table.entries[slotOf table hash]?.getD emptyEntry
      match entry.name with
      | none => .ok (0, name) rest
      | some entryName =>
        if entry.hash = hash ∧ entry.length.toNat = name.length ∧
            (entryName.take name.length).map byteTable = name.map byteTable then
          .ok (entry.value, name) rest
        else .ok (0, name) rest

/-- `httpHeaderTableLookup` -/
def httpHeaderTableLookup (table : HeaderTable) (input : List UInt8) : Scan UInt8 (Int × List UInt8) :=
  lookupToken 58 httpTokenFoldTable table input

/-! ### Building a table -/

/-- `httpHeaderTableMaxSize` -/
def httpHeaderTableMaxSize : ℕ := 65536

/-- The loop of `hashHeaderName`. -/
def hashName (hash : UInt64) (length : ℕ) : List UInt8 → Option (UInt64 × ℕ)
  | [] => some (hash, length)
  | c :: name =>
    if c = 0 then some (hash, length)
    else if httpTokenFoldTable c = 0 then none
    else hashName (fnv hash (httpTokenFoldTable c)) (length + 1) name

/-- `hashHeaderName` -/
def hashHeaderName (name : List UInt8) : Option (UInt64 × UInt32) :=
  match hashName fnvBasis 0 name with
  | none => none
  | some (hash, length) =>
    if length = 0 ∨ length > 2 ^ 32 - 1 then none else some (hash, .ofNat length)

/-- `HeaderTableGroup` -/
structure Group where
  index : ℕ
  size : ℕ
  deriving DecidableEq

/-- `compareGroups` -/
def compareGroups (l r : Group) : Int :=
  if l.size ≠ r.size then if l.size > r.size then -1 else 1
  else if l.index < r.index then -1 else if l.index > r.index then 1 else 0

/-- The slots and displacements that `placeHeaderKeys` fills. -/
structure Placement where
  slots : List (Option ℕ)
  displacement : List UInt16

section Place

variable (keys : List TokenEntry) (tableSize groupCount : ℕ)

/-- `keys[i].hash` -/
def keyHash (i : ℕ) : UInt64 := (keys[i]?.getD emptyEntry).hash

/-- The slot of a key under a displacement. -/
def keySlot (d i : ℕ) : ℕ := ((keyHash keys i).toUInt32.toNat + d) &&& (tableSize - 1)

/-- What is in a slot. -/
def slotAt (slots : List (Option ℕ)) (pos : ℕ) : Option ℕ := slots[pos]?.getD none

/-- The slots of the keys of a group under a displacement, if they are free and different. -/
def positions (slots : List (Option ℕ)) (d : ℕ) : List ℕ → List ℕ → Option (List ℕ)
  | found, [] => some found
  | found, i :: group =>
    if (slotAt slots (keySlot keys tableSize d i)).isSome then none
    else if keySlot keys tableSize d i ∈ found then none
    else positions slots d (found ++ [keySlot keys tableSize d i]) group

/-- The search for a displacement. -/
def searchDisplacement (slots : List (Option ℕ)) (group : List ℕ) : Option (ℕ × List ℕ) :=
  (List.range tableSize).findSome? fun d =>
    (positions keys tableSize slots d [] group).map fun found => (d, found)

/-- Write the keys of a group into their slots. -/
def fillSlots (slots : List (Option ℕ)) (found group : List ℕ) : List (Option ℕ) :=
  (found.zip group).foldl (fun slots p => slots.set p.1 (some p.2)) slots

/-- The loop over the groups; `segment` are the keys of a group. -/
def placeGroups (segment : Group → List ℕ) : List Group → Placement → Option Placement
  | [], placement => some placement
  | g :: groups, placement =>
    if g.size = 0 then some placement
    else
      match searchDisplacement keys tableSize placement.slots (segment g) with
      | none => none
      | some (d, found) =>
        placeGroups segment groups
          ⟨fillSlots placement.slots found (segment g),
            placement.displacement.set g.index (.ofNat d)⟩

/-- `placeHeaderKeys` -/
def placeHeaderKeys : Option Placement :=
  let group i := groupOf groupCount (keyHash keys i)
  let size := Buckets.sizes group groupCount keys.length
  let groups := (List.range groupCount).map fun i => (⟨i, Buckets.get size i⟩ : Group)
  let (bucketEnd, bucketed) :=
    Buckets.distribute group (Buckets.starts size groupCount) keys.length
  let bucketStart := Buckets.restore groupCount bucketEnd
  let groups := groups.insertionSort fun l r => compareGroups l r ≤ 0
  placeGroups keys tableSize
    (fun g => (List.range g.size).map fun n =>
      Buckets.get bucketed (Buckets.get bucketStart g.index + n))
    groups ⟨List.replicate tableSize none, List.replicate groupCount 0⟩

end Place

/-- Whether the allocations succeed: those of `httpHeaderTablePrepare`, those for each table size, and
the one of the block. -/
structure Allocator where
  scratch : Bool
  shape : ℕ → Bool
  block : Bool

/-- The first loop of `buildHeaderTable`. -/
def firstSize (keyCount : ℕ) : ℕ → ℕ → ℕ
  | 0, tableSize => tableSize
  | fuel + 1, tableSize =>
    if tableSize < keyCount then firstSize keyCount fuel (tableSize * 2) else tableSize

/-- The table sizes that are tried. -/
def tableSizes (keyCount : ℕ) : List ℕ :=
  ((List.range 17).map fun i => firstSize keyCount keyCount 1 * 2 ^ i).takeWhile
    (· ≤ httpHeaderTableMaxSize)

/-- The group counts that are tried with a table size. -/
def groupCounts (tableSize : ℕ) : List ℕ :=
  let lowerBound := if tableSize / 4 > 0 then tableSize / 4 else 1
  ((List.range 3).map fun i => tableSize / 2 ^ i).takeWhile (· ≥ lowerBound)

/-- The search for a shape. -/
def searchShape (alloc : Allocator) (keys : List TokenEntry) :
    List ℕ → Option (ℕ × ℕ × Placement)
  | [] => none
  | tableSize :: sizes =>
    if !alloc.shape tableSize then none
    else
      match (groupCounts tableSize).findSome? fun g =>
          (placeHeaderKeys keys tableSize g).map fun placement => (tableSize, g, placement) with
      | some shape => some shape
      | none => searchShape alloc keys sizes

/-- The entry for a slot. -/
def slotEntry (keys : List TokenEntry) : Option ℕ → TokenEntry
  | none => emptyEntry
  | some i =>
    let key := keys[i]?.getD emptyEntry
    ⟨key.name.map (·.take key.length.toNat), key.length, key.value, key.hash⟩

/-- `buildHeaderTable` -/
def buildHeaderTable (alloc : Allocator) (keys : List TokenEntry) : Option HeaderTable :=
  match searchShape alloc keys (tableSizes keys.length) with
  | none => none
  | some (tableSize, groupCount, placement) =>
    if !alloc.block then none
    else some {
      entries := placement.slots.map (slotEntry keys)
      displacement := placement.displacement
      tableSize := tableSize
      groupCount := groupCount
      block := true }

/-- `HttpHeaderTableEntry`; a name may be `NULL`. -/
structure HeaderTableEntry where
  name : Option (List UInt8)
  id : Int

/-- The key for an entry, if it is valid. -/
def entryKey (entry : HeaderTableEntry) : Option TokenEntry :=
  match entry.name with
  | none => none
  | some name =>
    if entry.id ≥ 1 ∧ entry.id < hhReservedBase then
      match hashHeaderName name with
      | none => none
      | some (hash, length) => some ⟨some name, length, entry.id, hash⟩
    else none

/-- The check of the sorted hashes. -/
def distinctNeighbours : List UInt64 → Bool
  | a :: b :: hashes => a != b && distinctNeighbours (b :: hashes)
  | _ => true

/-- The keys of the reserved names. -/
def reservedKeys : List TokenEntry := httpHeaderReservedTable.filter (·.name.isSome)

/-- All fields are zero. -/
def HeaderTable.zero : HeaderTable := ⟨[], [], 0, 0, false⟩

/-- `httpHeaderTablePrepare`: its result, and what it leaves in `*table`. -/
def httpHeaderTablePrepare (alloc : Allocator) (entries : List HeaderTableEntry) :
    Bool × HeaderTable :=
  if entries.length > httpHeaderTableMaxSize then (false, .zero)
  else if !alloc.scratch then (false, .zero)
  else
    match entries.mapM entryKey with
    | none => (false, .zero)
    | some userKeys =>
      let keys := userKeys ++ reservedKeys
      if distinctNeighbours ((keys.map TokenEntry.hash).insertionSort (· ≤ ·)) then
        match buildHeaderTable alloc keys with
        | some table => (true, table)
        | none => (false, .zero)
      else (false, .zero)

end Http

end Asyncio
